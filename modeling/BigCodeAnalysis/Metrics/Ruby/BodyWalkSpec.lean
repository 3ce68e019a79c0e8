import BigCodeAnalysis.Metrics.Ruby.BodyWalk
import Mathlib.Data.List.TakeWhile

/-! The same walk by recursion on the tree. The visibility at a node is read off the nodes before
it, and its chain is the path the recursion took. -/

namespace BigCodeAnalysis.Metrics.Ruby

open Trees

/-! ### Visibility from what was read -/

mutual
/-- A target binds this keyword's name as a local. -/
def bindsName (keyword : RubyVisibility) : Node → Bool
  | .node info children =>
    match rubyVisibilityMarker (.node info children) with
    | some marker => marker = keyword
    | none => holdsTargets info.kind && bindsNameIn keyword children

def bindsNameIn (keyword : RubyVisibility) : List Node → Bool
  | [] => false
  | child :: children => (child.isNamed && bindsName keyword child) || bindsNameIn keyword children
end

theorem bindsNameIn_eq (keyword : RubyVisibility) (children : List Node) :
    bindsNameIn keyword children = (children.filter Node.isNamed).any (bindsName keyword) := by
  induction children with
  | nil => rw [bindsNameIn]; rfl
  | cons child children ih => rw [bindsNameIn, ih, List.any_filter, List.any_filter, List.any_cons]

theorem bindsName_eq (keyword : RubyVisibility) (node : Node) :
    bindsName keyword node =
      match rubyVisibilityMarker node with
      | some marker => decide (marker = keyword)
      | none => holdsTargets node.kind &&
          (node.children.filter Node.isNamed).any (bindsName keyword) := by
  cases node with
  | node info children => rw [bindsName, bindsNameIn_eq]; rfl

/-- A statement binds this keyword's name. -/
def binds (keyword : RubyVisibility) (statement : Node) : Bool :=
  ((bindingField statement.kind).bind statement.childByFieldName).any (bindsName keyword)

theorem shadowBindings_eq (shadowed : Shadowed) (stack : List Node) (keyword : RubyVisibility) :
    shadowBindings shadowed stack keyword =
      (shadowed keyword || stack.any (bindsName keyword)) := by
  induction shadowed, stack using shadowBindings.induct with
  | case1 shadowed => rw [shadowBindings, List.any_nil, Bool.or_false]
  | case2 shadowed node stack marker hmarker ih =>
    rw [shadowBindings, hmarker]
    dsimp only
    rw [ih, List.any_cons, bindsName_eq, hmarker, ← Bool.or_assoc]
    by_cases hkeyword : keyword = marker
    · subst hkeyword
      simp
    · simp [Function.update_of_ne hkeyword, Ne.symm hkeyword]
  | case3 shadowed node stack hmarker hholds ih =>
    rw [shadowBindings, hmarker]
    dsimp only
    rw [if_pos hholds, ih, List.any_append, List.any_reverse, List.any_cons, bindsName_eq, hmarker,
      hholds]
    rfl
  | case4 shadowed node stack hmarker hholds ih =>
    rw [shadowBindings, hmarker]
    dsimp only
    rw [if_neg hholds, ih, List.any_cons, bindsName_eq, hmarker, Bool.eq_false_iff.mpr hholds]
    rfl

theorem shadowStatementBindings_eq (shadowed : Shadowed) (statement : Node)
    (keyword : RubyVisibility) :
    shadowStatementBindings shadowed statement keyword =
      (shadowed keyword || binds keyword statement) := by
  unfold shadowStatementBindings binds
  cases (bindingField statement.kind).bind statement.childByFieldName with
  | none => simp
  | some target =>
    dsimp only
    rw [shadowBindings_eq, List.any_cons, List.any_nil, Bool.or_false]
    rfl

/-- The flag a bare keyword call sets. -/
def flagOf (node : Node) : Option RubyVisibility :=
  if shape node.kind = .call then
    match rubyVisibilityEffect node with
    | some (.flag flag) => some flag
    | _ => none
  else none

/-- The visibility after these nodes, the latest first: that of the latest marker that no earlier
binding shadows, or of the latest bare keyword call. -/
def visibilityAfter : List Node → RubyVisibility
  | [] => .isPublic
  | node :: earlier =>
    match rubyVisibilityMarker node with
    | some marker => if earlier.any (binds marker) then visibilityAfter earlier else marker
    | none => (flagOf node).getD (visibilityAfter earlier)

/-- The state is what the nodes read so far make it. -/
structure RubyBodyState.Agrees (state : RubyBodyState) (earlier : List Node) : Prop where
  visibility : state.visibility = visibilityAfter earlier
  shadowed : ∀ keyword, state.shadowed keyword = earlier.any (binds keyword)

theorem RubyBodyState.Agrees.withChain {state : RubyBodyState} {earlier : List Node}
    (h : state.Agrees earlier) (chain : ChildAncestors) :
    RubyBodyState.Agrees { state with chain } earlier :=
  ⟨h.visibility, h.shadowed⟩

theorem binds_of_marker {node : Node} {marker : RubyVisibility}
    (h : rubyVisibilityMarker node = some marker) (keyword : RubyVisibility) :
    binds keyword node = false := by
  unfold rubyVisibilityMarker at h
  split_ifs at h with hkind
  unfold binds bindingField
  rw [hkind]
  rfl

namespace RubyBodyState
variable {state : RubyBodyState} {earlier : List Node} {node : Node}

theorem agrees_marker {state' : RubyBodyState} (h : state.Agrees earlier)
    (hmarker : state.applyMarker node = some state') :
    state'.Agrees (node :: earlier) ∧ state'.chain = state.chain := by
  obtain ⟨marker, hnode, hstate⟩ := Option.map_eq_some_iff.mp hmarker
  have hbinds := binds_of_marker hnode
  by_cases hshadowed : state.shadowed marker
  · rw [if_pos hshadowed] at hstate
    subst hstate
    refine ⟨⟨?_, fun keyword => ?_⟩, rfl⟩
    · rw [visibilityAfter, hnode]
      dsimp only
      rw [← h.shadowed, if_pos hshadowed, h.visibility]
    · rw [List.any_cons, hbinds, Bool.false_or, h.shadowed]
  · rw [if_neg hshadowed] at hstate
    subst hstate
    refine ⟨⟨?_, fun keyword => ?_⟩, rfl⟩
    · rw [visibilityAfter, hnode]
      dsimp only
      rw [← h.shadowed, if_neg hshadowed]
    · rw [List.any_cons, hbinds, Bool.false_or, h.shadowed]

/-- A node that is no marker binds names, and sets the flag if it is a bare keyword call. -/
theorem agrees_statement (h : state.Agrees earlier) (hmarker : rubyVisibilityMarker node = none) :
    Agrees { state with
        visibility := (flagOf node).getD state.visibility
        shadowed := shadowStatementBindings state.shadowed node } (node :: earlier) where
  visibility := by rw [visibilityAfter, hmarker, h.visibility]
  shadowed keyword := by
    show shadowStatementBindings state.shadowed node keyword = _
    rw [shadowStatementBindings_eq, List.any_cons, h.shadowed, Bool.or_comm]

end RubyBodyState

/-! ### The recursion -/

/-- The keyword and the argument list of a call that is entered. -/
def entered (call : Node) : Option (Option RubyVisibilityCall × Node) :=
  match rubyVisibilityEffect call with
  | some (.flag _) => none
  | some (.arguments keyword) => (rubyCallArgumentList call).map fun list => (some keyword, list)
  | none => (rubyCallArgumentList call).map fun list => (none, list)

theorem mem_children_of_entered {call list : Node} {keyword : Option RubyVisibilityCall}
    (h : entered call = some (keyword, list)) : list ∈ call.children := by
  have hlist : rubyCallArgumentList call = some list := by
    unfold entered at h
    split at h
    · cases h
    · obtain ⟨found, hfound, heq⟩ := Option.map_eq_some_iff.mp h
      cases heq
      exact hfound
    · obtain ⟨found, hfound, heq⟩ := Option.map_eq_some_iff.mp h
      cases heq
      exact hfound
  exact List.mem_of_find?_eq_some hlist

section Recursion
variable {T σ : Type*} (consumer : RubyBodyConsumer T σ)

/-- Hand over a call whose arguments were read in this frame. -/
def RubyBodyConsumer.leaveFrom (inner kind : RubyFrameKind T) (s : σ) : RubyFrameKind T × σ :=
  match inner with
  | .arguments call => consumer.leave call kind s
  | .statements => (kind, s)

/-- Read these nodes in order, each before what is inside it; `earlier` are the nodes read before,
the latest first. -/
def readAll (above : Option (List Node)) (nodes : List Node) (kind : RubyFrameKind T)
    (earlier : List Node) (s : σ) : RubyFrameKind T × List Node × σ :=
  match nodes with
  | [] => (kind, earlier, s)
  | node :: nodes =>
    if rubyVisibilityMarker node ≠ none then readAll above nodes kind (node :: earlier) s
    else
      let told := consumer.tell kind node (shape node.kind) (visibilityAfter earlier) above s
      match shape node.kind with
      | .call =>
        match _h : entered node with
        | some (keyword, list) =>
          let inner := readAll (above.map (· ++ [node, list])) (list.children.filter Node.isNamed)
            (.arguments ⟨keyword, consumer.default⟩) (node :: earlier) told.2
          let left := consumer.leaveFrom inner.1 told.1 inner.2.2
          readAll above nodes left.1 inner.2.1 left.2
        | none => readAll above nodes told.1 (node :: earlier) told.2
      | .wrapper =>
        let inner := readAll (above.map (· ++ [node]))
          (node.children.filter (isStatementOf node node.kind)) .statements (node :: earlier) told.2
        readAll above nodes told.1 inner.2.1 inner.2.2
      | .definition | .leaf => readAll above nodes told.1 (node :: earlier) told.2
termination_by Rose.forestSize nodes
decreasing_by
  all_goals
    have hnode := Rose.size_eq node
    rw [Rose.forestSize_cons]
  · omega
  · have hlist := Rose.size_le_forestSize (mem_children_of_entered _h)
    have hsize := Rose.size_eq list
    have hle := Rose.forestSize_le_of_sublist (List.filter_sublist (p := Node.isNamed)
      (l := list.children))
    omega
  · omega
  · omega
  · have hle := Rose.forestSize_le_of_sublist (List.filter_sublist
      (p := isStatementOf node node.kind) (l := node.children))
    omega
  · omega
  · omega

variable {above : Option (List Node)} {node : Node} {nodes earlier : List Node}
  {kind : RubyFrameKind T} {s : σ}

theorem readAll_nil : readAll consumer above [] kind earlier s = (kind, earlier, s) := by
  rw [readAll]

theorem readAll_marker (hmarker : rubyVisibilityMarker node ≠ none) :
    readAll consumer above (node :: nodes) kind earlier s =
      readAll consumer above nodes kind (node :: earlier) s := by
  rw [readAll, if_pos hmarker]

section Statement
variable (hmarker : rubyVisibilityMarker node = none)
include hmarker

/-- A node that is not entered. -/
theorem readAll_plain (hshape : shape node.kind ≠ .wrapper)
    (hentered : shape node.kind = .call → entered node = none) :
    readAll consumer above (node :: nodes) kind earlier s =
      let told := consumer.tell kind node (shape node.kind) (visibilityAfter earlier) above s
      readAll consumer above nodes told.1 (node :: earlier) told.2 := by
  rw [readAll, if_neg (not_not_intro hmarker)]
  cases hnode : shape node.kind with
  | definition => rfl
  | leaf => rfl
  | wrapper => exact absurd hnode hshape
  | call =>
    dsimp only
    split
    · next hsome =>
      rw [hentered hnode] at hsome
      cases hsome
    · rfl

theorem readAll_call {keyword : Option RubyVisibilityCall} {list : Node}
    (hshape : shape node.kind = .call) (hentered : entered node = some (keyword, list)) :
    readAll consumer above (node :: nodes) kind earlier s =
      let told := consumer.tell kind node .call (visibilityAfter earlier) above s
      let inner := readAll consumer (above.map (· ++ [node, list]))
        (list.children.filter Node.isNamed) (.arguments ⟨keyword, consumer.default⟩)
        (node :: earlier) told.2
      let left := consumer.leaveFrom inner.1 told.1 inner.2.2
      readAll consumer above nodes left.1 inner.2.1 left.2 := by
  rw [readAll, if_neg (not_not_intro hmarker), hshape]
  dsimp only
  split
  · next keyword' list' hsome =>
    rw [hentered] at hsome
    cases hsome
    rfl
  · next hnone =>
    rw [hentered] at hnone
    cases hnone

theorem readAll_wrapper (hshape : shape node.kind = .wrapper) :
    readAll consumer above (node :: nodes) kind earlier s =
      let told := consumer.tell kind node .wrapper (visibilityAfter earlier) above s
      let inner := readAll consumer (above.map (· ++ [node]))
        (node.children.filter (isStatementOf node node.kind)) .statements (node :: earlier) told.2
      readAll consumer above nodes told.1 inner.2.1 inner.2.2 := by
  rw [readAll, if_neg (not_not_intro hmarker), hshape]

end Statement

end Recursion

/-! ### One read -/

namespace ChildAncestors

/-- The chain is not shorter than it was built. -/
def AboveFloor (above : ChildAncestors) : Prop := ∀ chain ∈ above.chain, above.floor ≤ chain.length

theorem aboveFloor_descend {above : ChildAncestors} (h : above.AboveFloor) (child : Node) :
    (above.descend child).AboveFloor := by
  intro chain hchain
  obtain ⟨before, hbefore, rfl⟩ := Option.map_eq_some_iff.mp hchain
  have hle := h before hbefore
  rw [List.length_append]
  exact Nat.le_add_right_of_le hle

theorem ascend_descend {above : ChildAncestors} (h : above.AboveFloor) (child : Node) :
    (above.descend child).ascend = above := by
  obtain ⟨chain, floor⟩ := above
  cases chain with
  | none => rfl
  | some chain =>
    have hlt : floor < (chain ++ [child]).length := by
      have hle : floor ≤ chain.length := h chain rfl
      rw [List.length_append, List.length_singleton]
      omega
    simp only [descend, ascend, Option.map_some, hlt, if_true, List.dropLast_concat]

end ChildAncestors

namespace RubyBodyState
variable {T σ : Type*} (consumer : RubyBodyConsumer T σ)
variable {state : RubyBodyState} {node : Node} {frame : RubyFrame T} {stack : List (RubyFrame T)}
  {s : σ}

theorem applyMarker_eq_none : state.applyMarker node = none ↔ rubyVisibilityMarker node = none :=
  Option.map_eq_none_iff

theorem read_marker {state' : RubyBodyState} (h : state.applyMarker node = some state') :
    state.read consumer node frame stack s = (state', frame :: stack, s) := by
  rw [read, h]

section Statement
variable (hmarker : rubyVisibilityMarker node = none)
include hmarker

theorem read_plain (hshape : shape node.kind ≠ .wrapper)
    (hentered : shape node.kind = .call → entered node = none) :
    let told :=
      consumer.tell frame.kind node (shape node.kind) state.visibility state.chain.chain s
    state.read consumer node frame stack s =
      ({ state with
          visibility := (flagOf node).getD state.visibility
          shadowed := shadowStatementBindings state.shadowed node },
        { frame with kind := told.1 } :: stack, told.2) := by
  rw [read, applyMarker_eq_none.mpr hmarker]
  cases hnode : shape node.kind with
  | definition => simp [flagOf, hnode]
  | leaf => simp [flagOf, hnode]
  | wrapper => exact absurd hnode hshape
  | call =>
    have hnone := hentered hnode
    unfold entered at hnone
    simp only [openCall, flagOf, hnode, if_true]
    cases heffect : rubyVisibilityEffect node with
    | none =>
      rw [heffect] at hnone
      simp only [Option.map_eq_none_iff] at hnone
      simp [hnone]
    | some effect =>
      cases effect with
      | flag flag => rfl
      | arguments keyword =>
        rw [heffect] at hnone
        simp only [Option.map_eq_none_iff] at hnone
        simp [hnone]

theorem read_call {keyword : Option RubyVisibilityCall} {list : Node}
    (hshape : shape node.kind = .call) (hentered : entered node = some (keyword, list)) :
    let told := consumer.tell frame.kind node .call state.visibility state.chain.chain s
    state.read consumer node frame stack s =
      ({ state with
          chain := (state.chain.descend node).descend list
          visibility := (flagOf node).getD state.visibility
          shadowed := shadowStatementBindings state.shadowed node },
        ⟨node, list.children, .arguments ⟨keyword, consumer.default⟩⟩ ::
          { frame with kind := told.1 } :: stack, told.2) := by
  rw [read, applyMarker_eq_none.mpr hmarker, hshape]
  unfold entered at hentered
  simp only [openCall, flagOf, hshape, if_true]
  cases heffect : rubyVisibilityEffect node with
  | none =>
    rw [heffect] at hentered
    obtain ⟨found, hfound, heq⟩ := Option.map_eq_some_iff.mp hentered
    cases heq
    simp [hfound]
  | some effect =>
    rw [heffect] at hentered
    cases effect with
    | flag flag => cases hentered
    | arguments keyword' =>
      obtain ⟨found, hfound, heq⟩ := Option.map_eq_some_iff.mp hentered
      cases heq
      simp [hfound]

theorem read_wrapper (hshape : shape node.kind = .wrapper) :
    let told := consumer.tell frame.kind node .wrapper state.visibility state.chain.chain s
    state.read consumer node frame stack s =
      ({ state with
          chain := state.chain.descend node
          visibility := (flagOf node).getD state.visibility
          shadowed := shadowStatementBindings state.shadowed node },
        ⟨node, node.children, .statements⟩ :: { frame with kind := told.1 } :: stack, told.2) := by
  rw [read, applyMarker_eq_none.mpr hmarker, hshape]
  simp [openWrapper, flagOf, hshape]

end Statement

/-! ### The loop -/

theorem isArguments_tell (kind : RubyFrameKind T) (node : Node) (shape : RubyBodyShape)
    (visibility : RubyVisibility) (chain : Option (List Node)) (s : σ) :
    (consumer.tell kind node shape visibility chain s).1.isArguments = kind.isArguments := by
  cases kind <;> rfl

theorem isArguments_leaveFrom (inner kind : RubyFrameKind T) (s : σ) :
    (consumer.leaveFrom inner kind s).1.isArguments = kind.isArguments := by
  cases inner with
  | statements => rfl
  | arguments call => cases kind <;> rfl

theorem selects_congr (body : Node) {frame frame' : RubyFrame T} (hnode : frame.node = frame'.node)
    (hkind : frame.kind.isArguments = frame'.kind.isArguments) :
    selects body frame = selects body frame' := by
  funext child
  rw [selects, selects, hnode, hkind]

/-- A frame with nothing to read is as good as an empty one. -/
theorem loop_unselected {body frameNode : Node} {children : List Node} {kind : RubyFrameKind T}
    (h : children.filter (selects body ⟨frameNode, children, kind⟩) = []) :
    loop consumer body state (⟨frameNode, children, kind⟩ :: stack) s =
      loop consumer body state (⟨frameNode, [], kind⟩ :: stack) s := by
  have hdrop : children.dropWhile
      (fun child => !selects body ⟨frameNode, children, kind⟩ child) = [] := by
    apply List.dropWhile_eq_nil_iff.mpr
    intro child hchild
    rw [Bool.not_eq_true']
    exact Bool.eq_false_iff.mpr (List.filter_eq_nil_iff.mp h child hchild)
  rw [loop_close consumer hdrop, loop_close consumer rfl]
  rfl

/-- The first child the frame reads is read. -/
theorem loop_selected {body frameNode child : Node} {children nodes : List Node}
    {kind : RubyFrameKind T}
    (h : children.filter (selects body ⟨frameNode, children, kind⟩) = child :: nodes) :
    ∃ rest, rest.filter (selects body ⟨frameNode, children, kind⟩) = nodes ∧
      rest.Sublist children ∧
      loop consumer body state (⟨frameNode, children, kind⟩ :: stack) s =
        let next := state.read consumer child ⟨frameNode, rest, kind⟩ stack s
        loop consumer body next.1 next.2.1 next.2.2 := by
  obtain ⟨skipped, rest, hchildren, hskipped, hchild, hrest⟩ := List.filter_eq_cons_iff.mp h
  have hdrop : children.dropWhile
      (fun child => !selects body ⟨frameNode, children, kind⟩ child) = child :: rest := by
    rw [hchildren] at hskipped hchild ⊢
    rw [List.dropWhile_append_of_pos, List.dropWhile_cons_of_neg (by rw [hchild]; decide)]
    intro skip hskip
    rw [Bool.not_eq_true']
    exact Bool.eq_false_iff.mpr (hskipped skip hskip)
  refine ⟨rest, hrest, ?_, loop_read consumer hdrop⟩
  rw [hchildren]
  exact ((List.sublist_cons_self ..).trans (List.sublist_append_right ..))

/-- The frame of a call hands it over. -/
theorem loop_close_call {body call frameNode : Node} {rest : List Node}
    {inner kind : RubyFrameKind T} (h : inner.isArguments = true) :
    loop consumer body state (⟨call, [], inner⟩ :: ⟨frameNode, rest, kind⟩ :: stack) s =
      let left := consumer.leaveFrom inner kind s
      loop consumer body { state with chain := state.chain.ascend.ascend }
        (⟨frameNode, rest, left.1⟩ :: stack) left.2 := by
  cases inner with
  | statements => cases h
  | arguments opened =>
    rw [loop_close consumer rfl]
    rfl

theorem loop_close_wrapper {body wrapper : Node} {kind : RubyFrameKind T}
    (h : kind.isArguments = false) (hne : wrapper.id ≠ body.id) :
    loop consumer body state (⟨wrapper, [], kind⟩ :: stack) s =
      loop consumer body { state with chain := state.chain.ascend } stack s := by
  cases kind with
  | arguments call => cases h
  | statements =>
    rw [loop_close consumer rfl, closeFrame]
    dsimp only
    rw [if_neg hne]

/-- The frame of the body ends the loop. -/
theorem loop_close_body {body : Node} {kind : RubyFrameKind T} (h : kind.isArguments = false) :
    loop consumer body state [⟨body, [], kind⟩] s = (state, s) := by
  cases kind with
  | arguments call => cases h
  | statements =>
    rw [loop_close consumer rfl, closeFrame]
    dsimp only
    rw [if_pos rfl, loop_nil]

end RubyBodyState

/-- Induction over what is read: a node that is not entered, a call with the arguments it holds,
a wrapper with its statements. -/
theorem reading_induction {motive : List Node → Prop} (nil : motive [])
    (marker : ∀ node nodes, rubyVisibilityMarker node ≠ none → motive nodes →
      motive (node :: nodes))
    (plain : ∀ node nodes, rubyVisibilityMarker node = none → shape node.kind ≠ .wrapper →
      (shape node.kind = .call → entered node = none) → motive nodes → motive (node :: nodes))
    (call : ∀ node nodes keyword list, rubyVisibilityMarker node = none →
      shape node.kind = .call → entered node = some (keyword, list) →
      motive (list.children.filter Node.isNamed) → motive nodes → motive (node :: nodes))
    (wrapper : ∀ node nodes, rubyVisibilityMarker node = none → shape node.kind = .wrapper →
      motive (node.children.filter (isStatementOf node node.kind)) → motive nodes →
      motive (node :: nodes)) :
    ∀ nodes, motive nodes
  | [] => nil
  | node :: nodes => by
    have ih := reading_induction nil marker plain call wrapper nodes
    by_cases hmarker : rubyVisibilityMarker node = none
    · by_cases hwrapper : shape node.kind = .wrapper
      · exact wrapper node nodes hmarker hwrapper
          (reading_induction nil marker plain call wrapper _) ih
      · by_cases hcall : shape node.kind = .call
        · cases hentered : entered node with
          | none => exact plain node nodes hmarker hwrapper (fun _ => hentered) ih
          | some p =>
            obtain ⟨keyword, list⟩ := p
            have hlist := mem_children_of_entered hentered
            exact call node nodes keyword list hmarker hcall hentered
              (reading_induction nil marker plain call wrapper _) ih
        · exact plain node nodes hmarker hwrapper (fun h => absurd h hcall) ih
    · exact marker node nodes hmarker ih
termination_by nodes => Rose.forestSize nodes
decreasing_by
  all_goals
    have hnode := Rose.size_eq node
    rw [Rose.forestSize_cons]
  · omega
  · have hle := Rose.forestSize_le_of_sublist (List.filter_sublist
      (p := isStatementOf node node.kind) (l := node.children))
    omega
  · have hle := Rose.forestSize_le_of_sublist (List.filter_sublist (p := Node.isNamed)
      (l := list.children))
    have hsize := Rose.size_eq list
    have hlt := Rose.size_le_forestSize hlist
    omega

/-- Reading leaves a frame of the same kind. -/
theorem isArguments_readAll {T σ : Type*} (consumer : RubyBodyConsumer T σ)
    (above : Option (List Node)) (nodes : List Node) (kind : RubyFrameKind T)
    (earlier : List Node) (s : σ) :
    (readAll consumer above nodes kind earlier s).1.isArguments = kind.isArguments := by
  induction nodes using reading_induction generalizing above kind earlier s with
  | nil => rw [readAll_nil]
  | marker node nodes hmarker ih => rw [readAll_marker consumer hmarker, ih]
  | plain node nodes hmarker hshape hentered ih =>
    rw [readAll_plain consumer hmarker hshape hentered, ih, RubyBodyState.isArguments_tell]
  | call node nodes keyword list hmarker hshape hentered ihl ih =>
    rw [readAll_call consumer hmarker hshape hentered, ih, RubyBodyState.isArguments_leaveFrom,
      RubyBodyState.isArguments_tell]
  | wrapper node nodes hmarker hshape ihw ih =>
    rw [readAll_wrapper consumer hmarker hshape, ih, RubyBodyState.isArguments_tell]

namespace RubyBodyState
variable {T σ : Type*} (consumer : RubyBodyConsumer T σ)

/-- No node of the forest has the identity of the body. -/
def Apart (body : Node) (children : List Node) : Prop :=
  ∀ t ∈ Rose.forestNodes children, Node.id t ≠ Node.id body

theorem Apart.sublist {body : Node} {children rest : List Node} (h : Apart body children)
    (hsub : rest.Sublist children) : Apart body rest :=
  fun t ht => h t ((Rose.forestNodes_sublist hsub).subset ht)

theorem Apart.child {body node : Node} {children : List Node} (h : Apart body children)
    (hnode : node ∈ children) : Node.id node ≠ Node.id body ∧ Apart body node.children := by
  have hsub := (Rose.nodes_sublist_of_mem hnode).subset
  rw [Rose.nodes_eq] at hsub
  exact ⟨h node (hsub (List.mem_cons_self ..)),
    fun t ht => h t (hsub (List.mem_cons_of_mem _ ht))⟩

/-- What the loop does with a frame whose children read are `nodes`. -/
def ReadsLike (body : Node) (nodes : List Node) : Prop :=
  ∀ {state : RubyBodyState} {frameNode : Node} {children : List Node} {kind : RubyFrameKind T}
    {stack : List (RubyFrame T)} {earlier : List Node} {s : σ},
    Apart body children →
    children.filter (selects body ⟨frameNode, children, kind⟩) = nodes →
    state.Agrees earlier → state.chain.AboveFloor →
    let out := readAll consumer state.chain.chain nodes kind earlier s
    ∃ state' : RubyBodyState, state'.Agrees out.2.1 ∧ state'.chain = state.chain ∧
      loop consumer body state (⟨frameNode, children, kind⟩ :: stack) s =
        loop consumer body state' (⟨frameNode, [], out.1⟩ :: stack) out.2.2

/-- The loop goes on with the rest of a frame once one of its children is done with. -/
theorem ReadsLike.next {body : Node} {nodes : List Node} (h : ReadsLike consumer body nodes)
    {state state₁ : RubyBodyState} {frameNode : Node} {children rest : List Node}
    {kind kind₁ : RubyFrameKind T} {stack : List (RubyFrame T)} {earlier₁ : List Node} {s₁ : σ}
    (hapart : Apart body children) (hsub : rest.Sublist children)
    (hrest : rest.filter (selects body ⟨frameNode, children, kind⟩) = nodes)
    (hkind : kind₁.isArguments = kind.isArguments) (hagrees : state₁.Agrees earlier₁)
    (hchain : state₁.chain = state.chain) (hfloor : state.chain.AboveFloor) :
    let out := readAll consumer state.chain.chain nodes kind₁ earlier₁ s₁
    ∃ state' : RubyBodyState, state'.Agrees out.2.1 ∧ state'.chain = state.chain ∧
      loop consumer body state₁ (⟨frameNode, rest, kind₁⟩ :: stack) s₁ =
        loop consumer body state' (⟨frameNode, [], out.1⟩ :: stack) out.2.2 := by
  have hnodes : rest.filter (selects body ⟨frameNode, rest, kind₁⟩) = nodes := by
    rw [← hrest]
    congr 1
    exact selects_congr body rfl hkind
  rw [← hchain] at hfloor ⊢
  exact h (hapart.sublist hsub) hnodes hagrees hfloor

/-- The loop reads the children of the top frame as the recursion does, and is then back at the
frame with the chain it had. -/
theorem readsLike (body : Node) (nodes : List Node) : ReadsLike consumer body nodes := by
  induction nodes using reading_induction with
  | nil =>
    intro state frameNode children kind stack earlier s hapart hnodes hagrees hfloor
    rw [readAll_nil]
    exact ⟨state, hagrees, rfl, loop_unselected consumer hnodes⟩
  | marker node nodes hmarker ih =>
    intro state frameNode children kind stack earlier s hapart hnodes hagrees hfloor
    obtain ⟨rest, hrest, hsub, hloop⟩ :=
      @loop_selected _ _ consumer state stack s _ _ _ _ _ _ hnodes
    obtain ⟨state₁, hstate₁⟩ :=
      Option.ne_none_iff_exists'.mp (mt applyMarker_eq_none.mp hmarker)
    obtain ⟨hagrees₁, hchain₁⟩ := agrees_marker hagrees hstate₁
    rw [hloop, read_marker consumer hstate₁, readAll_marker consumer hmarker]
    exact ih.next consumer hapart hsub hrest rfl hagrees₁ hchain₁ hfloor
  | plain node nodes hmarker hshape hentered ih =>
    intro state frameNode children kind stack earlier s hapart hnodes hagrees hfloor
    obtain ⟨rest, hrest, hsub, hloop⟩ :=
      @loop_selected _ _ consumer state stack s _ _ _ _ _ _ hnodes
    rw [hloop, read_plain consumer hmarker hshape hentered,
      readAll_plain consumer hmarker hshape hentered, ← hagrees.visibility]
    exact ih.next consumer hapart hsub hrest (isArguments_tell ..)
      (agrees_statement hagrees hmarker) rfl hfloor
  | call node nodes keyword list hmarker hshape hentered ihl ih =>
    intro state frameNode children kind stack earlier s hapart hnodes hagrees hfloor
    obtain ⟨rest, hrest, hsub, hloop⟩ :=
      @loop_selected _ _ consumer state stack s _ _ _ _ _ _ hnodes
    have hmem : node ∈ children := List.mem_of_mem_filter (hnodes ▸ List.mem_cons_self ..)
    have hlist := (hapart.child hmem).2.child (mem_children_of_entered hentered)
    have habove : ((state.chain.descend node).descend list).chain =
        state.chain.chain.map (· ++ [node, list]) := by
      simp [ChildAncestors.descend, Function.comp_def]
    rw [hloop, read_call consumer hmarker hshape hentered,
      readAll_call consumer hmarker hshape hentered, ← hagrees.visibility, ← habove]
    obtain ⟨state₂, hagrees₂, hchain₂, hinner⟩ :=
      @ihl _ node _ (.arguments ⟨keyword, consumer.default⟩) _ _ _ hlist.2 rfl
        ((agrees_statement hagrees hmarker).withChain ((state.chain.descend node).descend list))
        (ChildAncestors.aboveFloor_descend (ChildAncestors.aboveFloor_descend hfloor node) list)
    dsimp only
    rw [hinner, loop_close_call consumer (isArguments_readAll ..), hchain₂,
      ChildAncestors.ascend_descend (ChildAncestors.aboveFloor_descend hfloor node),
      ChildAncestors.ascend_descend hfloor]
    exact ih.next consumer hapart hsub hrest
      ((isArguments_leaveFrom ..).trans (isArguments_tell ..))
      (hagrees₂.withChain state.chain) rfl hfloor
  | wrapper node nodes hmarker hshape ihw ih =>
    intro state frameNode children kind stack earlier s hapart hnodes hagrees hfloor
    obtain ⟨rest, hrest, hsub, hloop⟩ :=
      @loop_selected _ _ consumer state stack s _ _ _ _ _ _ hnodes
    have hmem : node ∈ children := List.mem_of_mem_filter (hnodes ▸ List.mem_cons_self ..)
    obtain ⟨hne, hinside⟩ := hapart.child hmem
    rw [hloop, read_wrapper consumer hmarker hshape, readAll_wrapper consumer hmarker hshape,
      ← hagrees.visibility]
    have hselects : node.children.filter (selects body ⟨node, node.children,
        (.statements : RubyFrameKind T)⟩) =
        node.children.filter (isStatementOf node node.kind) := by
      congr 1
      funext child
      exact if_neg (by simpa [RubyFrameKind.isArguments] using hne)
    obtain ⟨state₂, hagrees₂, hchain₂, hinner⟩ :=
      @ihw _ node _ _ _ _ _ hinside hselects
        ((agrees_statement hagrees hmarker).withChain (state.chain.descend node))
        (ChildAncestors.aboveFloor_descend hfloor node)
    dsimp only
    rw [hinner, loop_close_wrapper consumer (isArguments_readAll ..) hne, hchain₂,
      ChildAncestors.ascend_descend hfloor]
    exact ih.next consumer hapart hsub hrest (isArguments_tell ..)
      (hagrees₂.withChain state.chain) rfl hfloor

end RubyBodyState

end BigCodeAnalysis.Metrics.Ruby
