import BigCodeAnalysis.Metrics.Ruby.BodyWalkSpec
import Mathlib.Data.List.Chain

/-! What every consumer of the body walk is told, as a list that is read off the body alone. The
nodes a walk reads form a tree, in which a call holds its arguments and a wrapper its statements;
the deliveries are its nodes in order, each with the visibility and the ancestors it has there,
and each call once more behind its arguments. A consumer that only writes down what it is told
writes down this list, and any other consumer with it beside it is told the same. -/

namespace BigCodeAnalysis.Metrics.Ruby

open Trees

/-! ### What is read -/

/-- A node that is read, with what is read inside it. -/
inductive Reading where
  | marker (node : Node)
  | plain (node : Node)
  | call (node list : Node) (keyword : Option RubyVisibilityCall) (arguments : List Reading)
  | wrapper (node : Node) (statements : List Reading)

/-- The nodes of a body, a wrapper or an argument list as they are read. -/
def readings : List Node → List Reading
  | [] => []
  | node :: nodes =>
    if rubyVisibilityMarker node ≠ none then .marker node :: readings nodes
    else
      match shape node.kind with
      | .call =>
        match _h : entered node with
        | some (keyword, list) =>
          .call node list keyword (readings (list.children.filter Node.isNamed)) :: readings nodes
        | none => .plain node :: readings nodes
      | .wrapper =>
        .wrapper node (readings (node.children.filter (isStatementOf node node.kind))) ::
          readings nodes
      | .definition | .leaf => .plain node :: readings nodes
termination_by nodes => Rose.forestSize nodes
decreasing_by
  all_goals
    have hnode := Rose.size_eq node
    rw [Rose.forestSize_cons]
  · omega
  · have hlist := Rose.size_le_forestSize (mem_children_of_entered _h)
    have hsize := Rose.size_eq list
    have hle := Rose.forestSize_le_of_sublist (List.filter_sublist (p := Node.isNamed)
      (l := list.children))
    omega
  · omega
  · omega
  · have hle := Rose.forestSize_le_of_sublist (List.filter_sublist
      (p := isStatementOf node node.kind) (l := node.children))
    omega
  · omega
  · omega

mutual
/-- The nodes read, in order. -/
def Reading.nodes : Reading → List Node
  | .marker node => [node]
  | .plain node => [node]
  | .call node _ _ arguments => node :: nodesOf arguments
  | .wrapper node statements => node :: nodesOf statements

def nodesOf : List Reading → List Node
  | [] => []
  | reading :: rest => reading.nodes ++ nodesOf rest
end

/-! ### What is told -/

/-- One thing a consumer is told: a statement, an argument of a call, or a call that is left, with
the call it is an argument of. An open call is shown with what was gathered in it so far. -/
inductive Delivery where
  | statement (node : Node) (shape : RubyBodyShape) (visibility : RubyVisibility)
      (ancestors : Option (List Node))
  | argument (call : RubyOpenCall (List Node)) (node : Node) (shape : RubyBodyShape)
      (visibility : RubyVisibility) (ancestors : Option (List Node))
  | leaveCall (call : RubyOpenCall (List Node)) (outer : Option (RubyOpenCall (List Node)))

def gather (call : RubyOpenCall (List Node)) (nodes : List Node) : RubyOpenCall (List Node) :=
  { call with gathered := call.gathered ++ nodes }

/-- The node is told as an argument of the call whose argument list it is in, or as a
statement. -/
def told (call : Option (RubyOpenCall (List Node))) (node : Node) (visibility : RubyVisibility)
    (above : Option (List Node)) : Delivery :=
  match call with
  | some call => .argument call node (shape node.kind) visibility above
  | none => .statement node (shape node.kind) visibility above

mutual
/-- What is gathered for the call of an argument: the argument, and what the call that it is
gathered. -/
def Reading.gathered : Reading → List Node
  | .marker _ => []
  | .plain node => [node]
  | .call node _ _ arguments => node :: gatheredOf arguments
  | .wrapper node _ => [node]

def gatheredOf : List Reading → List Node
  | [] => []
  | reading :: rest => reading.gathered ++ gatheredOf rest
end

mutual
/-- A node is told before what is inside it, under its ancestors `above` and the visibility of
the nodes `earlier`, the latest first. A call is left behind its last argument. -/
def Reading.deliveries (above : Option (List Node)) (call : Option (RubyOpenCall (List Node)))
    (earlier : List Node) : Reading → List Delivery
  | .marker _ => []
  | .plain node => [told call node (visibilityAfter earlier) above]
  | .call node list keyword arguments =>
    told call node (visibilityAfter earlier) above ::
      (deliveriesOf (above.map (· ++ [node, list])) (some ⟨keyword, []⟩) (node :: earlier) arguments ++
        [.leaveCall ⟨keyword, gatheredOf arguments⟩ (call.map (gather · [node]))])
  | .wrapper node statements =>
    told call node (visibilityAfter earlier) above ::
      deliveriesOf (above.map (· ++ [node])) none (node :: earlier) statements

def deliveriesOf (above : Option (List Node)) (call : Option (RubyOpenCall (List Node)))
    (earlier : List Node) : List Reading → List Delivery
  | [] => []
  | reading :: rest =>
    reading.deliveries above call earlier ++
      deliveriesOf above (call.map (gather · reading.gathered)) (reading.nodes.reverse ++ earlier)
        rest
end

/-- A consumer that only writes down what it is told. A call that is left hands on what was
gathered in it. -/
def recorder : RubyBodyConsumer (List Node) (List Delivery) where
  default := []
  statement node shape visibility ancestors log :=
    log ++ [.statement node shape visibility ancestors]
  argument node shape call visibility ancestors log :=
    (gather call [node], log ++ [.argument call node shape visibility ancestors])
  leaveCall call outer log :=
    (outer.map (gather · call.gathered), log ++ [.leaveCall call outer])

section Cases
variable {node : Node} {nodes : List Node}

theorem readings_nil : readings [] = [] := by
  rw [readings]

theorem readings_marker (hmarker : rubyVisibilityMarker node ≠ none) :
    readings (node :: nodes) = .marker node :: readings nodes := by
  rw [readings, if_pos hmarker]

variable (hmarker : rubyVisibilityMarker node = none)
include hmarker

theorem readings_plain (hshape : shape node.kind ≠ .wrapper)
    (hentered : shape node.kind = .call → entered node = none) :
    readings (node :: nodes) = .plain node :: readings nodes := by
  rw [readings, if_neg (not_not_intro hmarker)]
  cases hnode : shape node.kind with
  | definition => rfl
  | leaf => rfl
  | wrapper => exact absurd hnode hshape
  | call =>
    dsimp only
    split
    · next hsome =>
      rw [hentered hnode] at hsome
      cases hsome
    · rfl

theorem readings_call {keyword : Option RubyVisibilityCall} {list : Node}
    (hshape : shape node.kind = .call) (hentered : entered node = some (keyword, list)) :
    readings (node :: nodes) =
      .call node list keyword (readings (list.children.filter Node.isNamed)) :: readings nodes := by
  rw [readings, if_neg (not_not_intro hmarker), hshape]
  dsimp only
  split
  · next keyword' list' hsome =>
    rw [hentered] at hsome
    cases hsome
    rfl
  · next hnone =>
    rw [hentered] at hnone
    cases hnone

theorem readings_wrapper (hshape : shape node.kind = .wrapper) :
    readings (node :: nodes) =
      .wrapper node (readings (node.children.filter (isStatementOf node node.kind))) ::
        readings nodes := by
  rw [readings, if_neg (not_not_intro hmarker), hshape]

end Cases

/-! ### The recorder's list -/

namespace RubyFrameKind
variable {T T' : Type*}

/-- The call whose arguments are read. -/
def call? : RubyFrameKind T → Option (RubyOpenCall T)
  | .statements => none
  | .arguments call => some call

def map (f : RubyOpenCall T → RubyOpenCall T') : RubyFrameKind T → RubyFrameKind T'
  | .statements => .statements
  | .arguments call => .arguments (f call)

end RubyFrameKind

theorem gather_nil (call : RubyOpenCall (List Node)) : gather call [] = call := by
  rw [gather, List.append_nil]

theorem gather_gather (call : RubyOpenCall (List Node)) (nodes more : List Node) :
    gather (gather call nodes) more = gather call (nodes ++ more) := by
  rw [gather, gather, gather, List.append_assoc]

theorem map_gather_nil (kind : RubyFrameKind (List Node)) : kind.map (gather · []) = kind := by
  cases kind with
  | statements => rfl
  | arguments call => rw [RubyFrameKind.map, gather_nil]

theorem map_gather_gather (kind : RubyFrameKind (List Node)) (nodes more : List Node) :
    (kind.map (gather · nodes)).map (gather · more) = kind.map (gather · (nodes ++ more)) := by
  cases kind with
  | statements => rfl
  | arguments call => simp only [RubyFrameKind.map, gather_gather]

theorem call?_map_gather (kind : RubyFrameKind (List Node)) (nodes : List Node) :
    (kind.map (gather · nodes)).call? = kind.call?.map (gather · nodes) := by
  cases kind <;> rfl

theorem tell_recorder (kind : RubyFrameKind (List Node)) (node : Node)
    (visibility : RubyVisibility) (chain : Option (List Node)) (log : List Delivery) :
    recorder.tell kind node (shape node.kind) visibility chain log =
      (kind.map (gather · [node]), log ++ [told kind.call? node visibility chain]) := by
  cases kind <;> rfl

theorem leaveFrom_recorder (call : RubyOpenCall (List Node)) (kind : RubyFrameKind (List Node))
    (log : List Delivery) :
    recorder.leaveFrom (.arguments call) kind log =
      (kind.map (gather · call.gathered), log ++ [.leaveCall call kind.call?]) := by
  cases kind <;> rfl

/-- The recorder writes down the deliveries. -/
theorem readAll_recorder (nodes : List Node) :
    ∀ (above : Option (List Node)) (kind : RubyFrameKind (List Node)) (earlier : List Node)
      (log : List Delivery),
      readAll recorder above nodes kind earlier log =
        (kind.map (gather · (gatheredOf (readings nodes))),
          (nodesOf (readings nodes)).reverse ++ earlier,
          log ++ deliveriesOf above kind.call? earlier (readings nodes)) := by
  induction nodes using reading_induction with
  | nil =>
    intro above kind earlier log
    rw [readAll_nil, readings_nil, gatheredOf, map_gather_nil, nodesOf, deliveriesOf,
      List.append_nil]
    rfl
  | marker node nodes hmarker ih =>
    intro above kind earlier log
    rw [readAll_marker _ hmarker, readings_marker hmarker, ih]
    simp [gatheredOf, Reading.gathered, nodesOf, Reading.nodes, deliveriesOf, Reading.deliveries,
      Option.map_id', gather_nil]
  | plain node nodes hmarker hshape hentered ih =>
    intro above kind earlier log
    rw [readAll_plain _ hmarker hshape hentered, readings_plain hmarker hshape hentered]
    simp only [tell_recorder, ih, map_gather_gather, call?_map_gather]
    simp [gatheredOf, Reading.gathered, nodesOf, Reading.nodes, deliveriesOf, Reading.deliveries]
  | call node nodes keyword list hmarker hshape hentered ihl ih =>
    intro above kind earlier log
    have htell := tell_recorder kind node (visibilityAfter earlier) above log
    rw [hshape] at htell
    rw [readAll_call _ hmarker hshape hentered, readings_call hmarker hshape hentered]
    simp only [htell, ihl]
    rw [RubyFrameKind.map, leaveFrom_recorder, map_gather_gather, ih, map_gather_gather,
      call?_map_gather, call?_map_gather]
    simp [gatheredOf, Reading.gathered, nodesOf, Reading.nodes, deliveriesOf, Reading.deliveries,
      RubyFrameKind.call?, gather, recorder]
  | wrapper node nodes hmarker hshape ihw ih =>
    intro above kind earlier log
    have htell := tell_recorder kind node (visibilityAfter earlier) above log
    rw [hshape] at htell
    rw [readAll_wrapper _ hmarker hshape, readings_wrapper hmarker hshape]
    simp only [htell, ihw, ih, map_gather_gather, call?_map_gather]
    simp [gatheredOf, Reading.gathered, nodesOf, Reading.nodes, deliveriesOf, Reading.deliveries,
      RubyFrameKind.call?]

/-! ### Consumers side by side -/

section Beside
variable {T σ T' σ' : Type*}

/-- What one consumer makes of a delivery is, seen through `f` and `g`, what another one does. -/
structure Projects (wide : RubyBodyConsumer T σ) (narrow : RubyBodyConsumer T' σ')
    (f : RubyOpenCall T → RubyOpenCall T') (g : σ → σ') : Prop where
  default : ∀ keyword, f ⟨keyword, wide.default⟩ = ⟨keyword, narrow.default⟩
  statement : ∀ node shape visibility ancestors s,
    g (wide.statement node shape visibility ancestors s) =
      narrow.statement node shape visibility ancestors (g s)
  argument : ∀ node shape call visibility ancestors s,
    narrow.argument node shape (f call) visibility ancestors (g s) =
      (f (wide.argument node shape call visibility ancestors s).1,
        g (wide.argument node shape call visibility ancestors s).2)
  leaveStatement : ∀ call s,
    (narrow.leaveCall (f call) none (g s)).2 = g (wide.leaveCall call none s).2
  leaveArgument : ∀ call outer s,
    ((narrow.leaveCall (f call) (some (f outer)) (g s)).1.getD (f outer),
        (narrow.leaveCall (f call) (some (f outer)) (g s)).2) =
      (f ((wide.leaveCall call (some outer) s).1.getD outer),
        g (wide.leaveCall call (some outer) s).2)

variable {wide : RubyBodyConsumer T σ} {narrow : RubyBodyConsumer T' σ'}
  {f : RubyOpenCall T → RubyOpenCall T'} {g : σ → σ'} (h : Projects wide narrow f g)
include h

theorem Projects.tell (kind : RubyFrameKind T) (node : Node) (shape : RubyBodyShape)
    (visibility : RubyVisibility) (chain : Option (List Node)) (s : σ) :
    narrow.tell (kind.map f) node shape visibility chain (g s) =
      ((wide.tell kind node shape visibility chain s).1.map f,
        g (wide.tell kind node shape visibility chain s).2) := by
  cases kind with
  | statements =>
    have hstatement := h.statement node shape visibility chain s
    exact Prod.ext rfl hstatement.symm
  | arguments call =>
    have hargument := h.argument node shape call visibility chain s
    simp only [RubyFrameKind.map, RubyBodyConsumer.tell, hargument]

theorem Projects.leaveFrom (inner kind : RubyFrameKind T) (s : σ) :
    narrow.leaveFrom (inner.map f) (kind.map f) (g s) =
      ((wide.leaveFrom inner kind s).1.map f, g (wide.leaveFrom inner kind s).2) := by
  cases inner with
  | statements => rfl
  | arguments call =>
    cases kind with
    | statements => exact Prod.ext rfl (h.leaveStatement call s)
    | arguments outer =>
      obtain ⟨houter, hstate⟩ := Prod.mk.inj (h.leaveArgument call outer s)
      exact Prod.ext (congrArg RubyFrameKind.arguments houter) hstate

theorem Projects.readAll (nodes : List Node) :
    ∀ (above : Option (List Node)) (kind : RubyFrameKind T) (earlier : List Node) (s : σ),
      Ruby.readAll narrow above nodes (kind.map f) earlier (g s) =
        ((Ruby.readAll wide above nodes kind earlier s).1.map f,
          (Ruby.readAll wide above nodes kind earlier s).2.1,
          g (Ruby.readAll wide above nodes kind earlier s).2.2) := by
  induction nodes using reading_induction with
  | nil =>
    intro above kind earlier s
    simp only [readAll_nil]
  | marker node nodes hmarker ih =>
    intro above kind earlier s
    simp only [readAll_marker _ hmarker, ih]
  | plain node nodes hmarker hshape hentered ih =>
    intro above kind earlier s
    simp only [readAll_plain _ hmarker hshape hentered, h.tell, ih]
  | call node nodes keyword list hmarker hshape hentered ihl ih =>
    intro above kind earlier s
    have hcall : (.arguments ⟨keyword, narrow.default⟩ : RubyFrameKind T') =
        RubyFrameKind.map f (.arguments ⟨keyword, wide.default⟩) := by
      rw [RubyFrameKind.map, h.default]
    simp only [readAll_call _ hmarker hshape hentered, h.tell, hcall, ihl, h.leaveFrom, ih]
  | wrapper node nodes hmarker hshape ihw ih =>
    intro above kind earlier s
    have hstatements : (.statements : RubyFrameKind T') = RubyFrameKind.map f .statements := rfl
    simp only [readAll_wrapper _ hmarker hshape, h.tell, hstatements, ihw, ih]

end Beside

section Alongside
variable {T σ : Type*} (consumer : RubyBodyConsumer T σ)

/-- The open call as the consumer has it; it is as it was opened until the consumer changes it. -/
def ownCall (call : RubyOpenCall (Option (RubyOpenCall T) × List Node)) : RubyOpenCall T :=
  call.gathered.1.getD ⟨call.keyword, consumer.default⟩

/-- The open call as the recorder beside it has it. -/
def notedCall (call : RubyOpenCall (Option (RubyOpenCall T) × List Node)) :
    RubyOpenCall (List Node) :=
  ⟨call.keyword, call.gathered.2⟩

/-- A consumer with the recorder beside it. -/
def alongside :
    RubyBodyConsumer (Option (RubyOpenCall T) × List Node) (σ × List Delivery) where
  default := (none, [])
  statement node shape visibility ancestors p :=
    (consumer.statement node shape visibility ancestors p.1,
      recorder.statement node shape visibility ancestors p.2)
  argument node shape call visibility ancestors p :=
    let own := consumer.argument node shape (ownCall consumer call) visibility ancestors p.1
    let noted := recorder.argument node shape (notedCall call) visibility ancestors p.2
    (⟨call.keyword, some own.1, noted.1.gathered⟩, own.2, noted.2)
  leaveCall call outer p :=
    let own := consumer.leaveCall (ownCall consumer call) (outer.map (ownCall consumer)) p.1
    let noted := recorder.leaveCall (notedCall call) (outer.map notedCall) p.2
    (outer.map fun outer =>
        ⟨outer.keyword, some (own.1.getD (ownCall consumer outer)),
          (noted.1.getD (notedCall outer)).gathered⟩,
      own.2, noted.2)

theorem alongside_projects_consumer :
    Projects (alongside consumer) consumer (ownCall consumer) Prod.fst where
  default _ := rfl
  statement _ _ _ _ _ := rfl
  argument _ _ _ _ _ _ := rfl
  leaveStatement _ _ := rfl
  leaveArgument _ _ _ := rfl

theorem alongside_projects_recorder :
    Projects (alongside consumer) recorder notedCall Prod.snd where
  default _ := rfl
  statement _ _ _ _ _ := rfl
  argument _ _ _ _ _ _ := rfl
  leaveStatement _ _ := rfl
  leaveArgument _ _ _ := rfl

end Alongside

/-! ### Order and ancestors -/

theorem reads_cons {node : Node} {nodes inside reads : List Node}
    (hinside : inside.Sublist (Rose.forestNodes node.children))
    (hreads : reads.Sublist (Rose.forestNodes nodes)) (hroots : nodes.Sublist reads) :
    (node :: inside ++ reads).Sublist (Rose.forestNodes (node :: nodes)) ∧
      (node :: nodes).Sublist (node :: inside ++ reads) := by
  rw [Rose.forestNodes, Rose.nodes_eq]
  refine ⟨(hinside.cons_cons node).append hreads, ?_⟩
  rw [List.cons_append]
  exact (hroots.trans (List.sublist_append_right ..)).cons_cons node

/-- What is read, in order: some of the nodes of the forest in pre-order, with all its roots. -/
theorem nodesOf_readings_sublist (nodes : List Node) :
    (nodesOf (readings nodes)).Sublist (Rose.forestNodes nodes) ∧
      nodes.Sublist (nodesOf (readings nodes)) := by
  induction nodes using reading_induction with
  | nil =>
    rw [readings_nil]
    exact ⟨List.nil_sublist _, .refl _⟩
  | marker node nodes hmarker ih =>
    rw [readings_marker hmarker]
    exact reads_cons (List.nil_sublist _) ih.1 ih.2
  | plain node nodes hmarker hshape hentered ih =>
    rw [readings_plain hmarker hshape hentered]
    exact reads_cons (List.nil_sublist _) ih.1 ih.2
  | call node nodes keyword list hmarker hshape hentered ihl ih =>
    have hlist := Rose.nodes_sublist_of_mem (mem_children_of_entered hentered)
    rw [Rose.nodes_eq] at hlist
    have hnamed := Rose.forestNodes_sublist (List.filter_sublist (p := Node.isNamed)
      (l := list.children))
    rw [readings_call hmarker hshape hentered]
    exact reads_cons (ihl.1.trans (hnamed.trans ((List.sublist_cons_self ..).trans hlist)))
      ih.1 ih.2
  | wrapper node nodes hmarker hshape ihw ih =>
    rw [readings_wrapper hmarker hshape]
    exact reads_cons (ihw.1.trans (Rose.forestNodes_sublist List.filter_sublist)) ih.1 ih.2

/-- The node a consumer is told of, with the chain it is shown. -/
def Delivery.read : Delivery → Option (Node × Option (List Node))
  | .statement node _ _ ancestors => some (node, ancestors)
  | .argument _ node _ _ ancestors => some (node, ancestors)
  | .leaveCall _ _ => none

theorem read_told (call : Option (RubyOpenCall (List Node))) (node : Node)
    (visibility : RubyVisibility) (above : Option (List Node)) :
    (told call node visibility above).read = some (node, above) := by
  cases call <;> rfl

theorem filterMap_read_leaveCall (call : RubyOpenCall (List Node))
    (outer : Option (RubyOpenCall (List Node))) (rest : List Delivery) :
    (Delivery.leaveCall call outer :: rest).filterMap (fun d => d.read.map Prod.fst) =
      rest.filterMap (fun d => d.read.map Prod.fst) := rfl

/-- Every node that is read is told once and in order, but for the markers. -/
theorem filterMap_read_deliveries (nodes : List Node) :
    ∀ (above : Option (List Node)) (call : Option (RubyOpenCall (List Node)))
      (earlier : List Node),
      (deliveriesOf above call earlier (readings nodes)).filterMap
          (fun d => d.read.map Prod.fst) =
        (nodesOf (readings nodes)).filter fun node => (rubyVisibilityMarker node).isNone := by
  induction nodes using reading_induction with
  | nil =>
    intro above call earlier
    rw [readings_nil]
    rfl
  | marker node nodes hmarker ih =>
    intro above call earlier
    have hsome : (rubyVisibilityMarker node).isNone = false :=
      Bool.eq_false_iff.mpr fun h => hmarker (Option.isNone_iff_eq_none.mp h)
    rw [readings_marker hmarker]
    simp [deliveriesOf, Reading.deliveries, nodesOf, Reading.nodes, ih, hsome]
  | plain node nodes hmarker hshape hentered ih =>
    intro above call earlier
    rw [readings_plain hmarker hshape hentered]
    simp [deliveriesOf, Reading.deliveries, nodesOf, Reading.nodes, ih, hmarker, read_told]
  | call node nodes keyword list hmarker hshape hentered ihl ih =>
    intro above call earlier
    rw [readings_call hmarker hshape hentered]
    simp [deliveriesOf, Reading.deliveries, nodesOf, Reading.nodes, ih, ihl, hmarker, read_told,
      filterMap_read_leaveCall]
  | wrapper node nodes hmarker hshape ihw ih =>
    intro above call earlier
    rw [readings_wrapper hmarker hshape]
    simp [deliveriesOf, Reading.deliveries, nodesOf, Reading.nodes, ih, ihw, hmarker, read_told]

/-- Each node is a child of the one before it. -/
def Descent (nodes : List Node) : Prop :=
  nodes.IsChain fun parent child => child ∈ parent.children

/-- The chain shown goes from that of the body's children down to the node. -/
def TrueAncestors (body : Node) (chain : Option (List Node)) (d : Delivery) : Prop :=
  ∀ node ancestors, d.read = some (node, ancestors) →
    ∃ path, ancestors = chain.map (· ++ path) ∧ Descent (body :: path ++ [node])

theorem descent_concat {nodes : List Node} {parent child : Node} (h : Descent (nodes ++ [parent]))
    (hchild : child ∈ parent.children) : Descent (nodes ++ [parent] ++ [child]) := by
  rw [List.append_assoc]
  exact List.isChain_append_cons_cons.mpr ⟨h, hchild, .singleton child⟩

theorem map_append_append (chain : Option (List Node)) (path more : List Node) :
    (chain.map (· ++ path)).map (· ++ more) = chain.map (· ++ (path ++ more)) := by
  rw [Option.map_map]
  congr 1
  funext before
  exact List.append_assoc ..

theorem trueAncestors_told {body node : Node} {chain : Option (List Node)} {path : List Node}
    (h : Descent (body :: path ++ [node])) (call : Option (RubyOpenCall (List Node)))
    (visibility : RubyVisibility) :
    TrueAncestors body chain (told call node visibility (chain.map (· ++ path))) := by
  intro node' ancestors hread
  rw [read_told] at hread
  obtain ⟨rfl, rfl⟩ := Prod.mk.inj (Option.some_inj.mp hread)
  exact ⟨path, rfl, h⟩

theorem trueAncestors_leaveCall {body : Node} {chain : Option (List Node)}
    (call : RubyOpenCall (List Node)) (outer : Option (RubyOpenCall (List Node))) :
    TrueAncestors body chain (.leaveCall call outer) := by
  rintro _ _ ⟨⟩

/-- Every delivery shows the true ancestors of its node. -/
theorem trueAncestors_deliveries {body : Node} {chain : Option (List Node)} (nodes : List Node) :
    ∀ (path : List Node) (call : Option (RubyOpenCall (List Node))) (earlier : List Node),
      (∀ node ∈ nodes, Descent (body :: path ++ [node])) →
      ∀ d ∈ deliveriesOf (chain.map (· ++ path)) call earlier (readings nodes),
        TrueAncestors body chain d := by
  induction nodes using reading_induction with
  | nil =>
    intro path call earlier hpath d hd
    rw [readings_nil] at hd
    cases hd
  | marker node nodes hmarker ih =>
    intro path call earlier hpath d hd
    rw [readings_marker hmarker, deliveriesOf, Reading.deliveries, List.nil_append] at hd
    exact ih path _ _ (fun n hn => hpath n (List.mem_cons_of_mem _ hn)) d hd
  | plain node nodes hmarker hshape hentered ih =>
    intro path call earlier hpath d hd
    rw [readings_plain hmarker hshape hentered, deliveriesOf, Reading.deliveries,
      List.singleton_append] at hd
    rcases List.mem_cons.mp hd with rfl | hd
    · exact trueAncestors_told (hpath node List.mem_cons_self) _ _
    · exact ih path _ _ (fun n hn => hpath n (List.mem_cons_of_mem _ hn)) d hd
  | call node nodes keyword list hmarker hshape hentered ihl ih =>
    intro path call earlier hpath d hd
    have hnode := hpath node List.mem_cons_self
    have hlist := descent_concat hnode (mem_children_of_entered hentered)
    rw [readings_call hmarker hshape hentered, deliveriesOf, Reading.deliveries, map_append_append,
      List.cons_append, List.append_assoc] at hd
    rcases List.mem_cons.mp hd with rfl | hd
    · exact trueAncestors_told hnode _ _
    rcases List.mem_append.mp hd with hd | hd
    · refine ihl _ _ _ (fun n hn => ?_) d hd
      have hargument := descent_concat hlist (List.mem_of_mem_filter hn)
      simpa using hargument
    rcases List.mem_cons.mp hd with rfl | hd
    · exact trueAncestors_leaveCall _ _
    · exact ih path _ _ (fun n hn => hpath n (List.mem_cons_of_mem _ hn)) d hd
  | wrapper node nodes hmarker hshape ihw ih =>
    intro path call earlier hpath d hd
    have hnode := hpath node List.mem_cons_self
    rw [readings_wrapper hmarker hshape, deliveriesOf, Reading.deliveries, map_append_append,
      List.cons_append] at hd
    rcases List.mem_cons.mp hd with rfl | hd
    · exact trueAncestors_told hnode _ _
    rcases List.mem_append.mp hd with hd | hd
    · refine ihw _ _ _ (fun n hn => ?_) d hd
      have hstatement := descent_concat hnode (List.mem_of_mem_filter hn)
      simpa using hstatement
    · exact ih path _ _ (fun n hn => hpath n (List.mem_cons_of_mem _ hn)) d hd

/-! ### The walk over a body -/

/-- A class body in its tree. No two nodes of a tree have the same identity. -/
structure ClassBody where
  node : Node
  distinct : (node.nodes.map Node.id).Nodup

namespace ClassBody
variable (body : ClassBody)

/-- What a walk over the body reads. -/
def readings : List Reading := Ruby.readings (body.node.children.filter Node.isNamed)

/-- What a walk over the body tells, under the chain of its children. -/
def deliveries (chain : Option (List Node)) : List Delivery :=
  deliveriesOf chain none [] body.readings

variable {T σ : Type*}

/-- What a walk over the body makes of a consumer's state, by recursion. -/
def readBody (consumer : RubyBodyConsumer T σ) (chain : Option (List Node)) (s : σ) :
    RubyFrameKind T × List Node × σ :=
  readAll consumer chain (body.node.children.filter Node.isNamed) .statements [] s

theorem apart : RubyBodyState.Apart body.node body.node.children := by
  intro t ht heq
  have hnodup := body.distinct
  rw [Rose.nodes_eq, List.map_cons, List.nodup_cons] at hnodup
  exact hnodup.1 (List.mem_map.mpr ⟨t, ht, heq⟩)

theorem readBody_recorder (chain : Option (List Node)) :
    body.readBody recorder chain [] =
      (.statements, (nodesOf body.readings).reverse, body.deliveries chain) := by
  have hrecorder := readAll_recorder (body.node.children.filter Node.isNamed) chain .statements [] []
  rw [List.append_nil, List.nil_append] at hrecorder
  exact hrecorder

/-- A consumer and the recorder beside it, seen each on its own. -/
theorem readBody_alongside (consumer : RubyBodyConsumer T σ) (chain : Option (List Node)) (s : σ) :
    (body.readBody (alongside consumer) chain (s, [])).2 =
      ((nodesOf body.readings).reverse, (body.readBody consumer chain s).2.2,
        body.deliveries chain) ∧
    (body.readBody consumer chain s).2.1 = (nodesOf body.readings).reverse := by
  have hown := (alongside_projects_consumer consumer).readAll
    (body.node.children.filter Node.isNamed) chain .statements [] (s, [])
  have hnoted := (alongside_projects_recorder consumer).readAll
    (body.node.children.filter Node.isNamed) chain .statements [] (s, [])
  have hrecorder := body.readBody_recorder chain
  rw [readBody] at hrecorder
  rw [RubyFrameKind.map, hrecorder, Prod.mk.injEq, Prod.mk.injEq] at hnoted
  rw [RubyFrameKind.map] at hown
  have hreads : (body.readBody consumer chain s).2.1 = (nodesOf body.readings).reverse := by
    rw [readBody, hown, ← hnoted.2.1]
  refine ⟨?_, hreads⟩
  rw [readBody, readBody, hown]
  exact Prod.ext hnoted.2.1.symm (Prod.ext rfl hnoted.2.2.symm)

end ClassBody

variable {T σ : Type*}

theorem walk_eq (body : ClassBody) (consumer : RubyBodyConsumer T σ)
    (chain : Option (List Node)) (s : σ) :
    ∃ state : RubyBodyState,
      RubyBodyState.walk consumer chain body.node s =
          (state, (body.readBody consumer chain s).2.2) ∧
        state.chain.chain = chain ∧
        state.visibility = visibilityAfter (body.readBody consumer chain s).2.1 := by
  have hselects : body.node.children.filter (RubyBodyState.selects body.node
      ⟨body.node, body.node.children, (.statements : RubyFrameKind T)⟩) =
      body.node.children.filter Node.isNamed := by
    congr 1
    funext child
    exact if_pos (by simp)
  have hagrees : RubyBodyState.Agrees
      ⟨⟨chain, (chain.map List.length).getD 0⟩, .isPublic, fun _ => false⟩ [] :=
    ⟨rfl, fun _ => rfl⟩
  have hfloor : ChildAncestors.AboveFloor ⟨chain, (chain.map List.length).getD 0⟩ := by
    rintro nodes ⟨⟩
    exact le_rfl
  obtain ⟨state, hstate, hchain, hloop⟩ :=
    @RubyBodyState.readsLike _ _ consumer body.node _ _ _ _ _ [] _ s body.apart hselects hagrees
      hfloor
  refine ⟨state, ?_, congrArg ChildAncestors.chain hchain, hstate.visibility⟩
  rw [RubyBodyState.walk, hloop]
  exact RubyBodyState.loop_close_body consumer (isArguments_readAll ..)

/-- The walk over a body is the recursion over its tree, for every consumer, and its chain is back
at the body's. What the recorder writes down is the list of deliveries read off the body, and so it
does beside any consumer. The nodes read are the body's statements and what is read in them, in
pre-order and none twice; all but the markers are told, with their true ancestors. -/
theorem walk_correct (body : ClassBody) (consumer : RubyBodyConsumer T σ)
    (chain : Option (List Node)) (s : σ) :
    (∃ state : RubyBodyState,
      RubyBodyState.walk consumer chain body.node s =
          (state, (body.readBody consumer chain s).2.2) ∧
        state.chain.chain = chain ∧
        state.visibility = visibilityAfter (nodesOf body.readings).reverse) ∧
    (RubyBodyState.walk recorder chain body.node []).2 = body.deliveries chain ∧
    (RubyBodyState.walk (alongside consumer) chain body.node (s, [])).2 =
      ((RubyBodyState.walk consumer chain body.node s).2, body.deliveries chain) ∧
    ((body.node.children.filter Node.isNamed).Sublist (nodesOf body.readings) ∧
      (nodesOf body.readings).Sublist (Rose.forestNodes body.node.children) ∧
      ((nodesOf body.readings).map Node.id).Nodup) ∧
    (body.deliveries chain).filterMap (fun d => d.read.map Prod.fst) =
      (nodesOf body.readings).filter (fun node => (rubyVisibilityMarker node).isNone) ∧
    ∀ d ∈ body.deliveries chain, TrueAncestors body.node chain d := by
  obtain ⟨state, hwalk, hchain, hvisibility⟩ := walk_eq body consumer chain s
  obtain ⟨_, hrecord, -⟩ := walk_eq body recorder chain []
  obtain ⟨_, hboth, -⟩ := walk_eq body (alongside consumer) chain (s, [])
  obtain ⟨halongside, hreads⟩ := body.readBody_alongside consumer chain s
  obtain ⟨hsub, hroots⟩ := nodesOf_readings_sublist (body.node.children.filter Node.isNamed)
  have hsub' := hsub.trans (Rose.forestNodes_sublist List.filter_sublist)
  refine ⟨⟨state, hwalk, hchain, hvisibility.trans (congrArg visibilityAfter hreads)⟩, ?_, ?_,
    ⟨hroots, hsub', ?_⟩, filterMap_read_deliveries _ _ _ _, ?_⟩
  · rw [hrecord, body.readBody_recorder chain]
  · rw [hboth, hwalk, halongside]
  · have hnodup := body.distinct
    rw [Rose.nodes_eq, List.map_cons, List.nodup_cons] at hnodup
    exact (hsub'.map Node.id).nodup hnodup.2
  · have htrue := @trueAncestors_deliveries body.node chain
      (body.node.children.filter Node.isNamed) [] none []
    simp only [List.append_nil, Option.map_id'] at htrue
    exact htrue fun node hnode => List.isChain_pair.mpr (List.mem_of_mem_filter hnode)

/-- `private` before `attr_reader public` in a class body: the argument is a marker too. -/
def markedBody : ClassBody where
  node := .node ⟨0, .other 0, true, none, none⟩
    [.node ⟨1, .identifier, true, none, some "private"⟩ [],
      .node ⟨2, .call, true, none, none⟩
        [.node ⟨3, .identifier, true, some .method, some "attr_reader"⟩ [],
          .node ⟨4, .argumentList, true, none, none⟩
            [.node ⟨5, .identifier, true, none, some "public"⟩ []]],
      .node ⟨6, .method, true, none, none⟩ []]
  distinct := by decide

theorem walk_correct_markedBody :
    (RubyBodyState.walk recorder none markedBody.node []).2 = markedBody.deliveries none ∧
      ((nodesOf markedBody.readings).map Node.id).Nodup :=
  have h := walk_correct markedBody recorder none []
  ⟨h.2.1, h.2.2.2.1.2.2⟩

end BigCodeAnalysis.Metrics.Ruby
