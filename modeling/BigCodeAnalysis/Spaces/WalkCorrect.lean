import BigCodeAnalysis.Spaces.Recursive

/-! The metrics walk computes the recursive space tree. The walk's state is compared with
the recursion's through the frames that are left once the spaces of deeper subtrees are
closed: these are the current space and the frames of its enclosing spaces. -/

namespace BigCodeAnalysis.Spaces

open Trees Trees.StackWalk

variable {R : Type*}

/-! ### Closing frames -/

section Finalize
variable (suite : MetricSuite R) (options : MetricsOptions)

/-- Closing in two rounds is closing at once, as long as the first round does not reach
the frame that is finalised in place. -/
theorem finalize_add {m : ℕ} (n : ℕ) {stateStack : List (State R)} (h : m < stateStack.length) :
    finalize suite options (m + n) stateStack =
      finalize suite options n (finalize suite options m stateStack) := by
  induction m generalizing stateStack with
  | zero => simp [finalize]
  | succ m ih =>
    match stateStack with
    | [] | [_] => simp at h
    | state :: lastState :: below =>
      rw [Nat.succ_add]
      simp only [finalize]
      exact ih (by simpa using h)

theorem finalize_one (state parent : State R) (below : List (State R)) :
    finalize suite options 1 (state :: parent :: below) =
      absorb suite parent (finalizeState suite options state) :: below := rfl

end Finalize

/-! ### Directives and enclosing frames -/

section Suppression

theorem updateFirst_append_of_any {α : Type*} {p : α → Bool} {f : α → α} {as : List α}
    (h : as.any p) (bs : List α) : updateFirst p f (as ++ bs) = updateFirst p f as ++ bs := by
  induction as with
  | nil => simp at h
  | cons a as ih =>
    simp only [List.cons_append, updateFirst]
    split_ifs with ha
    · rfl
    · simp only [List.any_cons, ha, Bool.false_or] at h
      rw [ih h, List.cons_append]

theorem updateFirst_map {α β : Type*} {p : α → Bool} {f : α → α} {g : α → β}
    (hg : ∀ a, g (f a) = g a) (as : List α) : (updateFirst p f as).map g = as.map g := by
  induction as with
  | nil => rfl
  | cons a as ih =>
    simp only [updateFirst]
    split_ifs
    · simp [hg]
    · simp [ih]

/-- A directive changes nothing of the stack but suppressed scopes. -/
theorem applySuppression_map {β : Type*} {g : State R → β}
    (hg : ∀ scope s, g (State.suppress scope s) = g s) (stateStack : List (State R))
    (d : Suppression) : (applySuppression stateStack d).map g = stateStack.map g := by
  unfold applySuppression
  cases d.kind with
  | file =>
    simp only [List.map_reverse, updateFirst_map (hg d.scope), List.reverse_reverse]
  | function => exact updateFirst_map (hg d.scope) stateStack

theorem applySuppression_kinds (stateStack : List (State R)) (d : Suppression) :
    (applySuppression stateStack d).map (·.space.kind) = stateStack.map (·.space.kind) :=
  applySuppression_map (fun _ _ => rfl) stateStack d

/-- The enclosing frames after the directives of an inner space were applied to them. -/
def raiseAll (outer : List Suppression) (base : List (State R)) : List (State R) :=
  outer.foldl applySuppression base

theorem raiseAll_kinds (outer : List Suppression) (base : List (State R)) :
    (raiseAll outer base).map (·.space.kind) = base.map (·.space.kind) := by
  induction outer generalizing base with
  | nil => rfl
  | cons d outer ih => simp only [raiseAll, List.foldl_cons] at ih ⊢; rw [ih, applySuppression_kinds]

theorem raiseAll_append (outer : List Suppression) (d : Suppression) (base : List (State R)) :
    raiseAll (outer ++ [d]) base = applySuppression (raiseAll outer base) d := by
  simp [raiseAll, List.foldl_append]

@[simp] theorem raiseAll_length (outer : List Suppression) (base : List (State R)) :
    (raiseAll outer base).length = base.length := by
  simpa using congrArg List.length (raiseAll_kinds outer base)

/-- The frames below a space: none and the space is the file unit, or the file unit is
among them. -/
def BaseOf (base : List (State R)) (r : SpaceRun R) : Prop :=
  if r.isRoot then base = [] ∧ r.state.space.kind = .unit
  else .unit ∈ base.map (·.space.kind)

/-- Applying a directive to the stack is raising it from the innermost space. -/
theorem applySuppression_raise {base : List (State R)} {r : SpaceRun R} (h : BaseOf base r)
    (d : Suppression) :
    applySuppression (r.state :: raiseAll r.outer base) d =
      (r.raise d).state :: raiseAll (r.raise d).outer base := by
  unfold SpaceRun.raise
  cases hk : d.kind with
  | function =>
    by_cases hf : r.state.space.kind = .function
    · simp [applySuppression, hk, updateFirst, hf]
    · simp [applySuppression, hk, updateFirst, hf, raiseAll_append]
  | file =>
    by_cases hroot : r.isRoot
    · obtain ⟨rfl, hunit⟩ : base = [] ∧ r.state.space.kind = .unit := by
        simpa [BaseOf, hroot] using h
      have hnil : ∀ outer, raiseAll outer ([] : List (State R)) = [] := fun outer =>
        List.eq_nil_of_length_eq_zero (by simp)
      simp [applySuppression, hk, updateFirst, hroot, hunit, hnil]
    · have hmem : SpaceKind.unit ∈ (raiseAll r.outer base).map (·.space.kind) := by
        rw [raiseAll_kinds]; simpa [BaseOf, hroot] using h
      have hany : (raiseAll r.outer base).reverse.any (fun s => s.space.kind = .unit) := by
        simpa [List.any_eq_true] using hmem
      simp only [applySuppression, hk, hroot, List.reverse_cons, Bool.false_eq_true, if_false,
        raiseAll_append]
      rw [updateFirst_append_of_any hany]
      simp

theorem raise_isRoot (r : SpaceRun R) (d : Suppression) : (r.raise d).isRoot = r.isRoot := by
  simp only [SpaceRun.raise]; split_ifs <;> rfl

theorem raise_kind (r : SpaceRun R) (d : Suppression) :
    (r.raise d).state.space.kind = r.state.space.kind := by
  simp only [SpaceRun.raise]; split_ifs <;> rfl

theorem BaseOf.raise {base : List (State R)} {r : SpaceRun R} (h : BaseOf base r)
    (d : Suppression) : BaseOf base (r.raise d) := by
  unfold BaseOf at h ⊢
  rwa [raise_isRoot, raise_kind]

/-- A whole list of directives applied to the stack, one after the other. -/
theorem raiseAll_raise {base : List (State R)} {r : SpaceRun R} (h : BaseOf base r)
    (ds : List Suppression) :
    raiseAll ds (r.state :: raiseAll r.outer base) =
      (ds.foldl SpaceRun.raise r).state :: raiseAll (ds.foldl SpaceRun.raise r).outer base := by
  induction ds generalizing r with
  | nil => rfl
  | cons d ds ih =>
    simp only [List.foldl_cons, ← ih (h.raise d), ← applySuppression_raise h d]
    rfl

end Suppression

/-! ### One visit -/

section Visit
variable (lang : Language) (suite : MetricSuite R) (options : MetricsOptions)

/-- The walk's state at a node of level `level` whose innermost space is `r`. -/
def walkAt (level : ℕ) (ancestors : Ancestors) (base : List (State R)) (verdict : SubtreeSkip)
    (r : SpaceRun R) : WalkState R :=
  ⟨ancestors, level, r.state :: raiseAll r.outer base, verdict, r.nestingMap⟩

/-- The walk's state between two nodes: once everything deeper than `level` is closed, the
innermost space is `r` and `base` is below it. -/
structure Settled (level : ℕ) (ancestors : Ancestors) (base : List (State R)) (r : SpaceRun R)
    (s : WalkState R) : Prop where
  level_le : level ≤ s.lastLevel
  chain : s.chain.take ancestors.length = ancestors
  length : s.stateStack.length = s.lastLevel - level + 1 + base.length
  frames : finalize suite options (s.lastLevel - level) s.stateStack =
    r.state :: raiseAll r.outer base
  nesting : s.nestingMap = r.nestingMap

variable {suite options}
variable {level : ℕ} {ancestors : Ancestors} {base : List (State R)} {r : SpaceRun R}

theorem Settled.closeDeeper {s : WalkState R}
    (h : Settled suite options level ancestors base r s) :
    closeDeeper suite options level { s with chain := s.chain.take ancestors.length } =
      walkAt level ancestors base s.runVerdict r := by
  have hframes := h.frames
  unfold Spaces.closeDeeper walkAt
  rw [h.chain, ← hframes, ← h.nesting]
  split_ifs with hlt
  · rfl
  · have heq : s.lastLevel = level := le_antisymm (not_lt.mp hlt) h.level_le
    simp [heq, finalize]

/-- At its own level a walk is settled, whatever the chain holds below the ancestors. -/
theorem settled_walkAt (chain : Ancestors) (verdict : SubtreeSkip)
    (h : chain.take ancestors.length = ancestors) :
    Settled suite options level ancestors base r
      { walkAt level ancestors base verdict r with chain := chain } where
  level_le := le_refl _
  chain := h
  length := by simp [walkAt]; omega
  frames := by simp [walkAt, finalize]
  nesting := rfl

variable (suite options)

theorem applyCommentSuppression_raise (h : BaseOf base r) (node : Node) :
    applyCommentSuppression lang (r.state :: raiseAll r.outer base) node =
      (r.raiseComment lang node).state ::
        raiseAll (r.raiseComment lang node).outer base := by
  unfold applyCommentSuppression SpaceRun.raiseComment
  cases lang.suppressionOf node with
  | none => rfl
  | some d => exact applySuppression_raise h d

theorem raiseComment_nestingMap (node : Node) :
    (r.raiseComment lang node).nestingMap = r.nestingMap := by
  unfold SpaceRun.raiseComment SpaceRun.raise
  split
  · rfl
  · dsimp only; split_ifs <;> rfl

theorem visitNode_skipped {node : Node} {verdict verdict' : SubtreeSkip} (walk : Walk)
    (h : skipVerdict lang options ancestors node verdict = (true, verdict')) :
    visitNode lang suite options (walkAt level ancestors base verdict r) node walk =
      (walkAt level ancestors base verdict' (r.prune suite options node), none) := by
  simp only [visitNode, walkAt, h, if_true, pruneNode, SpaceRun.prune]
  split_ifs <;> rfl

theorem visitNode_plain {node : Node} {verdict verdict' : SubtreeSkip} (depth : ℕ)
    (inComment : Bool) (hbase : BaseOf base r)
    (h : skipVerdict lang options ancestors node verdict = (false, verdict'))
    (hopen : lang.promotesToFuncSpaceWithCode ancestors node = false) :
    visitNode lang suite options (walkAt level ancestors base verdict r) node
        ⟨level, depth, inComment⟩ =
      ({ walkAt level ancestors base verdict'
          (r.visit lang suite options
            ⟨ancestors, node, ⟨false, inComment || lang.isComment node⟩⟩) with
          chain := ancestors ++ [node] },
        some ⟨level, depth + 1, inComment || lang.isComment node⟩) := by
  simp only [visitNode, openNode, walkAt, h, hopen, Bool.false_eq_true, if_false,
    applyCommentSuppression_raise lang hbase, SpaceRun.visit, raiseComment_nestingMap]

theorem visitNode_opens {node : Node} {verdict verdict' : SubtreeSkip} (depth : ℕ)
    (inComment : Bool) {frames : List (State R)} {nestingMap : NestingMap} {isRoot : Bool}
    (hbase : BaseOf frames
      ⟨openedState lang suite options ancestors node, isRoot, nestingMap, []⟩)
    (h : skipVerdict lang options ancestors node verdict = (false, verdict'))
    (hopen : lang.promotesToFuncSpaceWithCode ancestors node = true) :
    visitNode lang suite options ⟨ancestors, level, frames, verdict, nestingMap⟩ node
        ⟨level, depth, inComment⟩ =
      ({ walkAt (level + 1) ancestors frames verdict'
          (SpaceRun.visit lang suite options
            ⟨ancestors, node, ⟨true, inComment || lang.isComment node⟩⟩
            ⟨openedState lang suite options ancestors node, isRoot, nestingMap, []⟩) with
          chain := ancestors ++ [node] },
        some ⟨level + 1, depth + 1, inComment || lang.isComment node⟩) := by
  have hstack := applyCommentSuppression_raise lang hbase node
  simp only [raiseAll, List.foldl_nil] at hstack
  simp only [visitNode, openNode, walkAt, h, hopen, Bool.false_eq_true, if_false, if_true, openFuncSpace,
    hstack, SpaceRun.visit, raiseComment_nestingMap]
  rfl

end Visit

/-! ### The whole walk -/

section Walk
variable (lang : Language) (suite : MetricSuite R) (options : MetricsOptions)

theorem foldl_raise_isRoot (ds : List Suppression) (r : SpaceRun R) :
    (ds.foldl SpaceRun.raise r).isRoot = r.isRoot ∧
      (ds.foldl SpaceRun.raise r).state.space.kind = r.state.space.kind := by
  induction ds generalizing r with
  | nil => exact ⟨rfl, rfl⟩
  | cons d ds ih =>
    rw [List.foldl_cons]
    exact ⟨(ih _).1.trans (raise_isRoot r d), (ih _).2.trans (raise_kind r d)⟩

theorem raiseComment_base {base : List (State R)} {r : SpaceRun R} (h : BaseOf base r)
    (node : Node) : BaseOf base (r.raiseComment lang node) := by
  unfold SpaceRun.raiseComment
  split
  · exact h
  · exact h.raise _

theorem visit_base {base : List (State R)} {r : SpaceRun R} (h : BaseOf base r) (v : Visited) :
    BaseOf base (r.visit lang suite options v) :=
  raiseComment_base lang h v.node

theorem prune_base {base : List (State R)} {r : SpaceRun R} (h : BaseOf base r) (node : Node) :
    BaseOf base (r.prune suite options node) := by
  have hkind : (r.prune suite options node).state.space.kind = r.state.space.kind := by
    simp only [SpaceRun.prune]; split_ifs <;> rfl
  unfold BaseOf at h ⊢
  rwa [hkind]

theorem leave_base {base : List (State R)} {r : SpaceRun R} (h : BaseOf base r)
    (child : SpaceRun R) : BaseOf base (r.leave suite options child) := by
  obtain ⟨hroot, hkind⟩ := foldl_raise_isRoot child.outer r
  unfold BaseOf at h ⊢
  simp only [SpaceRun.leave, absorb, hroot, hkind]
  exact h

/-- Nothing that happens in a space changes what lies below it. -/
theorem execAll_base {base : List (State R)} (steps : List SpaceStep) {r : SpaceRun R}
    (h : BaseOf base r) :
    BaseOf base (Step.execAll (spaceAlgebra lang suite options) steps r) := by
  induction steps using Step.steps_induction generalizing r with
  | nil => exact h
  | visit v rest ih => rw [Step.execAll_visit]; exact ih (visit_base lang suite options h v)
  | prune node rest ih => rw [Step.execAll_prune]; exact ih (prune_base suite options h node)
  | child v steps rest _ ihr => rw [Step.execAll_child]; exact ihr (leave_base suite options h _)

theorem enter_base {base : List (State R)} {r : SpaceRun R} (h : BaseOf base r) (v : Visited) :
    BaseOf (r.state :: raiseAll r.outer base)
      ((spaceAlgebra lang suite options).enter v r) := by
  unfold BaseOf at h ⊢
  simp only [spaceAlgebra, Bool.false_eq_true, if_false, List.map_cons, raiseAll_kinds,
    List.mem_cons]
  split_ifs at h
  · exact Or.inl h.2.symm
  · exact Or.inr h

variable {lang suite options}

/-- Closing the child whose run is `child` leaves the frames of its parent. -/
theorem Settled.leave {level : ℕ} {ancestors : Ancestors} {node : Node} {base : List (State R)}
    {r child : SpaceRun R} {s : WalkState R} (hbase : BaseOf base r)
    (h : Settled suite options (level + 1) (ancestors ++ [node])
      (r.state :: raiseAll r.outer base) child s) :
    Settled suite options level ancestors base (r.leave suite options child) s where
  level_le := by have := h.level_le; omega
  chain := by
    have hchain := congrArg (List.take ancestors.length) h.chain
    simpa [List.take_take] using hchain
  length := by
    have hlen := h.length
    have hle := h.level_le
    simp only [List.length_cons, raiseAll_length] at hlen
    omega
  frames := by
    have hlt : s.lastLevel - (level + 1) < s.stateStack.length := by have := h.length; omega
    have hle := h.level_le
    rw [show s.lastLevel - level = s.lastLevel - (level + 1) + 1 by omega,
      finalize_add suite options 1 hlt, h.frames, raiseAll_raise hbase, finalize_one]
    rfl
  nesting := h.nesting

theorem Settled.of_node {level : ℕ} {ancestors : Ancestors} {node : Node}
    {base : List (State R)} {r : SpaceRun R} {s : WalkState R}
    (h : Settled suite options level (ancestors ++ [node]) base r s) :
    Settled suite options level ancestors base r s where
  level_le := h.level_le
  chain := by
    have hchain := congrArg (List.take ancestors.length) h.chain
    simpa [List.take_take] using hchain
  length := h.length
  frames := h.frames
  nesting := h.nesting

variable (lang suite options)

/-- The invariant of the walk: descending into a subtree runs the timeline of its marks on
the innermost space. -/
theorem descend_settled :
    (∀ (t : Node) (level : ℕ) (ancestors : Ancestors) (inComment : Bool)
      (base : List (State R)) (r : SpaceRun R) (s : WalkState R),
      BaseOf base r → Settled suite options level ancestors base r s →
        (descend .leftmostOnTop (metricsVisit lang suite options)
          ⟨level, ancestors.length, inComment⟩ t s).runVerdict =
            (markNode lang options ancestors inComment t s.runVerdict).2 ∧
        Settled suite options level ancestors base
          (Step.execAll (spaceAlgebra lang suite options)
            (markNode lang options ancestors inComment t s.runVerdict).1.steps r)
          (descend .leftmostOnTop (metricsVisit lang suite options)
            ⟨level, ancestors.length, inComment⟩ t s)) ∧
    (∀ (ts : List Node) (level : ℕ) (ancestors : Ancestors) (inComment : Bool)
      (base : List (State R)) (r : SpaceRun R) (s : WalkState R),
      BaseOf base r → Settled suite options level ancestors base r s →
        (descendForest .leftmostOnTop (metricsVisit lang suite options)
          ⟨level, ancestors.length, inComment⟩ ts s).runVerdict =
            (markForest lang options ancestors inComment ts s.runVerdict).2 ∧
        Settled suite options level ancestors base
          (Step.execAll (spaceAlgebra lang suite options)
            (Marked.stepsForest
              (markForest lang options ancestors inComment ts s.runVerdict).1) r)
          (descendForest .leftmostOnTop (metricsVisit lang suite options)
            ⟨level, ancestors.length, inComment⟩ ts s)) := by
  refine Rose.tree_forest_induction (fun a cs ih => ?_) ?_ (fun t ts iht ihts => ?_)
  · intro level ancestors inComment base r s hbase hs
    rcases hskip : skipVerdict lang options ancestors (.node a cs) s.runVerdict
      with ⟨skipped, verdict⟩
    simp only [descend, metricsVisit, hs.closeDeeper, markNode, hskip]
    cases skipped with
    | true =>
      rw [visitNode_skipped lang suite options _ hskip]
      simp only [if_true, Marked.steps, Step.execAll_prune, Step.execAll_nil]
      exact ⟨rfl, settled_walkAt ancestors verdict (List.take_length)⟩
    | false =>
      simp only [Bool.false_eq_true, if_false]
      cases hopen : lang.promotesToFuncSpaceWithCode ancestors (.node a cs) with
      | false =>
        rw [visitNode_plain lang suite options _ _ hbase hskip hopen]
        simp only [Marked.steps, Bool.false_eq_true, if_false, Step.execAll_visit]
        have hchildren := ih level (ancestors ++ [.node a cs])
          (inComment || lang.isComment (.node a cs)) base _ _
          (visit_base lang suite options hbase ⟨ancestors, .node a cs,
            ⟨false, inComment || lang.isComment (.node a cs)⟩⟩)
          (settled_walkAt (ancestors ++ [.node a cs]) verdict (List.take_length))
        rw [List.length_append, List.length_singleton] at hchildren
        exact ⟨hchildren.1, hchildren.2.of_node⟩
      | true =>
        have henter := enter_base lang suite options hbase
          ⟨ancestors, .node a cs, ⟨true, inComment || lang.isComment (.node a cs)⟩⟩
        unfold walkAt
        rw [visitNode_opens lang suite options _ _ henter hskip hopen]
        simp only [Marked.steps, if_true, Step.execAll_child, Step.execAll_visit,
          Step.execAll_nil]
        have hchildren := ih (level + 1) (ancestors ++ [.node a cs])
          (inComment || lang.isComment (.node a cs)) _ _ _
          (visit_base lang suite options henter ⟨ancestors, .node a cs,
            ⟨true, inComment || lang.isComment (.node a cs)⟩⟩)
          (settled_walkAt (ancestors ++ [.node a cs]) verdict (List.take_length))
        rw [List.length_append, List.length_singleton] at hchildren
        exact ⟨hchildren.1, hchildren.2.leave hbase⟩
  · intro level ancestors inComment base r s _ hs
    simpa [descendForest, markForest, Marked.stepsForest] using hs
  · intro level ancestors inComment base r s hbase hs
    obtain ⟨hverdict, hsettled⟩ := iht level ancestors inComment base r s hbase hs
    obtain ⟨hverdict', hsettled'⟩ := ihts level ancestors inComment base _ _
      (execAll_base lang suite options _ hbase) hsettled
    rw [hverdict] at hverdict' hsettled'
    simp only [descendForest, markForest, Marked.stepsForest, Step.execAll_append]
    exact ⟨hverdict', hsettled'⟩

/-- The final drain of a settled walk leaves the file-level space, finalised. -/
theorem Settled.drain {level : ℕ} {ancestors : Ancestors} {r : SpaceRun R} {s : WalkState R}
    (h : Settled suite options level ancestors [] r s) :
    finalize suite options s.stateStack.length s.stateStack =
      [finalizeState suite options r.state] := by
  have hlen := h.length
  simp only [List.length_nil, Nat.add_zero] at hlen
  have hnil : raiseAll r.outer ([] : List (State R)) = [] :=
    List.eq_nil_of_length_eq_zero (by simp)
  rw [hlen, finalize_add suite options 1 (by omega), h.frames, hnil]
  rfl

theorem openedState_space (v : Visited) :
    (openedState lang suite options v.ancestors v.node).space.label = openedLabel lang v ∧
      (openedState lang suite options v.ancestors v.node).space.spaces = [] := by
  unfold openedState
  dsimp only
  split_ifs <;> exact ⟨rfl, rfl⟩

/-- The visit of a root that opens the file-level space itself. -/
def unitRoot (root : Node) : Visited := ⟨[], root, ⟨true, lang.isComment root⟩⟩

/-- A root of kind `Unit` that opens a space and is not pruned is the file-level space. -/
theorem unitRoot_settled {root : Node} (hkind : lang.getSpaceKindWithCode [] root = .unit)
    (hopen : lang.promotesToFuncSpaceWithCode [] root = true)
    (hroot : (skipVerdict lang options [] root .retain).1 = false) :
    ∃ steps, (markRoot lang options root).steps = [.child (unitRoot lang root) steps] ∧
      Settled suite options 1 [root] []
        (runRoot lang suite options (openedState lang suite options [] root) steps)
        (descend .leftmostOnTop (metricsVisit lang suite options) .root root
          (WalkState.initial lang suite root)) := by
  obtain ⟨a, cs⟩ := root
  rcases hskip : skipVerdict lang options [] (.node a cs) .retain with ⟨skipped, verdict⟩
  obtain rfl : skipped = false := by simpa [hskip] using hroot
  have hbase : BaseOf [] (⟨openedState lang suite options [] (.node a cs), true,
      fun _ => none, []⟩ : SpaceRun R) := by
    have hlabel := congrArg SpaceLabel.kind
      (openedState_space lang suite options (unitRoot lang (.node a cs))).1
    simpa [BaseOf, FuncSpace.label, openedLabel, unitRoot, hkind] using hlabel
  have hstack : pushSyntheticUnitRoot lang suite (.node a cs) = [] := by
    simp [pushSyntheticUnitRoot, hkind]
  have hchildren := (descend_settled lang suite options).2 cs 1 [.node a cs]
    (lang.isComment (.node a cs)) [] _ _
    (visit_base lang suite options hbase (unitRoot lang (.node a cs)))
    (settled_walkAt [.node a cs] verdict List.take_length)
  refine ⟨.visit (unitRoot lang (.node a cs)) :: Marked.stepsForest
    (markForest lang options [.node a cs] (lang.isComment (.node a cs)) cs verdict).1, ?_, ?_⟩
  · simp [markRoot, markNode, hskip, hopen, Marked.steps, unitRoot]
  · have hvisit := @visitNode_opens R lang suite options 0 [] _ _ _ 0 false _ _ _ hbase hskip hopen
    simp only [descend, metricsVisit, WalkState.initial, hstack, closeDeeper, lt_irrefl, if_false,
      Walk.root, List.take_nil, hvisit, runRoot, Step.execAll_visit]
    exact hchildren.2

/-- The walk of a file computes the recursive space tree, when a root of kind `Unit` opens
a space and the root is not pruned. -/
theorem metricsInner_eq_recursive (name : Option String) (root : Node)
    (hunit : lang.getSpaceKindWithCode [] root = .unit →
      lang.promotesToFuncSpaceWithCode [] root = true)
    (hroot : (skipVerdict lang options [] root .retain).1 = false) :
    ∃ fs, recursiveSpaces lang suite options name root = some fs ∧
      metricsInner lang suite options name root = .ok fs := by
  unfold metricsInner recursiveSpaces rootRun
  simp only [run_eq_descend]
  by_cases hkind : lang.getSpaceKindWithCode [] root = .unit
  · obtain ⟨steps, hsteps, hwalk⟩ := unitRoot_settled lang suite options hkind (hunit hkind) hroot
    rw [hwalk.drain]
    simp only [hkind, ne_eq, not_true_eq_false, if_false, hsteps, Option.map_some]
    exact ⟨_, rfl, rfl⟩
  · have hbase : BaseOf [] (⟨State.new lang suite [] root .unit, true, fun _ => none, []⟩ :
        SpaceRun R) := by simp [BaseOf, State.new, FuncSpace.new]
    have hstack : pushSyntheticUnitRoot lang suite root = [State.new lang suite [] root .unit] := by
      simp [pushSyntheticUnitRoot, hkind]
    have hwalk := (descend_settled lang suite options).1 root 0 [] false [] _
      (WalkState.initial lang suite root) hbase
      ⟨le_refl _, rfl, by simp [WalkState.initial, hstack],
        by simp [WalkState.initial, hstack, finalize, raiseAll], rfl⟩
    rw [show (Walk.root : Walk) = ⟨0, ([] : Ancestors).length, false⟩ from rfl, hwalk.2.drain]
    simp only [hkind, ne_eq, not_false_eq_true, if_true, Option.map_some, runRoot, markRoot]
    exact ⟨_, rfl, rfl⟩

end Walk
end BigCodeAnalysis.Spaces
