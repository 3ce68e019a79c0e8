import BigCodeAnalysis.Metrics.FunctionMetrics
import BigCodeAnalysis.Spaces.SpaceTree

/-! Function populations in the walk. The walk merges and finalises every space of its result
once, so each holds the population of the functions the result has below it. -/

namespace BigCodeAnalysis.Metrics.FunctionMetrics

open Trees Spaces

variable {R : Type*}

/-- A visit counts towards the own values of a space and leaves its aggregates alone. -/
def SameAggregates (a b : FunctionMetrics) : Prop :=
  ∀ measure, (a.tally measure).sum = (b.tally measure).sum ∧
    (a.tally measure).functions = (b.tally measure).functions

theorem SameAggregates.trans {a b c : FunctionMetrics} (hab : SameAggregates a b)
    (hbc : SameAggregates b c) : SameAggregates a c := fun measure =>
  ⟨(hab measure).1.trans (hbc measure).1, (hab measure).2.trans (hbc measure).2⟩

/-- A projection of a suite's metrics to the metrics that report per function. -/
structure Tracked (suite : MetricSuite R) (selected : Finset Metric) (proj : R → FunctionMetrics) :
    Prop where
  withSelected : proj suite.withSelected = .default
  markNonMember : ∀ r, proj (suite.markNonMember r) = proj r
  computeCognitive : ∀ ancestors node p,
    SameAggregates (proj (suite.computeCognitive ancestors node p).1) (proj p.1)
  computeRest : ∀ ancestors node facts r,
    SameAggregates (proj (suite.computeRest ancestors node facts r)) (proj r)
  excludeTestSpan : ∀ startRow endLine r, proj (suite.excludeTestSpan startRow endLine r) = proj r
  settle : ∀ kind lines r, proj (suite.settle kind lines r) = (proj r).computeMinmax selected kind
  derive : ∀ kind halstead r, proj (suite.derive kind halstead r) = proj r
  computeWmc : ∀ kind r, proj (suite.computeWmc kind r) = proj r
  merge : ∀ r s, proj (suite.merge r s) = (proj r).merge (proj s)

/-- A suite of these metrics alone. `adds` is what the languages' `compute` add for a node. -/
def functionSuite (selected : Finset Metric) (adds : Ancestors → Node → Measure → ℕ) :
    MetricSuite FunctionMetrics where
  withSelected := .default
  halsteadDefault := ⟨0, 0, 0, 0⟩
  markNonMember := id
  halsteadCompute _ _ := id
  computeCognitive ancestors node p :=
    (p.1.count fun measure => if measure = .cognitive then adds ancestors node measure else 0, p.2)
  computeRest ancestors node _ r :=
    r.count fun measure => if measure = .cognitive then 0 else adds ancestors node measure
  excludeTestSpan _ _ := id
  settle kind _ := FunctionMetrics.computeMinmax selected kind
  derive _ _ := id
  computeWmc _ := id
  merge := FunctionMetrics.merge

theorem tracked_functionSuite (selected : Finset Metric)
    (adds : Ancestors → Node → Measure → ℕ) :
    Tracked (functionSuite selected adds) selected id where
  withSelected := rfl
  markNonMember _ := rfl
  computeCognitive _ _ _ measure := by cases measure <;> exact ⟨rfl, rfl⟩
  computeRest _ _ _ _ measure := by cases measure <;> exact ⟨rfl, rfl⟩
  excludeTestSpan _ _ _ := rfl
  settle _ _ _ := rfl
  derive _ _ _ := rfl
  computeWmc _ _ := rfl
  merge _ _ := rfl

mutual
/-- The own values in a space tree of the walk. -/
def ownTree (proj : R → FunctionMetrics) : FuncSpace R → SpaceTree
  | ⟨_, _, _, kind, spaces, metrics, _⟩ =>
    .node ⟨kind, fun measure => ((proj metrics.rest).tally measure).own⟩ (ownTrees proj spaces)

def ownTrees (proj : R → FunctionMetrics) : List (FuncSpace R) → List SpaceTree
  | [] => []
  | space :: spaces => ownTree proj space :: ownTrees proj spaces
end

theorem ownTree_eq (proj : R → FunctionMetrics) (space : FuncSpace R) : ownTree proj space =
    .node ⟨space.kind, fun measure => ((proj space.metrics.rest).tally measure).own⟩
      (ownTrees proj space.spaces) := by
  cases space
  rw [ownTree]

mutual
/-- The space and all spaces below it hold the populations of their functions. -/
def Held (selected : Finset Metric) (proj : R → FunctionMetrics) : FuncSpace R → Prop
  | ⟨name, startLine, endLine, kind, spaces, metrics, suppressed⟩ =>
    (∀ measure, ((proj metrics.rest).tally measure).functions.Describes
      (population selected measure
        [ownTree proj ⟨name, startLine, endLine, kind, spaces, metrics, suppressed⟩])) ∧
      HeldAll selected proj spaces

def HeldAll (selected : Finset Metric) (proj : R → FunctionMetrics) : List (FuncSpace R) → Prop
  | [] => True
  | space :: spaces => Held selected proj space ∧ HeldAll selected proj spaces
end

theorem held_iff (selected : Finset Metric) (proj : R → FunctionMetrics) (space : FuncSpace R) :
    Held selected proj space ↔
      (∀ measure, ((proj space.metrics.rest).tally measure).functions.Describes
        (population selected measure [ownTree proj space])) ∧
      HeldAll selected proj space.spaces := by
  cases space
  rw [Held]

section Run
variable {suite : MetricSuite R} {options : MetricsOptions} {proj : R → FunctionMetrics}
  {state : State R}

/-- A frame whose aggregates cover the spaces merged into it. -/
def Open (options : MetricsOptions) (proj : R → FunctionMetrics) (state : State R) : Prop :=
  (∀ measure, ((proj state.space.metrics.rest).tally measure).functions.Describes
    (population options.selected measure (ownTrees proj state.space.spaces))) ∧
    HeldAll options.selected proj state.space.spaces

theorem ownTrees_append (xs ys : List (FuncSpace R)) :
    ownTrees proj (xs ++ ys) = ownTrees proj xs ++ ownTrees proj ys := by
  induction xs with
  | nil => rw [ownTrees, List.nil_append, List.nil_append]
  | cons x xs ih => rw [List.cons_append, ownTrees, ownTrees, ih, List.cons_append]

theorem heldAll_append (selected : Finset Metric) (xs ys : List (FuncSpace R)) :
    HeldAll selected proj (xs ++ ys) ↔ HeldAll selected proj xs ∧ HeldAll selected proj ys := by
  induction xs with
  | nil => rw [List.nil_append, HeldAll, true_and]
  | cons x xs ih => rw [List.cons_append, HeldAll, HeldAll, ih, and_assoc]

theorem population_append (selected : Finset Metric) (measure : Measure)
    (ts us : List SpaceTree) : population selected measure (ts ++ us) =
      population selected measure ts + population selected measure us := by
  unfold population functionValues
  rw [Rose.forestNodes_eq_flatMap, Rose.forestNodes_eq_flatMap, Rose.forestNodes_eq_flatMap,
    List.flatMap_append, List.map_append, List.filter_append, List.map_append,
    ← Multiset.coe_add]
  split_ifs
  · rfl
  · exact (add_zero 0).symm

/-- Frames of equal aggregates over the same spaces. -/
theorem Open.congr {state' : State R} (h : Open options proj state)
    (haggregates : SameAggregates (proj state'.space.metrics.rest)
      (proj state.space.metrics.rest))
    (hspaces : state'.space.spaces = state.space.spaces) : Open options proj state' := by
  obtain ⟨hfunctions, hheld⟩ := h
  refine ⟨fun measure => ?_, hspaces ▸ hheld⟩
  rw [(haggregates measure).2, hspaces]
  exact hfunctions measure

theorem own_computeMinmax (selected : Finset Metric) (kind : SpaceKind)
    (metrics : FunctionMetrics) (measure : Measure) :
    ((metrics.computeMinmax selected kind).tally measure).own = (metrics.tally measure).own := by
  rw [tally_computeMinmax]
  unfold Tally.computeMinmax
  dsimp only
  split_ifs <;> rfl

theorem Open.finalize (h : Open options proj state)
    (tracked : Tracked suite options.selected proj) :
    Held options.selected proj (finalizeState suite options state).space := by
  obtain ⟨hfunctions, hheld⟩ := h
  refine (held_iff _ _ _).mpr ⟨fun measure => ?_, hheld⟩
  rw [ownTree_eq]
  simp only [finalizeState, tracked.derive, tracked.settle]
  exact computeMinmax_describes
    (a := ⟨state.space.kind, fun measure => (((proj state.space.metrics.rest).computeMinmax
      options.selected state.space.kind).tally measure).own⟩)
    (own_computeMinmax _ _ _ measure).symm (hfunctions measure)

theorem Open.absorb (h : Open options proj state) (tracked : Tracked suite options.selected proj)
    {child : State R} (hchild : Held options.selected proj child.space) :
    Open options proj (Spaces.absorb suite state child) := by
  obtain ⟨hfunctions, hheld⟩ := h
  refine ⟨fun measure => ?_, ?_⟩
  · simp only [Spaces.absorb, tracked.merge, tracked.computeWmc, tally_merge]
    rw [ownTrees_append, population_append, ownTrees, ownTrees]
    exact (hfunctions measure).merge (((held_iff _ _ _).mp hchild).1 measure)
  · simp only [Spaces.absorb]
    exact (heldAll_append _ _ _).mpr ⟨hheld, hchild, trivial⟩

theorem open_new (tracked : Tracked suite options.selected proj) {state : State R}
    (hspaces : state.space.spaces = [])
    (hrest : proj state.space.metrics.rest = proj suite.withSelected) :
    Open options proj state := by
  refine ⟨fun measure => ?_, ?_⟩
  · have hnil : population options.selected measure (ownTrees proj state.space.spaces) = 0 := by
      rw [hspaces, ownTrees]
      exact ite_self 0
    rw [hrest, tracked.withSelected, hnil]
    cases measure <;> exact FunctionPopulation.describes_default
  · rw [hspaces]
    trivial

/-! ### Over a timeline -/

theorem open_foldl_raise (ds : List Suppression) (r : SpaceRun R)
    (h : Open options proj r.state) : Open options proj (ds.foldl SpaceRun.raise r).state := by
  induction ds generalizing r with
  | nil => exact h
  | cons d ds ih =>
    refine ih _ ?_
    unfold SpaceRun.raise
    dsimp only
    split_ifs
    · exact h
    · exact h

theorem open_execAll (tracked : Tracked suite options.selected proj) (lang : Language)
    (steps : List SpaceStep) (r : SpaceRun R) (h : Open options proj r.state) :
    Open options proj (Step.execAll (spaceAlgebra lang suite options) steps r).state := by
  refine Step.execAll_invariant (spaceAlgebra lang suite options)
    (I := fun r => Open options proj r.state) (fun v r hr => ?_) (fun node r hr => ?_)
    (fun v r _ => ?_) (fun r child hr hchild => ?_) steps r h
  · have hraised : Open options proj (r.raiseComment lang v.node).state := by
      unfold SpaceRun.raiseComment
      split
      · exact hr
      · exact open_foldl_raise [_] r hr
    refine hraised.congr ?_ rfl
    show SameAggregates (proj (r.visit lang suite options v).state.space.metrics.rest) _
    unfold SpaceRun.visit computePerNode
    dsimp only
    split_ifs
    · exact (tracked.computeRest _ _ _ _).trans (tracked.computeCognitive _ _ _)
    · exact tracked.computeRest _ _ _ _
  · show Open options proj (r.prune suite options node).state
    unfold SpaceRun.prune
    dsimp only
    split_ifs
    · refine hr.congr (fun measure => ?_) rfl
      simp only [State.excludeTestSpan, tracked.excludeTestSpan, and_self]
    · exact hr
  · refine open_new tracked (openedState_space lang suite options v).2 ?_
    simp only [spaceAlgebra, openedState]
    split_ifs
    · exact tracked.markNonMember _
    · rfl
  · exact (open_foldl_raise child.outer r hr).absorb tracked (hchild.finalize tracked)

/-- Every space of the walk's result holds the sum, the count and the extrema of the own
values of the functions in its subtree. -/
theorem metricsInner_held (tracked : Tracked suite options.selected proj) (lang : Language)
    (name : Option String) (root : Node)
    (hunit : lang.getSpaceKindWithCode [] root = .unit →
      lang.promotesToFuncSpaceWithCode [] root = true)
    (hroot : (skipVerdict lang options [] root .retain).1 = false) :
    ∃ fs, metricsInner lang suite options name root = .ok fs ∧
      Held options.selected proj fs := by
  obtain ⟨fs, hrec, hwalk⟩ := metricsInner_eq_recursive lang suite options name root hunit hroot
  refine ⟨fs, hwalk, ?_⟩
  have hrun : ∀ frame steps, frame.space.spaces = [] →
      proj frame.space.metrics.rest = proj suite.withSelected →
      Held options.selected proj { (finalizeState suite options
        (runRoot lang suite options frame steps).state).space with name := name } := by
    intro frame steps hspaces hrest
    exact (open_execAll tracked lang steps _ (open_new tracked hspaces hrest)).finalize tracked
  unfold recursiveSpaces rootRun at hrec
  by_cases hkind : lang.getSpaceKindWithCode [] root = .unit
  · obtain ⟨steps, hsteps, -⟩ := unitRoot_settled lang suite options hkind (hunit hkind) hroot
    simp only [hkind, ne_eq, not_true_eq_false, if_false, hsteps, Option.map_some,
      Option.some.injEq] at hrec
    rw [← hrec]
    refine hrun _ _ (openedState_space lang suite options (unitRoot lang root)).2 ?_
    unfold openedState
    dsimp only
    split_ifs
    · exact tracked.markNonMember _
    · rfl
  · simp only [hkind, ne_eq, not_false_eq_true, if_true, Option.map_some, Option.some.injEq]
      at hrec
    rw [← hrec]
    exact hrun _ _ rfl rfl

end Run

end BigCodeAnalysis.Metrics.FunctionMetrics
