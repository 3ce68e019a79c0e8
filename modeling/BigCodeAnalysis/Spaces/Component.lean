import BigCodeAnalysis.Spaces.Readings

/-! One metric followed through the walk. The passes of the walk act on each metric on its
own, so a projection of a suite's metrics that follows the passes of one metric has in every
space the value those passes leave on the space's timeline, whatever the other metrics do. -/

namespace BigCodeAnalysis.Spaces

open Trees

variable {R S : Type*}

/-- What the passes of the walk do to one metric. -/
structure Passes (S : Type*) where
  opened : S
  markNonMember : S → S
  compute : Ancestors → Node → NodeFacts → S → S
  excludeTestSpan : ℕ → ℕ → S → S
  settle : SpaceKind → ℕ × ℕ → S → S
  derive : SpaceKind → S → S
  computeWmc : SpaceKind → S → S
  merge : S → S → S

/-- A projection of a suite's metrics that follows the passes of one metric. -/
structure Component (suite : MetricSuite R) (passes : Passes S) where
  proj : R → S
  withSelected : proj suite.withSelected = passes.opened
  markNonMember : ∀ r, proj (suite.markNonMember r) = passes.markNonMember (proj r)
  computeCognitive : ∀ ancestors node p,
    proj (suite.computeCognitive ancestors node p).1 = proj p.1
  computeRest : ∀ ancestors node facts r,
    proj (suite.computeRest ancestors node facts r) =
      passes.compute ancestors node facts (proj r)
  excludeTestSpan : ∀ startRow endLine r,
    proj (suite.excludeTestSpan startRow endLine r) =
      passes.excludeTestSpan startRow endLine (proj r)
  settle : ∀ kind lines r, proj (suite.settle kind lines r) = passes.settle kind lines (proj r)
  derive : ∀ kind halstead r, proj (suite.derive kind halstead r) = passes.derive kind (proj r)
  computeWmc : ∀ kind r, proj (suite.computeWmc kind r) = passes.computeWmc kind (proj r)
  merge : ∀ r s, proj (suite.merge r s) = passes.merge (proj r) (proj s)

/-- The metric of an open space with the label data its passes read. -/
structure Cell (S : Type*) where
  kind : SpaceKind
  lines : ℕ × ℕ
  value : S

namespace FuncSpace

mutual
/-- The values of a projection over a finished space tree. -/
def values (proj : R → S) : FuncSpace R → Rose S
  | ⟨_, _, _, _, spaces, metrics, _⟩ => .node (proj metrics.rest) (valuesAll proj spaces)

def valuesAll (proj : R → S) : List (FuncSpace R) → List (Rose S)
  | [] => []
  | space :: spaces => values proj space :: valuesAll proj spaces
end

mutual
/-- The values are the readings of the projection. -/
theorem values_eq_readings (proj : R → S) : ∀ space : FuncSpace R,
    space.values proj = space.readings fun metrics => proj metrics.rest
  | ⟨_, _, _, _, spaces, metrics, _⟩ => by
    rw [values, readings, valuesAll_eq_readingsAll proj spaces]

theorem valuesAll_eq_readingsAll (proj : R → S) : ∀ spaces : List (FuncSpace R),
    valuesAll proj spaces = readingsAll (fun metrics => proj metrics.rest) spaces
  | [] => by rw [valuesAll, readingsAll]
  | space :: spaces => by
    rw [valuesAll, readingsAll, values_eq_readings proj space,
      valuesAll_eq_readingsAll proj spaces]
end

end FuncSpace

namespace Passes
variable (passes : Passes S) (lang : Language) (options : MetricsOptions)

/-- The passes a finished space goes through. -/
def finish (cell : Cell S) : S :=
  passes.derive cell.kind (passes.settle cell.kind cell.lines cell.value)

/-- The cell of the space a node opens. -/
def openCell (v : Visited) : Cell S where
  kind := lang.getSpaceKindWithCode v.ancestors v.node
  lines := lineSpan v.node (lang.getSpaceKindWithCode v.ancestors v.node)
  value :=
    if .wmc ∈ options.selected ∧ lang.isNonMemberFunction v.ancestors v.node then
      passes.markNonMember passes.opened
    else passes.opened

/-- The cell of the unit a root of another kind is wrapped in. -/
def unitCell (root : Node) : Cell S := ⟨.unit, lineSpan root .unit, passes.opened⟩

def algebra : ScopeAlgebra Visited Node Visited (Cell S) where
  visit v cell :=
    { cell with value := passes.compute v.ancestors v.node v.facts cell.value }
  prune node cell :=
    if .loc ∈ options.selected then
      { cell with value := passes.excludeTestSpan node.startRow node.endLine cell.value }
    else cell
  enter v _ := passes.openCell lang options v
  leave cell child :=
    { cell with value :=
        passes.merge (passes.computeWmc cell.kind cell.value) (passes.finish child) }

/-- The metric of a finished space. -/
def finalValue (v : Visited) (steps : List SpaceStep) : S :=
  passes.finish
    (Step.execAll (passes.algebra lang options) steps (passes.openCell lang options v))

/-- The cell and the timeline of the file-level space. -/
def rootScope (root : Node) : Option (Cell S × List SpaceStep) :=
  if lang.getSpaceKindWithCode [] root ≠ .unit then
    some (passes.unitCell root, (markRoot lang options root).steps)
  else
    match (markRoot lang options root).steps with
    | [.child v steps] => some (passes.openCell lang options v, steps)
    | _ => none

end Passes

namespace Component
variable {suite : MetricSuite R} {passes : Passes S} (component : Component suite passes)
  (lang : Language) (options : MetricsOptions)

/-- The metric in the frame a space runs on. -/
def cellOf (r : SpaceRun R) : Cell S :=
  ⟨r.state.space.kind, (r.state.space.startLine, r.state.space.endLine),
    component.proj r.state.space.metrics.rest⟩

theorem cellOf_raise (r : SpaceRun R) (d : Suppression) :
    component.cellOf (r.raise d) = component.cellOf r := by
  simp only [SpaceRun.raise]
  split_ifs <;> rfl

theorem cellOf_foldl_raise (ds : List Suppression) (r : SpaceRun R) :
    component.cellOf (ds.foldl SpaceRun.raise r) = component.cellOf r := by
  induction ds generalizing r with
  | nil => rfl
  | cons d ds ih => exact (ih (r.raise d)).trans (component.cellOf_raise r d)

theorem cellOf_visit (v : Visited) (r : SpaceRun R) :
    component.cellOf (r.visit lang suite options v) =
      (passes.algebra lang options).visit v (component.cellOf r) := by
  have hraise : component.cellOf (r.raiseComment lang v.node) = component.cellOf r := by
    unfold SpaceRun.raiseComment
    split
    · rfl
    · exact component.cellOf_raise r _
  rw [← hraise]
  unfold SpaceRun.visit computePerNode cellOf
  dsimp only
  split_ifs <;> simp only [component.computeRest, component.computeCognitive, Passes.algebra]

theorem cellOf_prune (node : Node) (r : SpaceRun R) :
    component.cellOf (r.prune suite options node) =
      (passes.algebra lang options).prune node (component.cellOf r) := by
  unfold SpaceRun.prune cellOf Passes.algebra
  dsimp only
  split_ifs
  · simp only [State.excludeTestSpan, component.excludeTestSpan]
  · rfl

theorem cellOf_enter (v : Visited) (r : SpaceRun R) :
    component.cellOf ((spaceAlgebra lang suite options).enter v r) =
      passes.openCell lang options v := by
  unfold cellOf Passes.openCell
  simp only [spaceAlgebra, openedState]
  split_ifs
  · simp only [State.markNonMember, State.new, FuncSpace.new, component.markNonMember,
      component.withSelected]
  · simp only [State.new, FuncSpace.new, component.withSelected]

theorem finalize_proj (r : SpaceRun R) :
    component.proj (finalizeState suite options r.state).space.metrics.rest =
      passes.finish (component.cellOf r) := by
  simp only [finalizeState, Passes.finish, cellOf, component.derive, component.settle]

theorem cellOf_leave (r child : SpaceRun R) :
    component.cellOf (r.leave suite options child) =
      (passes.algebra lang options).leave (component.cellOf r) (component.cellOf child) := by
  have hraise := component.cellOf_foldl_raise child.outer r
  have hfinal := component.finalize_proj options child
  simp only [Passes.algebra, ← hraise, ← hfinal]
  simp only [SpaceRun.leave, absorb, cellOf, component.merge, component.computeWmc]

/-- The walk computes in the frame of a space what the passes of the metric do. -/
theorem cellOf_execAll (steps : List SpaceStep) (r : SpaceRun R) :
    component.cellOf (Step.execAll (spaceAlgebra lang suite options) steps r) =
      Step.execAll (passes.algebra lang options) steps (component.cellOf r) :=
  Step.execAll_map (spaceAlgebra lang suite options) (passes.algebra lang options)
    component.cellOf (component.cellOf_visit lang options) (component.cellOf_prune lang options)
    (component.cellOf_enter lang options) (component.cellOf_leave lang options) steps r

/-- The metric of a finished space is fixed by its timeline. -/
theorem readsAs : ReadsAs lang suite options (fun metrics => component.proj metrics.rest)
    (passes.finalValue lang options) := by
  intro v steps r
  dsimp only
  rw [finalize_proj, cellOf_execAll, cellOf_enter]
  rfl

theorem runRoot_values (frame : State R) (hspaces : frame.space.spaces = [])
    (name : Option String) (steps : List SpaceStep) :
    FuncSpace.values component.proj { (finalizeState suite options
        (runRoot lang suite options frame steps).state).space with name := name } =
      .node (passes.finish (Step.execAll (passes.algebra lang options) steps
          (component.cellOf ⟨frame, true, fun _ => none, []⟩)))
        (Step.resultsAll (passes.finalValue lang options) steps) := by
  have hvalue := component.finalize_proj options (runRoot lang suite options frame steps)
  rw [runRoot, cellOf_execAll] at hvalue
  rw [FuncSpace.values_eq_readings, (component.readsAs lang options).runRoot frame hspaces name,
    ← hvalue]
  rfl

/-- The values in the walk's result are those of the metric's passes on the timelines. -/
theorem metricsInner_values (name : Option String) (root : Node)
    (hunit : lang.getSpaceKindWithCode [] root = .unit →
      lang.promotesToFuncSpaceWithCode [] root = true)
    (hroot : (skipVerdict lang options [] root .retain).1 = false) :
    ∃ fs cell steps, metricsInner lang suite options name root = .ok fs ∧
      passes.rootScope lang options root = some (cell, steps) ∧
      fs.values component.proj = .node
        (passes.finish (Step.execAll (passes.algebra lang options) steps cell))
        (Step.resultsAll (passes.finalValue lang options) steps) := by
  obtain ⟨fs, hrec, hwalk⟩ := metricsInner_eq_recursive lang suite options name root hunit hroot
  unfold recursiveSpaces rootRun at hrec
  unfold Passes.rootScope
  by_cases hkind : lang.getSpaceKindWithCode [] root = .unit
  · obtain ⟨steps, hsteps, -⟩ := unitRoot_settled lang suite options hkind (hunit hkind) hroot
    simp only [hkind, ne_eq, not_true_eq_false, if_false, hsteps, Option.map_some,
      Option.some.injEq] at hrec ⊢
    refine ⟨fs, _, steps, hwalk, rfl, ?_⟩
    rw [← hrec, component.runRoot_values lang options _
      (openedState_space lang suite options (unitRoot lang root)).2]
    have hcell := component.cellOf_enter lang options (unitRoot lang root)
      ⟨State.new lang suite [] root .unit, true, fun _ => none, []⟩
    rw [← hcell]
    rfl
  · simp only [hkind, ne_eq, not_false_eq_true, if_true, Option.map_some, Option.some.injEq]
      at hrec ⊢
    refine ⟨fs, _, _, hwalk, rfl, ?_⟩
    rw [← hrec, component.runRoot_values lang options _ rfl]
    have hcell : component.cellOf ⟨State.new lang suite [] root .unit, true, fun _ => none, []⟩ =
        passes.unitCell root := by
      simp only [cellOf, Passes.unitCell, State.new, FuncSpace.new, component.withSelected]
    rw [hcell]

end Component

end BigCodeAnalysis.Spaces
