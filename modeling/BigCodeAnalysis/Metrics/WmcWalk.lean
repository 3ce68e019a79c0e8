import BigCodeAnalysis.Metrics.WmcTree
import BigCodeAnalysis.Spaces.Component

/-! Weighted methods in the walk. The passes of the walk run the merges of the space tree,
so every space of the walk's result has the counts of its finished tree. -/

namespace BigCodeAnalysis.Metrics.Wmc

open Trees Spaces

variable (decisions : Ancestors → Node → ℕ)

/-- What the passes do to the two metrics. `decisions` is what the language's cyclomatic
`compute` adds for a node. -/
def wmcPasses : Passes (Cyclomatic × Stats) where
  opened := (.default, .default)
  markNonMember s := (s.1, s.2.markNonMember)
  compute ancestors node _ s :=
    ({ s.1 with cyclomatic := s.1.cyclomatic + decisions ancestors node }, s.2)
  excludeTestSpan _ _ s := s
  settle _ _ s := (s.1.computeSum, s.2.computeSum)
  derive kind s := (s.1, s.2.classInterfaceCompute kind s.1)
  computeWmc kind s := (s.1, s.2.classInterfaceCompute kind s.1)
  merge s child := (s.1.merge child.1, s.2.merge child.2)

/-- How the walk's nodes and spaces are read. -/
def walkReading (lang : Language) (options : MetricsOptions) : Reading Visited Visited where
  decisions v := decisions v.ancestors v.node
  kind v := lang.getSpaceKindWithCode v.ancestors v.node
  nonMember v := .wmc ∈ options.selected ∧ lang.isNonMemberFunction v.ancestors v.node

/-- The frame a cell stands for. -/
def frameOf (cell : Cell (Cyclomatic × Stats)) : Frame := ⟨cell.kind, cell.value.1, cell.value.2⟩

section Walk
variable (lang : Language) (options : MetricsOptions)

theorem frameOf_openCell (v : Visited) :
    frameOf ((wmcPasses decisions).openCell lang options v) =
      openFrame (walkReading decisions lang options) v := by
  unfold frameOf Passes.openCell openFrame walkReading Frame.opened
  by_cases h : .wmc ∈ options.selected ∧ lang.isNonMemberFunction v.ancestors v.node
  · simp only [h, and_self, if_true, decide_true]
    rfl
  · simp only [h, if_false, decide_false, Bool.false_eq_true]
    rfl

/-- The passes over a timeline run the merges of the frames. -/
theorem frameOf_execAll (steps : List SpaceStep) (cell : Cell (Cyclomatic × Stats)) :
    frameOf (Step.execAll ((wmcPasses decisions).algebra lang options) steps cell) =
      Step.execAll (wmcAlgebra (walkReading decisions lang options)) steps (frameOf cell) := by
  apply Step.execAll_map
  · intro v cell
    rfl
  · intro node cell
    unfold Passes.algebra
    dsimp only
    split_ifs <;> rfl
  · intro v cell
    exact frameOf_openCell decisions lang options v
  · intro cell child
    rfl

theorem frameOf_finish (cell : Cell (Cyclomatic × Stats)) :
    (wmcPasses decisions).finish cell =
      ((frameOf cell).finalize.cyclomatic, (frameOf cell).finalize.wmc) := rfl

/-- The two metrics of a finished tree. -/
def finishedStats (t : SpaceTree) : Cyclomatic × Stats :=
  ((finished t).cyclomatic, (finished t).wmc)

theorem finalValue_eq (v : Visited) (steps : List SpaceStep) :
    (wmcPasses decisions).finalValue lang options v steps =
      finishedStats (spaceTree (walkReading decisions lang options) v steps) := by
  rw [finishedStats, ← finalFrame_eq_finished, Passes.finalValue, frameOf_finish,
    frameOf_execAll, frameOf_openCell]
  rfl

mutual
/-- A space tree with the metrics of the finished tree at every space. -/
def finishedTree : SpaceTree → Rose (Cyclomatic × Stats)
  | .node a cs => .node (finishedStats (.node a cs)) (finishedForest cs)

def finishedForest : List SpaceTree → List (Rose (Cyclomatic × Stats))
  | [] => []
  | t :: ts => finishedTree t :: finishedForest ts
end

theorem finishedForest_append (ts us : List SpaceTree) :
    finishedForest (ts ++ us) = finishedForest ts ++ finishedForest us := by
  induction ts with
  | nil => rw [finishedForest, List.nil_append, List.nil_append]
  | cons t ts ih => rw [List.cons_append, finishedForest, finishedForest, ih, List.cons_append]

theorem resultsAll_eq (steps : List SpaceStep) :
    Step.resultsAll ((wmcPasses decisions).finalValue lang options) steps =
      finishedForest (spacesOfAll (walkReading decisions lang options) steps) := by
  induction steps using Step.steps_induction with
  | nil => rw [spacesOfAll, finishedForest, Step.resultsAll]
  | visit v rest ih =>
    rw [Step.resultsAll_visit, ih, spacesOfAll, spacesOf, List.nil_append]
  | prune node rest ih =>
    rw [Step.resultsAll_prune, ih, spacesOfAll, spacesOf, List.nil_append]
  | child v steps rest ihs ihr =>
    rw [Step.resultsAll_child, ihr, ihs, finalValue_eq, spacesOfAll, spacesOf,
      finishedForest_append, finishedForest, finishedForest, finishedTree, spaceTree]
    rfl

/-- The space tree of the walk: the file-level space is either opened by the root or the
unit it is wrapped in. -/
def walkTree (root : Node) : Option SpaceTree :=
  let reading := walkReading decisions lang options
  let steps := (markRoot lang options root).steps
  if lang.getSpaceKindWithCode [] root ≠ .unit then
    some (.node ⟨.unit, false, decisionsOf reading steps⟩ (spacesOfAll reading steps))
  else
    match steps with
    | [.child v inner] => some (spaceTree reading v inner)
    | _ => none

variable {decisions lang options} in
theorem walkTree_of_child {root : Node} {v : Visited} {inner : List SpaceStep}
    (hkind : ¬ lang.getSpaceKindWithCode [] root ≠ .unit)
    (hsteps : (markRoot lang options root).steps = [.child v inner]) :
    walkTree decisions lang options root =
      some (spaceTree (walkReading decisions lang options) v inner) := by
  simp only [walkTree, if_neg hkind, hsteps]

/-- Every space of the walk's result has the counts of its finished tree. -/
theorem metricsInner_wmc {R : Type*} {suite : MetricSuite R}
    (component : Component suite (wmcPasses decisions)) (name : Option String) (root : Node)
    (hunit : lang.getSpaceKindWithCode [] root = .unit →
      lang.promotesToFuncSpaceWithCode [] root = true)
    (hroot : (skipVerdict lang options [] root .retain).1 = false) :
    ∃ fs t, metricsInner lang suite options name root = .ok fs ∧
      walkTree decisions lang options root = some t ∧
      fs.values component.proj = finishedTree t := by
  obtain ⟨fs, cell, steps, hwalk, hscope, hvalues⟩ :=
    component.metricsInner_values lang options name root hunit hroot
  have hstats : (wmcPasses decisions).finish
      (Step.execAll ((wmcPasses decisions).algebra lang options) steps cell) =
        ((Step.execAll (wmcAlgebra (walkReading decisions lang options)) steps
            (frameOf cell)).finalize.cyclomatic,
          (Step.execAll (wmcAlgebra (walkReading decisions lang options)) steps
            (frameOf cell)).finalize.wmc) := by
    rw [frameOf_finish, frameOf_execAll]
  rw [hstats, resultsAll_eq, execAll_eq_absorbForest] at hvalues
  refine ⟨fs, ?_⟩
  unfold Passes.rootScope at hscope
  split_ifs at hscope with hkind
  · simp only [Option.some.injEq, Prod.mk.injEq] at hscope
    obtain ⟨rfl, rfl⟩ := hscope
    refine ⟨_, hwalk, if_pos hkind, hvalues.trans ?_⟩
    rw [finishedTree, finishedStats, finished]
    rfl
  · split at hscope
    case h_1 v inner hsteps =>
      simp only [Option.some.injEq, Prod.mk.injEq] at hscope
      obtain ⟨rfl, rfl⟩ := hscope
      refine ⟨_, hwalk, walkTree_of_child hkind hsteps, hvalues.trans ?_⟩
      rw [spaceTree, finishedTree, finishedStats, finished, frameOf_openCell]
      rfl
    case h_2 => cases hscope

end Walk

end BigCodeAnalysis.Metrics.Wmc
