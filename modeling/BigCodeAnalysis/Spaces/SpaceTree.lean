import BigCodeAnalysis.Spaces.WalkCorrect

/-! The shape of the result: the space tree of a file is the tree of its openers. The nodes of
each scope are a timeline of steps on the space that the scope opens; a step of the file's own
nodes leaves the child spaces alone and a child scope adds one tree. By induction on the scopes
the walk returns the recursion over the marked tree, whose shape is that of the openers. -/

namespace BigCodeAnalysis.Spaces

open Trees

variable {R : Type*}

section Labels
variable (lang : Language) (suite : MetricSuite R) (options : MetricsOptions)

/-- Two frames of the same space with the same child spaces. -/
def SameShape (s t : State R) : Prop :=
  s.space.label = t.space.label ∧ s.space.spaces = t.space.spaces

theorem raise_shape (r : SpaceRun R) (d : Suppression) : SameShape (r.raise d).state r.state := by
  simp only [SpaceRun.raise]; split_ifs <;> exact ⟨rfl, rfl⟩

theorem foldl_raise_shape (ds : List Suppression) (r : SpaceRun R) :
    SameShape (ds.foldl SpaceRun.raise r).state r.state := by
  induction ds generalizing r with
  | nil => exact ⟨rfl, rfl⟩
  | cons d ds ih =>
    obtain ⟨hlabel, hspaces⟩ := raise_shape r d
    exact ⟨(ih _).1.trans hlabel, (ih _).2.trans hspaces⟩

theorem visit_shape (v : Visited) (r : SpaceRun R) :
    SameShape (r.visit lang suite options v).state r.state := by
  have hraise : SameShape (r.raiseComment lang v.node).state r.state := by
    unfold SpaceRun.raiseComment
    split
    · exact ⟨rfl, rfl⟩
    · exact raise_shape r _
  exact hraise

theorem prune_shape (node : Node) (r : SpaceRun R) :
    SameShape (r.prune suite options node).state r.state := by
  simp only [SpaceRun.prune]; split_ifs <;> exact ⟨rfl, rfl⟩

theorem leave_trees (r child : SpaceRun R) :
    (r.leave suite options child).state.space.label = r.state.space.label ∧
      FuncSpace.trees (r.leave suite options child).state.space.spaces =
        FuncSpace.trees r.state.space.spaces ++ [child.state.space.tree] := by
  obtain ⟨hlabel, hspaces⟩ := foldl_raise_shape child.outer r
  refine ⟨hlabel, ?_⟩
  have hfinal : (finalizeState suite options child.state).space.tree = child.state.space.tree := by
    rw [FuncSpace.tree_eq, FuncSpace.tree_eq]; rfl
  simp only [SpaceRun.leave, absorb, FuncSpace.trees_append, hspaces, FuncSpace.trees, hfinal]

/-- A timeline adds the trees of its child scopes to the space it runs on. -/
theorem execAll_trees (steps : List SpaceStep) (r : SpaceRun R) :
    (Step.execAll (spaceAlgebra lang suite options) steps r).state.space.label =
        r.state.space.label ∧
      FuncSpace.trees (Step.execAll (spaceAlgebra lang suite options) steps r).state.space.spaces =
        FuncSpace.trees r.state.space.spaces ++
          Rose.mapForest (openedLabel lang) (Step.scopesAll steps) := by
  induction steps using Step.steps_induction generalizing r with
  | nil => simp [Rose.mapForest]
  | visit v rest ih =>
    obtain ⟨hlabel, hspaces⟩ := visit_shape lang suite options v r
    rw [Step.execAll_visit]
    refine ⟨(ih _).1.trans hlabel, (ih _).2.trans ?_⟩
    simp only [Step.scopesAll_cons, Step.scopes, List.nil_append]
    exact congrArg (FuncSpace.trees · ++ _) hspaces
  | prune node rest ih =>
    obtain ⟨hlabel, hspaces⟩ := prune_shape suite options node r
    rw [Step.execAll_prune]
    refine ⟨(ih _).1.trans hlabel, (ih _).2.trans ?_⟩
    simp only [Step.scopesAll_cons, Step.scopes, List.nil_append]
    exact congrArg (FuncSpace.trees · ++ _) hspaces
  | child v steps rest ihs ihr =>
    set inner := Step.execAll (spaceAlgebra lang suite options) steps
      ((spaceAlgebra lang suite options).enter v r) with hinner
    obtain ⟨hlabel, htrees⟩ := leave_trees suite options r inner
    have hopened := openedState_space lang suite options v
    have hchild : inner.state.space.tree =
        .node (openedLabel lang v) (Rose.mapForest (openedLabel lang) (Step.scopesAll steps)) := by
      rw [FuncSpace.tree_eq, hinner, (ihs _).1, (ihs _).2]
      simp only [spaceAlgebra, hopened.1, hopened.2, FuncSpace.trees, List.nil_append]
    rw [Step.execAll_child]
    refine ⟨(ihr _).1.trans hlabel, (ihr _).2.trans ?_⟩
    rw [show (spaceAlgebra lang suite options).leave r _ = r.leave suite options inner from rfl,
      htrees, hchild, Step.scopesAll_cons, Step.scopes, Rose.mapForest_append]
    simp [Rose.mapForest, Rose.map]

theorem runRoot_tree (frame : State R) (hspaces : frame.space.spaces = []) (name : Option String)
    (steps : List SpaceStep) :
    FuncSpace.tree { (finalizeState suite options
        (runRoot lang suite options frame steps).state).space with name := name } =
      .node { frame.space.label with name := name }
        (Rose.mapForest (openedLabel lang) (Step.scopesAll steps)) := by
  obtain ⟨hlabel, htrees⟩ := execAll_trees lang suite options steps
    ⟨frame, true, fun _ => none, []⟩
  simp only [hspaces, FuncSpace.trees, List.nil_append] at htrees
  rw [FuncSpace.tree_eq]
  congr 1
  exact congrArg (fun label : SpaceLabel => { label with name := name }) hlabel

end Labels

section Spec
variable (lang : Language) (options : MetricsOptions)

/-- The metrics walk of a tree meets its specification. It returns the recursive space
tree, which runs the timelines of the marks. Its shape is the tree of openers, and the
timelines handle every node once, in pre-order, in the scope of its innermost opener. -/
def WalkMeetsSpec (suite : MetricSuite R) (name : Option String) (root : Node) : Prop :=
  ∃ fs tree, metricsInner lang suite options name root = .ok fs ∧
    recursiveSpaces lang suite options name root = some fs ∧
    openerTree lang options name root = some tree ∧ fs.tree = tree ∧
    Step.eventsAll none (markRoot lang options root).steps =
      (markRoot lang options root).attributed none

/-- For every tree, every choice of the space-opening nodes and every choice of pruned
subtrees, the walk meets its specification, when a root of kind `Unit` opens a space and
the root is not pruned. -/
theorem metricsInner_spec (suite : MetricSuite R) (name : Option String) (root : Node)
    (hunit : lang.getSpaceKindWithCode [] root = .unit →
      lang.promotesToFuncSpaceWithCode [] root = true)
    (hroot : (skipVerdict lang options [] root .retain).1 = false) :
    WalkMeetsSpec lang options suite name root := by
  obtain ⟨fs, hrec, hwalk⟩ := metricsInner_eq_recursive lang suite options name root hunit hroot
  have hevents := Marked.events_steps.1 (markRoot lang options root) none
  suffices h : openerTree lang options name root = some fs.tree from
    ⟨fs, fs.tree, hwalk, hrec, h, rfl, hevents⟩
  have hscopes := Marked.scopes_steps.1 (markRoot lang options root)
  unfold recursiveSpaces rootRun at hrec
  unfold openerTree
  by_cases hkind : lang.getSpaceKindWithCode [] root = .unit
  · obtain ⟨steps, hsteps, -⟩ := unitRoot_settled lang suite options hkind (hunit hkind) hroot
    have hopened := openedState_space lang suite options (unitRoot lang root)
    simp only [hkind, ne_eq, not_true_eq_false, if_false, hsteps, Option.map_some,
      Option.some.injEq] at hrec
    rw [hsteps, Step.scopesAll_cons, Step.scopesAll_nil, Step.scopes, List.append_nil] at hscopes
    rw [← hrec, runRoot_tree lang suite options _ hopened.2, hopened.1, ← hscopes]
    simp [hkind, Rose.mapForest, Rose.map]
  · simp only [hkind, ne_eq, not_false_eq_true, if_true, Option.map_some, Option.some.injEq] at hrec
    rw [← hrec, runRoot_tree lang suite options _ rfl, hscopes]
    simp [hkind, State.new, FuncSpace.new, FuncSpace.label]

/-- A language that reads everything off the grammar symbol of a node: 0 is the file, 1 a
named function, 2 an anonymous one, 3 a comment with a function directive, 4 a test. -/
def symbolLanguage : Language where
  isComment node := node.label.kindId = 3
  isFuncWithCode _ node := node.label.kindId = 1
  promotesToFuncSpaceWithCode _ node := node.label.kindId < 3
  isNonMemberFunction _ _ := false
  shouldSkipSubtree _ node := if node.label.kindId = 4 then .skip else .retain
  getSpaceKindWithCode _ node :=
    if node.label.kindId = 0 then .unit
    else if node.label.kindId < 3 then .function else .unknown
  getFuncName _ node := if node.label.kindId = 1 then some "f" else none
  getFuncSpaceName _ node := if node.label.kindId = 1 then some "f" else some "<anonymous>"
  utf8Text _ := some ""
  parseMarker _ := some ⟨.function, .all, .native⟩

/-- A suite that measures nothing but Halstead counts of bare symbols. -/
def symbolSuite : MetricSuite Unit where
  withSelected := ()
  halsteadDefault := ⟨0, 0, 0, 0⟩
  markNonMember := id
  halsteadCompute _ node maps :=
    { maps with operators := maps.operators.bump (.ofNat node.label.kindId) 1 }
  computeCognitive _ _ := id
  computeRest _ _ _ := id
  excludeTestSpan _ _ := id
  settle _ _ := id
  derive _ _ := id
  computeWmc _ := id
  merge _ := id

/-- A node of one row. -/
def rowNode (kindId row : ℕ) (children : List Node) : Node :=
  .node ⟨row, kindId, row, row, row, 1⟩ children

/-- A file with a function that holds a pruned test and a second function. -/
def twoFunctions : Node := rowNode 0 0 [rowNode 1 1 [rowNode 4 2 []], rowNode 1 3 []]

theorem metricsInner_spec_twoFunctions :
    WalkMeetsSpec symbolLanguage ⟨{.loc, .halstead}, true⟩ symbolSuite (some "a.rs")
      twoFunctions :=
  metricsInner_spec symbolLanguage ⟨{.loc, .halstead}, true⟩ symbolSuite (some "a.rs")
    twoFunctions (by decide) (by decide)

/-- The symbols of `symbolLanguage` with a file node that opens no space. -/
def closedUnitLanguage : Language :=
  { symbolLanguage with promotesToFuncSpaceWithCode := fun _ node => node.label.kindId = 1 }

/-- A root of kind `Unit` that opens no space: the first function becomes the file-level
space, and the second, which stands beside it in the source, a space inside it. -/
theorem metricsInner_unopened_unit :
    ((metricsInner closedUnitLanguage symbolSuite ⟨∅, true⟩ none twoFunctions).toOption.map
        (fun fs => (fs.startLine, fs.spaces.map (·.startLine))) = some (2, [4]) ∧
      (markRoot closedUnitLanguage ⟨∅, true⟩ twoFunctions).openers.length = 2) ∧
    ¬ ∀ (lang : Language) (options : MetricsOptions) (suite : MetricSuite Unit)
      (name : Option String) (root : Node),
      (skipVerdict lang options [] root .retain).1 = false →
        WalkMeetsSpec lang options suite name root := by
  refine ⟨⟨by decide +kernel, by decide +kernel⟩, fun h => ?_⟩
  obtain ⟨fs, tree, -, -, htree, -⟩ := h closedUnitLanguage ⟨∅, true⟩ symbolSuite none
    twoFunctions (by decide)
  have hnone : (openerTree closedUnitLanguage ⟨∅, true⟩ none twoFunctions).isSome = false := by
    decide +kernel
  rw [htree] at hnone
  cases hnone

end Spec

end BigCodeAnalysis.Spaces
