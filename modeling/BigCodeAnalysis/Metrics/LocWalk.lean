import BigCodeAnalysis.Metrics.LocSettle
import BigCodeAnalysis.Spaces.Component

/-! Lines of code in the walk. The span of a space is written when its own node is visited,
and overwritten for a unit when it is finalised; the counters of the timelines have it from
the start. Both finish every space of a marked tree with the same counters. -/

namespace BigCodeAnalysis.Metrics.Loc

open Trees Spaces

section Passes
variable (rows : Ancestors → Node → List Observation)

/-- What the passes do to lines of code. `rows` is what the language's `compute` records of
a node, once `init` has written the span of a node that opens a space. -/
def locPasses : Passes Stats where
  opened := .default
  markNonMember s := s
  compute ancestors node facts s :=
    (if facts.funcSpace then s.withSpan node.startRow node.endLine else s).observeAll
      (rows ancestors node)
  excludeTestSpan startRow endLine s := s.excludeSpan startRow endLine
  settle kind lines s :=
    (if kind = .unit then s.withSpan (lines.1 - 1) lines.2 else s).finalize
  derive _ s := s
  computeWmc _ s := s
  merge := Stats.merge

/-- How the walk's nodes are read. A node that opens no space stands for the unit a root of
another kind is wrapped in. -/
def walkReading (lang : Language) : Reading Visited Node Visited where
  rows v := rows v.ancestors v.node
  pruned node := (node.startRow, node.endLine)
  span v :=
    if v.facts.funcSpace ∧ lang.getSpaceKindWithCode v.ancestors v.node ≠ .unit then
      (v.node.startRow, v.node.endLine)
    else ((lineSpan v.node .unit).1 - 1, (lineSpan v.node .unit).2)

end Passes

namespace Stats

/-- The span is neither read nor written by an observation. -/
theorem observe_withSpan (s : Stats) (o : Observation) (start endLine : ℕ) :
    (s.withSpan start endLine).observe o = (s.observe o).withSpan start endLine := by
  cases o with
  | comment first last _ documentation =>
    have h : (s.withSpan start endLine).addClocLines first last =
        (s.addClocLines first last).withSpan start endLine := by
      unfold addClocLines
      dsimp only
      by_cases h₁ : first ∈ s.ploc.lines ∧ last - first = 0
      · have h₁' : first ∈ (s.withSpan start endLine).ploc.lines ∧ last - first = 0 := h₁
        rw [if_pos h₁, if_pos h₁']
        rfl
      · have h₁' : ¬ (first ∈ (s.withSpan start endLine).ploc.lines ∧ last - first = 0) := h₁
        rw [if_neg h₁, if_neg h₁']
        by_cases h₂ : first ∈ s.ploc.lines ∧ last - first > 0
        · have h₂' : first ∈ (s.withSpan start endLine).ploc.lines ∧ last - first > 0 := h₂
          rw [if_pos h₂, if_pos h₂']
          rfl
        · have h₂' : ¬ (first ∈ (s.withSpan start endLine).ploc.lines ∧ last - first > 0) := h₂
          rw [if_neg h₂, if_neg h₂']
          rfl
    cases documentation with
    | false => exact h
    | true =>
      show ((s.withSpan start endLine).addClocLines first last).addDocumentationRows first last = _
      rw [h]
      rfl
  | code row =>
    show ((s.withSpan start endLine).addCodeLine row) = (s.addCodeLine row).withSpan start endLine
    unfold addCodeLine checkCommentEndsOnCodeLine
    by_cases h : s.cloc.commentLineEnd = some row ∧ row ∉ s.ploc.lines
    · have h' : (s.withSpan start endLine).cloc.commentLineEnd = some row ∧
          row ∉ (s.withSpan start endLine).ploc.lines := h
      rw [if_pos h, if_pos h']
      rfl
    · have h' : ¬ ((s.withSpan start endLine).cloc.commentLineEnd = some row ∧
          row ∉ (s.withSpan start endLine).ploc.lines) := h
      rw [if_neg h, if_neg h']
      rfl
  | bareComment row =>
    show (s.withSpan start endLine).addBareComment row =
      (s.addBareComment row).withSpan start endLine
    unfold addBareComment
    by_cases h : row ∈ s.ploc.lines
    · have h' : row ∈ (s.withSpan start endLine).ploc.lines := h
      rw [if_pos h, if_pos h']
      rfl
    · have h' : row ∉ (s.withSpan start endLine).ploc.lines := h
      rw [if_neg h, if_neg h']
      rfl
  | codeRows first last => rfl
  | documentation first last => rfl
  | logicalLine => rfl

theorem observeAll_withSpan (s : Stats) (rows : List Observation) (start endLine : ℕ) :
    (s.withSpan start endLine).observeAll rows = (s.observeAll rows).withSpan start endLine := by
  induction rows generalizing s with
  | nil => rfl
  | cons o rows ih =>
    show ((s.withSpan start endLine).observe o).observeAll rows = _
    rw [observe_withSpan, ih]
    rfl

theorem excludeSpan_withSpan (s : Stats) (first last start endLine : ℕ) :
    (s.withSpan start endLine).excludeSpan first last =
      (s.excludeSpan first last).withSpan start endLine := by
  unfold excludeSpan
  split_ifs <;> rfl

end Stats

/-- The counters in the walk are those of the timeline up to the span, and the span they
will be finalised with is the timeline's. -/
structure Tracks (cell : Cell Stats) (s : Stats) : Prop where
  value : cell.value.withSpan s.sloc.start s.sloc.endLine = s
  anchored : if cell.kind = .unit
    then cell.lines.1 - 1 = s.sloc.start ∧ cell.lines.2 = s.sloc.endLine
    else cell.value.sloc.start = s.sloc.start ∧ cell.value.sloc.endLine = s.sloc.endLine

section Walk
variable (rows : Ancestors → Node → List Observation) (lang : Language) (options : MetricsOptions)

theorem Tracks.finish {cell : Cell Stats} {s : Stats} (h : Tracks cell s) :
    (locPasses rows).finish cell = s.finalize := by
  obtain ⟨hvalue, hanchored⟩ := h
  show (if cell.kind = .unit then cell.value.withSpan (cell.lines.1 - 1) cell.lines.2
    else cell.value).finalize = s.finalize
  split_ifs at hanchored ⊢ with hkind
  · rw [hanchored.1, hanchored.2, hvalue]
  · have hspan : cell.value.withSpan s.sloc.start s.sloc.endLine = cell.value := by
      rw [← hanchored.1, ← hanchored.2]
      rfl
    rw [← hspan, hvalue]

theorem Tracks.observe {cell : Cell Stats} {s : Stats} (h : Tracks cell s)
    (observed : List Observation) :
    Tracks { cell with value := cell.value.observeAll observed } (s.observeAll observed) := by
  obtain ⟨hvalue, hanchored⟩ := h
  constructor
  · rw [s.observeAll_sloc, ← Stats.observeAll_withSpan, hvalue]
  · dsimp only
    rw [s.observeAll_sloc, cell.value.observeAll_sloc]
    exact hanchored

theorem Tracks.exclude {cell : Cell Stats} {s : Stats} (h : Tracks cell s) (first last : ℕ) :
    Tracks { cell with value := cell.value.excludeSpan first last } (s.excludeSpan first last) := by
  obtain ⟨hvalue, hanchored⟩ := h
  obtain ⟨hstart, hend⟩ := Prod.mk.inj (s.excludeSpan_ends first last)
  obtain ⟨hstart', hend'⟩ := Prod.mk.inj (cell.value.excludeSpan_ends first last)
  constructor
  · rw [hstart, hend, ← Stats.excludeSpan_withSpan, hvalue]
  · dsimp only
    rw [hstart, hend, hstart', hend']
    exact hanchored

theorem Tracks.merge {cell : Cell Stats} {s : Stats} (h : Tracks cell s) (child : Stats) :
    Tracks { cell with value := cell.value.merge child } (s.merge child) := by
  obtain ⟨hvalue, hanchored⟩ := h
  exact ⟨congrArg (Stats.merge · child) hvalue, hanchored⟩

/-- The own node of a space writes the span it was opened for. -/
theorem tracks_opened (v : Visited) (hopens : v.facts.funcSpace = true) :
    Tracks (((locPasses rows).algebra lang options).visit v
        ((locPasses rows).openCell lang options v))
      ((locAlgebra (walkReading rows lang)).visit v (openStats (walkReading rows lang) v)) := by
  have hvalue : ((locPasses rows).openCell lang options v).value = .default := ite_self _
  have hcell : ((locPasses rows).algebra lang options).visit v
      ((locPasses rows).openCell lang options v) =
        { (locPasses rows).openCell lang options v with
          value := (Stats.default.withSpan v.node.startRow v.node.endLine).observeAll
            (rows v.ancestors v.node) } := by
    simp only [Passes.algebra, hvalue]
    simp only [locPasses, hopens, if_true]
  rw [hcell]
  apply @Tracks.observe
    { (locPasses rows).openCell lang options v with
      value := Stats.default.withSpan v.node.startRow v.node.endLine }
  refine ⟨rfl, ?_⟩
  show if lang.getSpaceKindWithCode v.ancestors v.node = .unit then _ else _
  simp only [Passes.openCell, openStats, walkReading, hopens, true_and]
  split_ifs with hkind <;> simp_all [Stats.withSpan, Stats.default]

theorem tracks_unit (root : Node) :
    Tracks ((locPasses rows).unitCell root)
      (openStats (walkReading rows lang) ⟨[], root, ⟨false, false⟩⟩) :=
  ⟨rfl, by simp [Passes.unitCell, openStats, walkReading, Stats.withSpan]⟩

/-- The passes and the timeline keep track of each other over a marked tree, and finish the
spaces in it with the same counters. -/
theorem tracks_steps (hloc : .loc ∈ options.selected) :
    (∀ m : Marked, (∀ cell s, Tracks cell s →
        Tracks (Step.execAll ((locPasses rows).algebra lang options) m.steps cell)
          (Step.execAll (locAlgebra (walkReading rows lang)) m.steps s)) ∧
      Step.resultsAll ((locPasses rows).finalValue lang options) m.steps =
        Step.resultsAll (finalStats (walkReading rows lang)) m.steps) ∧
    ∀ ms : List Marked, (∀ cell s, Tracks cell s →
        Tracks (Step.execAll ((locPasses rows).algebra lang options) (Marked.stepsForest ms) cell)
          (Step.execAll (locAlgebra (walkReading rows lang)) (Marked.stepsForest ms) s)) ∧
      Step.resultsAll ((locPasses rows).finalValue lang options) (Marked.stepsForest ms) =
        Step.resultsAll (finalStats (walkReading rows lang)) (Marked.stepsForest ms) := by
  refine Rose.tree_forest_induction (fun mark cs ih => ?_) ?_ (fun m ms ihm ihms => ?_)
  · cases mark with
    | pruned node =>
      refine ⟨fun cell s h => ?_, rfl⟩
      simp only [Marked.steps, Step.execAll_prune, Step.execAll_nil, Passes.algebra, hloc, if_true]
      exact h.exclude node.startRow node.endLine
    | kept v =>
      obtain ⟨ihcs, ihresults⟩ := ih
      by_cases hopens : v.facts.funcSpace = true
      · have hfinal : (locPasses rows).finalValue lang options v
            (.visit v :: Marked.stepsForest cs) =
              finalStats (walkReading rows lang) v (.visit v :: Marked.stepsForest cs) := by
          unfold Passes.finalValue finalStats spaceStats
          rw [Step.execAll_visit, Step.execAll_visit]
          exact Tracks.finish rows (ihcs _ _ (tracks_opened rows lang options v hopens))
        have hsteps : Marked.steps (.node (.kept v) cs) =
            [.child v (.visit v :: Marked.stepsForest cs)] := by simp [Marked.steps, hopens]
        rw [hsteps]
        refine ⟨fun cell s h => ?_, ?_⟩
        · rw [Step.execAll_child, Step.execAll_child, Step.execAll_nil, Step.execAll_nil]
          show Tracks
            { cell with
              value := cell.value.merge ((locPasses rows).finalValue lang options v
                (.visit v :: Marked.stepsForest cs)) }
            (s.merge (finalStats (walkReading rows lang) v (.visit v :: Marked.stepsForest cs)))
          rw [hfinal]
          exact h.merge _
        · rw [Step.resultsAll_child, Step.resultsAll_child, Step.resultsAll_visit,
            Step.resultsAll_visit, hfinal, ihresults]
          rfl
      · have hsteps : Marked.steps (.node (.kept v) cs) = .visit v :: Marked.stepsForest cs := by
          simp [Marked.steps, hopens]
        rw [hsteps]
        refine ⟨fun cell s h => ?_, ?_⟩
        · have hvisit : ((locPasses rows).algebra lang options).visit v cell =
              { cell with value := cell.value.observeAll (rows v.ancestors v.node) } := by
            simp [Passes.algebra, locPasses, hopens]
          rw [Step.execAll_visit, Step.execAll_visit, hvisit]
          exact ihcs _ _ (h.observe _)
        · rw [Step.resultsAll_visit, Step.resultsAll_visit, ihresults]
  · exact ⟨fun cell s h => by simpa [Marked.stepsForest] using h, rfl⟩
  · refine ⟨fun cell s h => ?_, ?_⟩
    · simp only [Marked.stepsForest, Step.execAll_append]
      exact ihms.1 _ _ (ihm.1 _ _ h)
    · simp only [Marked.stepsForest, Step.resultsAll_append, ihm.2, ihms.2]

/-- Every space of the walk's result has the counters of its timeline. -/
theorem metricsInner_loc {R : Type*} {suite : MetricSuite R}
    (component : Component suite (locPasses rows)) (hloc : .loc ∈ options.selected)
    (name : Option String) (root : Node)
    (hunit : lang.getSpaceKindWithCode [] root = .unit →
      lang.promotesToFuncSpaceWithCode [] root = true)
    (hroot : (skipVerdict lang options [] root .retain).1 = false) :
    ∃ fs v steps, metricsInner lang suite options name root = .ok fs ∧
      fs.values component.proj = .node (finalStats (walkReading rows lang) v steps)
        (Step.resultsAll (finalStats (walkReading rows lang)) steps) := by
  obtain ⟨fs, cell, steps, hwalk, hscope, hvalues⟩ :=
    component.metricsInner_values lang options name root hunit hroot
  obtain ⟨htracks, hresults⟩ :=
    (tracks_steps rows lang options hloc).1 (markRoot lang options root)
  unfold Passes.rootScope at hscope
  split_ifs at hscope with hkind
  · simp only [Option.some.injEq, Prod.mk.injEq] at hscope
    obtain ⟨rfl, rfl⟩ := hscope
    refine ⟨fs, ⟨[], root, ⟨false, false⟩⟩, (markRoot lang options root).steps, hwalk, ?_⟩
    rw [hvalues, (htracks _ _ (tracks_unit rows lang root)).finish rows, hresults]
    rfl
  · split at hscope
    case h_1 v inner hsteps =>
      simp only [Option.some.injEq, Prod.mk.injEq] at hscope
      obtain ⟨rfl, rfl⟩ := hscope
      rw [hsteps, Step.resultsAll_child, Step.resultsAll_child] at hresults
      exact ⟨fs, v, inner, hwalk, hvalues.trans (List.cons.inj hresults).1⟩
    case h_2 => cases hscope

/-- In every space of every walk the source rows bound the code and the comment rows. -/
theorem metricsInner_loc_bounds {R : Type*} {suite : MetricSuite R}
    (component : Component suite (locPasses rows)) (hloc : .loc ∈ options.selected)
    (name : Option String) (root : Node)
    (hunit : lang.getSpaceKindWithCode [] root = .unit →
      lang.promotesToFuncSpaceWithCode [] root = true)
    (hroot : (skipVerdict lang options [] root .retain).1 = false) :
    ∃ fs, metricsInner lang suite options name root = .ok fs ∧
      ∀ t ∈ (fs.values component.proj).nodes,
        t.label.plocValue ≤ t.label.slocValue ∧ t.label.clocValue ≤ t.label.slocValue := by
  obtain ⟨fs, v, steps, hwalk, hvalues⟩ :=
    metricsInner_loc rows lang options component hloc name root hunit hroot
  refine ⟨fs, hwalk, fun t ht => ?_⟩
  have hfinal : ∃ s : Stats, t.label = s.finalize := by
    rw [hvalues, Rose.nodes, List.mem_cons] at ht
    rcases ht with rfl | ht
    · exact ⟨_, rfl⟩
    · obtain ⟨p, -, hlabel⟩ := Step.mem_results _ steps t ht
      exact ⟨_, hlabel⟩
  obtain ⟨s, hs⟩ := hfinal
  rw [hs]
  exact ⟨s.finalize_ploc_le_sloc, s.finalize_cloc_le_sloc⟩

end Walk

end BigCodeAnalysis.Metrics.Loc
