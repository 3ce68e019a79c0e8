import BigCodeAnalysis.Spaces.SelectionParity
import BigCodeAnalysis.Thresholds.Evaluate

/-! The gate on a narrowed walk. A set of thresholds reads one metric family per entry, so a
walk narrowed to those families and what they depend on gives the verdicts of a full one. -/

namespace BigCodeAnalysis.Thresholds

open Catalog Sequences Spaces Trees

variable {T : Metric → Type} {ρ : Type*}

/-! ### What the gate reads -/

/-- The accessors of the statistics the gate calls. Counts are converted to `f64`. -/
structure Accessors (T : Metric → Type) where
  cognitive : T .cognitive → F64
  cyclomatic : T .cyclomatic → F64
  cyclomaticModified : T .cyclomatic → F64
  volume : Metrics.Halstead.Stats → F64
  difficulty : Metrics.Halstead.Stats → F64
  effort : Metrics.Halstead.Stats → F64
  time : Metrics.Halstead.Stats → F64
  bugs : Metrics.Halstead.Stats → F64
  sloc : T .loc → F64
  ploc : T .loc → F64
  lloc : T .loc → F64
  cloc : T .loc → F64
  blank : T .loc → F64
  dloc : T .loc → F64
  nomTotal : T .nom → F64
  tokensSum : T .tokens → F64
  nexitsSum : T .nexits → F64
  ownArgs : T .nargs → F64
  functionArgs : T .nargs → ℕ
  closureArgs : T .nargs → ℕ
  original : T .mi → F64
  sei : T .mi → F64
  visualStudio : T .mi → F64
  miIsEmpty : T .mi → Bool
  magnitude : T .abc → F64
  totalWmc : T .wmc → F64
  totalNpm : T .npm → F64
  totalNpa : T .npa → F64

namespace Accessors
variable (accessors : Accessors T)

/-- The `extract` column of the gate's table, by name. -/
def extract (name : String) (metrics : CodeMetrics (Stats T)) : F64 :=
  match name with
  | "cognitive" => accessors.cognitive (metrics.rest .cognitive)
  | "cyclomatic" => accessors.cyclomatic (metrics.rest .cyclomatic)
  | "cyclomatic.modified" => accessors.cyclomaticModified (metrics.rest .cyclomatic)
  | "halstead.volume" => accessors.volume metrics.halstead
  | "halstead.difficulty" => accessors.difficulty metrics.halstead
  | "halstead.effort" => accessors.effort metrics.halstead
  | "halstead.time" => accessors.time metrics.halstead
  | "halstead.bugs" => accessors.bugs metrics.halstead
  | "loc.sloc" => accessors.sloc (metrics.rest .loc)
  | "loc.ploc" => accessors.ploc (metrics.rest .loc)
  | "loc.lloc" => accessors.lloc (metrics.rest .loc)
  | "loc.cloc" => accessors.cloc (metrics.rest .loc)
  | "loc.blank" => accessors.blank (metrics.rest .loc)
  | "loc.dloc" => accessors.dloc (metrics.rest .loc)
  | "nom" => accessors.nomTotal (metrics.rest .nom)
  | "tokens" => accessors.tokensSum (metrics.rest .tokens)
  | "nexits" => accessors.nexitsSum (metrics.rest .nexits)
  | "nargs" => accessors.ownArgs (metrics.rest .nargs)
  | "mi.original" => accessors.original (metrics.rest .mi)
  | "mi.sei" => accessors.sei (metrics.rest .mi)
  | "mi.visual_studio" => accessors.visualStudio (metrics.rest .mi)
  | "abc" => accessors.magnitude (metrics.rest .abc)
  | "wmc" => accessors.totalWmc (metrics.rest .wmc)
  | "npm" => accessors.totalNpm (metrics.rest .npm)
  | "npa" => accessors.totalNpa (metrics.rest .npa)
  | _ => .nan

/-- The gate's reading of the metrics of a space. -/
def reading : Reading (Stats T) where
  extract := accessors.extract
  miIsEmpty metrics := accessors.miIsEmpty (metrics.rest .mi)
  functionArgs metrics := accessors.functionArgs (metrics.rest .nargs)
  closureArgs metrics := accessors.closureArgs (metrics.rest .nargs)

/-- Every row of the table reads the family it declares. -/
theorem extract_congr {a b : CodeMetrics (Stats T)} :
    ∀ e ∈ extractors, a.field e.metric = b.field e.metric →
      accessors.extract e.name a = accessors.extract e.name b := by
  intro e he h
  simp only [extractors, List.mem_cons, List.not_mem_nil, or_false] at he
  rcases he with rfl | rfl | rfl | rfl | rfl | rfl | rfl | rfl | rfl | rfl | rfl | rfl | rfl |
    rfl | rfl | rfl | rfl | rfl | rfl | rfl | rfl | rfl | rfl | rfl | rfl <;>
  · simp only [CodeMetrics.field] at h
    simp only [extract, h]

end Accessors

/-! ### Spaces that show the same -/

section Shown
variable {shown : Finset Metric} {a b : FuncSpace (Stats T)}

theorem qualifiedSymbol_congr (h : a.view shown = b.view shown) (parentPrefix : String) :
    qualifiedSymbol a parentPrefix = qualifiedSymbol b parentPrefix := by
  have hlabel := (FuncSpace.view_eq_iff.mp h).1
  simp only [FuncSpace.label, SpaceLabel.mk.injEq] at hlabel
  obtain ⟨hname, hkind, hstart, -⟩ := hlabel
  simp only [qualifiedSymbol, spaceSegment, hname, hkind, hstart]

theorem metric_of_nargs (entry : ResolvedThreshold) (h : entry.extractor.name = "nargs") :
    entry.extractor.metric = .nargs := by
  have hknown := entry.known
  rw [h] at hknown
  have hnargs : lookupExtractor "nargs" = some ⟨"nargs", .nargs⟩ := by decide
  rw [← Option.some.inj (hnargs.symm.trans hknown)]

/-- An entry finds the same violation in both if its family is shown. -/
theorem violationFor_congr (entry : ResolvedThreshold) (accessors : Accessors T)
    (qualified : String) (path : ρ) (ctx : SuppressionContext)
    (hmetric : entry.extractor.metric ∈ shown) (h : a.view shown = b.view shown) :
    entry.violationFor accessors.reading a qualified path ctx =
      entry.violationFor accessors.reading b qualified path ctx := by
  obtain ⟨hlabel, hsuppressed, hfields, -⟩ := FuncSpace.view_eq_iff.mp h
  simp only [FuncSpace.label, SpaceLabel.mk.injEq] at hlabel
  obtain ⟨hname, hkind, hstart, hend⟩ := hlabel
  have hvalue : accessors.reading.extract entry.extractor.name a.metrics =
      accessors.reading.extract entry.extractor.name b.metrics :=
    accessors.extract_congr _ (List.mem_of_find?_eq_some entry.known) (hfields _ hmetric)
  have hempty : (entry.extractor.metric = .mi && accessors.reading.miIsEmpty a.metrics) =
      (entry.extractor.metric = .mi && accessors.reading.miIsEmpty b.metrics) := by
    by_cases hmi : entry.extractor.metric = .mi
    · have hfield := hfields .mi (hmi ▸ hmetric)
      simp only [CodeMetrics.field] at hfield
      simp only [Accessors.reading, hfield]
    · simp only [hmi, decide_false, Bool.false_and]
  have hsplit : nargsSplitFor accessors.reading entry.extractor.name a =
      nargsSplitFor accessors.reading entry.extractor.name b := by
    unfold nargsSplitFor
    by_cases hnargs : entry.extractor.name = "nargs"
    · have hfield := hfields .nargs (metric_of_nargs entry hnargs ▸ hmetric)
      simp only [CodeMetrics.field] at hfield
      dsimp only [Accessors.reading]
      rw [hfield, hname]
    · rw [if_neg hnargs, if_neg hnargs]
  have hmarked : ctx.suppresses entry.extractor.name a =
      ctx.suppresses entry.extractor.name b := by
    simp only [SuppressionContext.suppresses, hsuppressed]
  simp only [ResolvedThreshold.violationFor, hkind, hstart, hend, hvalue, hempty, hsplit, hmarked]

/-- Two stacks of spaces that show the same, under the same symbols. -/
abbrev StacksAgree (shown : Finset Metric) :
    List (FuncSpace (Stats T) × String) → List (FuncSpace (Stats T) × String) → Prop :=
  List.Forall₂ fun p q => p.1.view shown = q.1.view shown ∧ p.2 = q.2

theorem childFrames_agree (qualified : String) (h : a.view shown = b.view shown) :
    StacksAgree shown (childFrames a qualified) (childFrames b qualified) := by
  obtain ⟨hlabel, -, -, hspaces⟩ := FuncSpace.view_eq_iff.mp h
  have hkind := congrArg SpaceLabel.kind hlabel
  simp only [FuncSpace.label] at hkind
  unfold childFrames
  rw [hkind]
  generalize a.spaces = xs at hspaces
  generalize b.spaces = ys at hspaces
  induction xs generalizing ys with
  | nil =>
    cases ys with
    | nil => exact .nil
    | cons y ys => cases hspaces
  | cons x xs ih =>
    cases ys with
    | nil => cases hspaces
    | cons y ys =>
      obtain ⟨hhead, htail⟩ := List.cons.inj hspaces
      exact .cons ⟨hhead, rfl⟩ (ih ys htail)

namespace ThresholdSet

theorem evaluateLoop_congr (set : ThresholdSet) (accessors : Accessors T) (path : ρ)
    (ctx : SuppressionContext) (hset : ∀ entry ∈ set.entries, entry.extractor.metric ∈ shown)
    (xs ys : List (FuncSpace (Stats T) × String)) (h : StacksAgree shown xs ys) :
    set.evaluateLoop accessors.reading path ctx xs =
      set.evaluateLoop accessors.reading path ctx ys := by
  induction xs using visits.induct generalizing ys with
  | case1 =>
    cases h
    rfl
  | case2 current parentPrefix stack qualified ih =>
    cases h with
    | cons hhead htail =>
      next top rest =>
      obtain ⟨other, otherPrefix⟩ := top
      obtain ⟨hview, hstart⟩ := hhead
      dsimp only at hview hstart
      subst hstart
      have hsymbol := qualifiedSymbol_congr hview parentPrefix
      have hframes := List.rel_append (childFrames_agree qualified hview) htail
      rw [evaluateLoop, evaluateLoop, ← hsymbol, ih _ hframes]
      congr 1
      apply List.filterMap_congr
      intro entry hentry
      exact violationFor_congr entry accessors _ path ctx (hset entry hentry) hview

/-- Spaces that show the families a set reads get the same violations. -/
theorem evaluateWithPolicy_congr (set : ThresholdSet) (accessors : Accessors T) (path : ρ)
    (policy : SuppressionPolicy) (reportSuppressed : Bool)
    (hset : ∀ entry ∈ set.entries, entry.extractor.metric ∈ shown)
    (h : a.view shown = b.view shown) :
    set.evaluateWithPolicy accessors.reading path a policy reportSuppressed =
      set.evaluateWithPolicy accessors.reading path b policy reportSuppressed := by
  have hscope := (FuncSpace.view_eq_iff.mp h).2.1
  unfold evaluateWithPolicy
  rw [hscope]
  exact set.evaluateLoop_congr accessors path _ hset _ _ (.cons ⟨h, rfl⟩ .nil)

/-- The selection names the family of every entry. -/
theorem mem_selectedMetrics {set : ThresholdSet} {entry : ResolvedThreshold}
    (h : entry ∈ set.entries) : entry.extractor.metric ∈ set.selectedMetrics := by
  have hfold : ∀ (entries : List ResolvedThreshold) (selected : List Metric) (metric : Metric),
      (metric ∈ selected ∨ ∃ e ∈ entries, e.extractor.metric = metric) →
      metric ∈ entries.foldl
        (fun selected e =>
          if e.extractor.metric ∈ selected then selected else selected ++ [e.extractor.metric])
        selected := by
    intro entries
    induction entries with
    | nil =>
      rintro selected metric (hin | ⟨e, he, -⟩)
      · exact hin
      · cases he
    | cons first entries ih =>
      intro selected metric hin
      rw [List.foldl_cons]
      apply ih
      rcases hin with hin | ⟨e, he, rfl⟩
      · left
        split_ifs
        · exact hin
        · exact List.mem_append_left _ hin
      · rcases List.mem_cons.mp he with rfl | he
        · left
          split_ifs with hold
          · exact hold
          · exact List.mem_append_right _ (List.mem_singleton_self _)
        · exact Or.inr ⟨e, he, rfl⟩
  exact hfold _ _ _ (Or.inr ⟨entry, h, rfl⟩)

end ThresholdSet

end Shown

/-- Narrowing the walk changes nothing of what is selected, and a set of thresholds gates a
walk narrowed to its families as it gates a full one. -/
theorem metric_selection_parity (lang : Language) (hooks : Hooks T) (options : MetricsOptions)
    (name : Option String) (root : Node) :
    (∀ selected : Finset Metric,
      let narrow := options.withMetricSet selected
      (metricsInner lang (hooks.suite narrow.selected) narrow name root).map
          (FuncSpace.view selected) =
        (metricsInner lang (hooks.suite options.withAll.selected) options.withAll name root).map
          (FuncSpace.view selected)) ∧
    ∀ (set : ThresholdSet) (accessors : Accessors T) (path : ρ) (policy : SuppressionPolicy)
      (reportSuppressed : Bool),
      let narrow := options.withOnly set.selectedMetrics
      (metricsInner lang (hooks.suite narrow.selected) narrow name root).map (fun space =>
          set.evaluateWithPolicy accessors.reading path space policy reportSuppressed) =
        (metricsInner lang (hooks.suite options.withAll.selected) options.withAll name root).map
          (fun space =>
            set.evaluateWithPolicy accessors.reading path space policy reportSuppressed) := by
  have hparity (selected : Finset Metric) :
      (metricsInner lang (hooks.suite (options.withMetricSet selected).selected)
          (options.withMetricSet selected) name root).map (FuncSpace.view selected) =
        (metricsInner lang (hooks.suite options.withAll.selected) options.withAll name root).map
          (FuncSpace.view selected) := by
    have hnarrow : resolved selected ⊆ (options.withMetricSet selected).selected :=
      Finset.Subset.refl _
    have hall : resolved selected ⊆ options.withAll.selected := Finset.subset_univ _
    exact metricsInner_related hnarrow hall (resolved_closed selected) (subset_resolved selected)
      rfl name root
  refine ⟨hparity, ?_⟩
  intro set accessors path policy reportSuppressed narrow
  have hset : ∀ entry ∈ set.entries, entry.extractor.metric ∈ set.selectedMetrics.toFinset :=
    fun _ he => List.mem_toFinset.mpr (ThresholdSet.mem_selectedMetrics he)
  have hview := hparity set.selectedMetrics.toFinset
  exact map_eq_of_map_eq hview fun a b hshown =>
    set.evaluateWithPolicy_congr accessors path policy reportSuppressed hset hshown

end BigCodeAnalysis.Thresholds
