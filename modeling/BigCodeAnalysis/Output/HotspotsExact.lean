import BigCodeAnalysis.Output.Hotspots

/-! A section lists the first rows of the sorted list whatever order the functions came in, where
rows that compare as equal read alike. File, line, name and value do not tell two closures of one
line apart, which may differ in the other columns. -/

namespace BigCodeAnalysis.Output.Hotspot

open Sequences Spaces Thresholds

/-! ### The order of a section -/

namespace HotspotSpec

variable (spec : HotspotSpec)

def compare : FunctionSummary → FunctionSummary → Ordering :=
  match spec.dir with
  | .desc => byMetricDesc spec.metric
  | .asc =>
    match spec.secondaryMetric with
    | some secondary => byMetricAscThen spec.metric secondary
    | none => byMetricAsc spec.metric

/-- The values a section ranks by, with a number for a metric it does not have. -/
def ranks (s : FunctionSummary) : ℚ × ℚ :=
  match spec.dir with
  | .desc => (-spec.metric s, 0)
  | .asc => (spec.metric s, spec.secondaryMetric.elim 0 fun secondary => secondary s)

def key (s : FunctionSummary) : ℚ ×ₗ ℚ ×ₗ String ×ₗ ℕ ×ₗ String :=
  toLex ((spec.ranks s).1, toLex ((spec.ranks s).2, toLex (s.file, toLex (s.startLine, s.name))))

theorem cmp_neg (a b : ℚ) : cmp (-a) (-b) = cmp b a := by
  rcases lt_trichotomy a b with h | rfl | h
  · rw [h.cmp_eq_gt, (neg_lt_neg h).cmp_eq_gt]
  · rw [cmp_self_eq_eq, cmp_self_eq_eq]
  · rw [h.cmp_eq_lt, (neg_lt_neg h).cmp_eq_lt]

theorem compare_eq_cmp (a b : FunctionSummary) : spec.compare a b = cmp (spec.key a) (spec.key b) := by
  rw [key, key, Catalog.cmp_toLex, Catalog.cmp_toLex, Catalog.cmp_toLex, Catalog.cmp_toLex, compare,
    ranks, ranks]
  cases spec.dir with
  | desc =>
    show byMetricDesc spec.metric a b = (cmp (-spec.metric a) (-spec.metric b)).then
      ((cmp (0 : ℚ) 0).then _)
    rw [byMetricDesc, tiebreak, cmp_neg, cmp_self_eq_eq, Ordering.eq_then, Ordering.then_assoc]
  | asc =>
    cases spec.secondaryMetric with
    | none =>
      show byMetricAsc spec.metric a b = (cmp (spec.metric a) (spec.metric b)).then
        ((cmp (0 : ℚ) 0).then _)
      rw [byMetricAsc, tiebreak, cmp_self_eq_eq (0 : ℚ), Ordering.eq_then, Ordering.then_assoc]
    | some secondary =>
      show byMetricAscThen spec.metric secondary a b = _
      rw [byMetricAscThen, tiebreak, Ordering.then_assoc, Ordering.then_assoc]
      rfl

def fullySorted (rows : List FunctionSummary) : List FunctionSummary :=
  rows.insertionSort (Before spec.compare)

/-- What a row shows. -/
def cells (format : NumberFormat) (s : FunctionSummary) : List Cell :=
  spec.columns.map fun column => column.cell format s

end HotspotSpec

/-- The first rows; 0 is all of them. -/
def firstRows {α : Type*} (topN : ℕ) (rows : List α) : List α := (cap topN).elim rows rows.take

theorem firstRows_zero {α : Type*} (rows : List α) : firstRows 0 rows = rows := rfl

theorem firstRows_of_ne {α : Type*} {topN : ℕ} (h : topN ≠ 0) (rows : List α) :
    firstRows topN rows = rows.take topN := by
  rw [firstRows, cap, if_pos h]
  rfl

theorem map_firstRows {α β : Type*} (f : α → β) (topN : ℕ) (rows : List α) :
    (firstRows topN rows).map f = firstRows topN (rows.map f) := by
  by_cases h : topN = 0
  · rw [h]
    rfl
  · rw [firstRows_of_ne h, firstRows_of_ne h, List.map_take]

theorem firstRows_initial {α : Type*} {n m : ℕ} (hn : n ≠ 0) (h : m = 0 ∨ n ≤ m)
    (rows : List α) : firstRows n rows <+: firstRows m rows := by
  rw [firstRows_of_ne hn]
  by_cases hm : m = 0
  · rw [hm]
    exact List.take_prefix n rows
  · rw [firstRows_of_ne hm]
    exact List.take_prefix_take_left (h.resolve_left hm)

/-! ### The rows of a section -/

section Rows

variable (nth : SelectNth FunctionSummary) (spec : HotspotSpec) (advisory : AdvisoryThresholds)
  (policy : SuppressionPolicy)

def listed (base : List FunctionSummary) : List FunctionSummary :=
  base.filter (sectionKeep spec advisory policy)

def onFloor (base : List FunctionSummary) : List FunctionSummary :=
  base.filter (onSectionFloor spec advisory)

variable {nth spec advisory policy} {base : List FunctionSummary} {topN : ℕ}

/-- An empty table needs no branch of its own. -/
theorem select_desc (hdir : spec.dir = .desc) :
    select nth spec advisory policy base topN =
      partialTopNDesc spec.metric nth (listed spec advisory policy base) topN := by
  rw [select, hdir, topNDesc]
  dsimp only
  rw [← listed]
  split_ifs with hempty
  · rw [hempty, partialTopNDesc, SelectNth.partialSort_nil]
    rfl
  · rfl

theorem select_asc (hdir : spec.dir = .asc) :
    select nth spec advisory policy base topN =
      firstRows topN (spec.fullySorted (listed spec advisory policy base)) := by
  have hsorted : spec.sortAsc (listed spec advisory policy base) =
      spec.fullySorted (listed spec advisory policy base) := by
    rw [HotspotSpec.sortAsc, HotspotSpec.fullySorted, HotspotSpec.compare, hdir]
    cases spec.secondaryMetric <;> rfl
  rw [select, hdir]
  dsimp only
  rw [← listed, hsorted, firstRows]
  cases cap topN with
  | none => rfl
  | some c =>
    dsimp only [Option.elim_some]
    rw [Nat.min_comm, ← List.take_eq_take_min]

/-- Rows and keys of a section are those that the sorted list has first, whichever rows of one
key the partition picks. -/
theorem keys_select : (select nth spec advisory policy base topN).map spec.key =
    (firstRows topN (spec.fullySorted (listed spec advisory policy base))).map spec.key := by
  cases hdir : spec.dir with
  | asc => rw [select_asc hdir]
  | desc =>
    have hcompare : spec.compare = byMetricDesc spec.metric := by
      rw [HotspotSpec.compare, hdir]
    rw [select_desc hdir, partialTopNDesc, ← hcompare, map_firstRows, HotspotSpec.fullySorted]
    generalize listed spec advisory policy base = rows
    by_cases htop : topN = 0
    · rw [htop, firstRows_zero, cap, if_neg (by simp), Option.elim_none, SelectNth.partialSort,
        if_neg (lt_irrefl _)]
    · rw [firstRows_of_ne htop, cap, if_pos htop, Option.elim_some]
      rcases Nat.eq_zero_or_pos rows.length with hempty | hpos
      · rw [List.length_eq_zero_iff] at hempty
        rw [hempty, SelectNth.partialSort_nil, List.insertionSort_nil, List.map_nil, List.take_nil]
      · rw [keys_partialSort spec.compare_eq_cmp nth (by omega), Nat.min_comm]
        conv_rhs => rw [List.take_eq_take_min, List.length_map, List.length_insertionSort]

theorem mem_select {s : FunctionSummary} (h : s ∈ select nth spec advisory policy base topN) :
    s ∈ listed spec advisory policy base := by
  cases hdir : spec.dir with
  | asc =>
    rw [select_asc hdir, firstRows] at h
    cases hcap : cap topN with
    | none =>
      rw [hcap] at h
      exact (List.mem_insertionSort _).mp h
    | some c =>
      rw [hcap] at h
      exact (List.mem_insertionSort _).mp (List.mem_of_mem_take h)
  | desc =>
    rw [select_desc hdir] at h
    exact mem_partialSort nth h

/-- Without a cap nothing is partitioned. -/
theorem select_zero : select nth spec advisory policy base 0 =
    spec.fullySorted (listed spec advisory policy base) := by
  cases hdir : spec.dir with
  | asc => rw [select_asc hdir, firstRows_zero]
  | desc =>
    rw [select_desc hdir, partialTopNDesc, cap, if_neg (by simp), Option.elim_none,
      SelectNth.partialSort, if_neg (lt_irrefl _), HotspotSpec.fullySorted, HotspotSpec.compare,
      hdir]

theorem partialTopNDesc_eq_nil {metric : FunctionSummary → ℚ} {rows : List FunctionSummary} :
    partialTopNDesc metric nth rows topN = [] ↔ rows = [] := by
  rw [partialTopNDesc, ← List.length_eq_zero_iff, SelectNth.length_partialSort,
    ← List.length_eq_zero_iff (l := rows), cap]
  split_ifs with htop
  · rw [Option.elim_some]
    omega
  · rw [Option.elim_none, Nat.min_self]

theorem select_eq_nil : select nth spec advisory policy base topN = [] ↔
    listed spec advisory policy base = [] := by
  cases hdir : spec.dir with
  | desc => rw [select_desc hdir, partialTopNDesc_eq_nil]
  | asc =>
    have hsorted : (spec.fullySorted (listed spec advisory policy base)).length =
        (listed spec advisory policy base).length := List.length_insertionSort _ _
    rw [select_asc hdir, ← List.length_eq_zero_iff, ← List.length_eq_zero_iff, ← hsorted]
    by_cases htop : topN = 0
    · rw [htop, firstRows_zero]
    · rw [firstRows_of_ne htop, List.length_take]
      omega

end Rows

/-! ### What is hidden -/

section Hidden

variable {spec : HotspotSpec} {advisory : AdvisoryThresholds} {policy : SuppressionPolicy}
  {base : List FunctionSummary}

theorem length_filter_split {α : Type*} (p q : α → Bool) (l : List α) :
    (l.filter fun x => p x && !q x).length + (l.filter fun x => p x && q x).length =
      (l.filter p).length := by
  induction l with
  | nil => rfl
  | cons a l ih =>
    by_cases hp : p a = true
    · by_cases hq : q a = true
      · simp only [List.filter_cons, hp, hq, Bool.not_true, Bool.and_false, Bool.and_true,
          Bool.false_eq_true, if_false, if_true, List.length_cons]
        omega
      · simp only [List.filter_cons, hp, hq, Bool.not_false, Bool.and_false, Bool.and_true,
          Bool.false_eq_true, if_false, if_true, List.length_cons]
        omega
    · simp only [List.filter_cons, hp, Bool.false_and, Bool.false_eq_true, if_false]
      exact ih

/-- Each row on the floor is listed or hidden. -/
theorem length_listed_add_hidden (base : List FunctionSummary) :
    (listed spec advisory policy base).length + (hiddenOn spec advisory policy base).length =
      (onFloor spec advisory base).length :=
  length_filter_split _ _ base

/-- A count is given just where the section has rows and lists none. -/
theorem fullySuppressedCount_ne_zero : fullySuppressedCount spec advisory policy base ≠ 0 ↔
    listed spec advisory policy base = [] ∧ onFloor spec advisory base ≠ [] := by
  have hsum : (listed spec advisory policy base).length +
      (hiddenOn spec advisory policy base).length = (onFloor spec advisory base).length :=
    length_listed_add_hidden base
  rw [← List.length_eq_zero_iff (l := listed spec advisory policy base), ← List.length_pos_iff]
  rw [onFloor] at hsum ⊢
  rw [fullySuppressedCount]
  split_ifs with hall
  · omega
  · simp only [ne_eq, not_true_eq_false, false_iff]
    omega

/-- The count reported for a metric. -/
def reported (breakdown : List (Metric × ℕ)) (kind : Metric) : ℕ := (breakdown.lookup kind).getD 0

theorem reported_filterMap {sections : List HotspotSpec} {count : HotspotSpec → ℕ}
    (hkinds : (sections.map HotspotSpec.metricKind).Nodup) (h : spec ∈ sections) :
    reported (sections.filterMap fun spec => breakdownEntry spec.metricKind (count spec))
      spec.metricKind = count spec := by
  induction sections with
  | nil => exact absurd h List.not_mem_nil
  | cons first sections ih =>
    rw [List.map_cons, List.nodup_cons] at hkinds
    rw [List.filterMap_cons]
    rcases List.mem_cons.mp h with rfl | hrest
    · by_cases hcount : 0 < count spec
      · rw [breakdownEntry, if_pos hcount, reported, List.lookup_cons_self]
        rfl
      · rw [breakdownEntry, if_neg hcount, reported, List.lookup_eq_none_iff.mpr]
        · rw [Option.getD_none]
          omega
        · intro p hp
          obtain ⟨other, hother, hp⟩ := List.mem_filterMap.mp hp
          rw [breakdownEntry] at hp
          split_ifs at hp
          obtain rfl := Option.some_inj.mp hp
          have hne : spec.metricKind ≠ other.metricKind := fun hsame =>
            hkinds.1 (hsame ▸ List.mem_map_of_mem hother)
          simpa using hne
    · have hne : (spec.metricKind == first.metricKind) = false := beq_false_of_ne fun hsame =>
        hkinds.1 (hsame ▸ List.mem_map_of_mem hrest)
      rw [← ih hkinds.2 hrest, breakdownEntry]
      split_ifs
      · rw [reported, reported, List.lookup_cons, hne]
      · rfl

/-- Under the policy that hides, the breakdown gives for each section over functions how many
rows of its floor it hides. -/
theorem reported_breakdown (hspec : spec ∈ specs) (hsource : spec.source = .funcs) :
    reported (suppressedMetricBreakdown advisory .honor base) spec.metricKind =
      (hiddenOn spec advisory .honor base).length := by
  have hkinds : ((specs.filter fun spec => spec.source = .funcs).map
      HotspotSpec.metricKind).Nodup := by
    decide
  rw [suppressedMetricBreakdown, if_neg (by decide)]
  exact reported_filterMap hkinds (List.mem_filter.mpr ⟨hspec, by simpa using hsource⟩)

end Hidden

/-! ### The claim of the report -/

/-- What the tables rely on, about one section and what is collected for it. -/
structure Selects (nth : SelectNth FunctionSummary) (format : NumberFormat) (spec : HotspotSpec)
    (advisory : AdvisoryThresholds) (policy : SuppressionPolicy) (base : List FunctionSummary) :
    Prop where
  /-- The rows shown are those that a full sort puts first. -/
  sorted : ∀ topN, (select nth spec advisory policy base topN).map (spec.cells format) =
    firstRows topN ((spec.fullySorted (listed spec advisory policy base)).map (spec.cells format))
  /-- They are the same however the functions were collected. -/
  anyOrder : ∀ base', base'.Perm base → ∀ topN,
    (select nth spec advisory policy base' topN).map (spec.cells format) =
      (select nth spec advisory policy base topN).map (spec.cells format)
  /-- A smaller cap shows the first of them. -/
  initial : ∀ n m, n ≠ 0 → m = 0 ∨ n ≤ m →
    (select nth spec advisory policy base n).map (spec.cells format) <+:
      (select nth spec advisory policy base m).map (spec.cells format)
  /-- What is listed and what is reported as hidden is the floor. -/
  hidden : policy = .honor → spec ∈ specs → spec.source = .funcs →
    (select nth spec advisory policy base 0).length +
        reported (suppressedMetricBreakdown advisory policy base) spec.metricKind =
      (onFloor spec advisory base).length
  /-- The caption stands for an empty table whose floor is not empty. -/
  caption : ∀ units funcs entries topN, spec.base units funcs entries = base →
    ((selectFor nth spec advisory policy units funcs entries topN).omitted = true ↔
      select nth spec advisory policy base topN = [] ∧ onFloor spec advisory base ≠ [])

section Claim

variable {nth : SelectNth FunctionSummary} {format : NumberFormat} {spec : HotspotSpec}
  {advisory : AdvisoryThresholds} {policy : SuppressionPolicy} {base : List FunctionSummary}

theorem omitted_iff {units funcs entries : List FunctionSummary} {topN : ℕ}
    (hbase : spec.base units funcs entries = base) :
    (selectFor nth spec advisory policy units funcs entries topN).omitted = true ↔
      select nth spec advisory policy base topN = [] ∧ onFloor spec advisory base ≠ [] := by
  have hrows : (if spec.ccNote = true then selectCc nth spec advisory policy base topN
      else select nth spec advisory policy base topN) = [] ↔
        listed spec advisory policy base = [] := by
    split_ifs
    · exact partialTopNDesc_eq_nil
    · exact select_eq_nil
  rw [selectFor, hbase, select_eq_nil]
  generalize (if spec.ccNote = true then selectCc nth spec advisory policy base topN
    else select nth spec advisory policy base topN) = rows at hrows ⊢
  by_cases hempty : rows = []
  · rw [if_pos hempty, SpecOutcome.omitted, decide_eq_true_eq, fullySuppressedCount_ne_zero]
  · rw [if_neg hempty, SpecOutcome.omitted]
    simp only [Bool.false_eq_true, false_iff]
    exact fun h => hempty (hrows.mpr h.1)

/-- Rows that compare as equal read alike. -/
def TiesReadAlike (format : NumberFormat) (spec : HotspotSpec) (rows : List FunctionSummary) :
    Prop :=
  ∀ a ∈ rows, ∀ b ∈ rows, spec.compare a b = .eq → spec.cells format a = spec.cells format b

theorem tiesReadAlike_iff {rows : List FunctionSummary} : TiesReadAlike format spec rows ↔
    ∀ a ∈ rows, ∀ b ∈ rows, spec.key a = spec.key b →
      spec.cells format a = spec.cells format b := by
  refine forall₂_congr fun a _ => forall₂_congr fun b _ => ?_
  rw [spec.compare_eq_cmp, cmp_eq_eq_iff]

theorem mem_fullySorted {rows : List FunctionSummary} {s : FunctionSummary} {topN : ℕ}
    (h : s ∈ firstRows topN (spec.fullySorted rows)) : s ∈ rows := by
  by_cases htop : topN = 0
  · rw [htop] at h
    exact (List.mem_insertionSort _).mp h
  · rw [firstRows_of_ne htop] at h
    exact (List.mem_insertionSort _).mp (List.mem_of_mem_take h)

/-- The keys of a section do not depend on the order the functions came in. -/
theorem keys_anyOrder {base' : List FunctionSummary} (h : base'.Perm base) (topN : ℕ) :
    (select nth spec advisory policy base' topN).map spec.key =
      (select nth spec advisory policy base topN).map spec.key := by
  have hsorted : (spec.fullySorted (listed spec advisory policy base')).map spec.key =
      (spec.fullySorted (listed spec advisory policy base)).map spec.key :=
    keys_sort_eq spec.compare_eq_cmp
      ((List.perm_insertionSort _ _).trans (h.filter _)) (pairwise_key_sort spec.compare_eq_cmp _)
  rw [keys_select, keys_select, map_firstRows, map_firstRows, hsorted]

theorem ties_of_anyOrder (h : ∀ base', base'.Perm base →
      (select nth spec advisory policy base' 0).map (spec.cells format) =
        (select nth spec advisory policy base 0).map (spec.cells format)) :
    TiesReadAlike format spec (listed spec advisory policy base) := by
  rw [tiesReadAlike_iff]
  intro a ha b hb htie
  refine ties_of_sort_perm spec.compare_eq_cmp (fun l hl => ?_) ha hb htie
  -- the rows in any order come from the functions in some order
  have hkept : listed spec advisory policy
      (l ++ base.filter fun s => !sectionKeep spec advisory policy s) = l := by
    rw [listed, List.filter_append, List.filter_eq_self.mpr, List.filter_eq_nil_iff.mpr,
      List.append_nil]
    · intro s hs
      simpa using (List.mem_filter.mp hs).2
    · intro s hs
      exact (List.mem_filter.mp (hl.subset hs)).2
  have hperm : (l ++ base.filter fun s => !sectionKeep spec advisory policy s).Perm base :=
    (hl.append_right _).trans (List.filter_append_perm _ base)
  have hsame := h _ hperm
  rw [select_zero, select_zero, hkept] at hsame
  exact hsame

/-- A section is as the report takes it to be just where rows that tie read alike. -/
theorem selects_iff (nth : SelectNth FunctionSummary) (format : NumberFormat) (spec : HotspotSpec)
    (advisory : AdvisoryThresholds) (policy : SuppressionPolicy) (base : List FunctionSummary) :
    Selects nth format spec advisory policy base ↔
      TiesReadAlike format spec (listed spec advisory policy base) := by
  constructor
  · exact fun h => ties_of_anyOrder fun base' hperm => h.anyOrder base' hperm 0
  · intro hties
    rw [tiesReadAlike_iff] at hties
    have hsorted : ∀ topN, (select nth spec advisory policy base topN).map (spec.cells format) =
        firstRows topN
          ((spec.fullySorted (listed spec advisory policy base)).map (spec.cells format)) := by
      intro topN
      rw [← map_firstRows]
      exact map_eq_of_keys hties (fun s => mem_select) (fun s => mem_fullySorted) keys_select
    refine ⟨hsorted, fun base' hperm topN => ?_, fun n m hn hnm => ?_, ?_, ?_⟩
    · refine map_eq_of_keys hties (fun s hs => ?_) (fun s => mem_select)
        (keys_anyOrder hperm topN)
      exact (hperm.filter _).subset (mem_select hs)
    · rw [hsorted, hsorted]
      exact firstRows_initial hn hnm _
    · rintro rfl hspec hsource
      rw [reported_breakdown hspec hsource, select_zero, HotspotSpec.fullySorted,
        List.length_insertionSort, length_listed_add_hidden]
    · exact fun units funcs entries topN hbase => omitted_iff hbase

end Claim

/-! ### Two closures of one line -/

/-- Numbers that are whole. -/
def whole : NumberFormat :=
  ⟨fun q => toString q.num, fun q => toString q.num, fun q => toString q.num,
    fun q => toString q.num⟩

def closure (cognitive : ℚ) : FunctionSummary where
  file := "app.js"
  name := "<anonymous>"
  kind := .function
  suppressed := .some ∅
  startLine := 1
  sloc := 1
  tokens := 9
  cyclomatic := 2
  cognitive := cognitive
  halsteadVolume := 0
  halsteadEffort := 0
  halsteadBugs := 0
  miOriginal := 0
  miVisualStudio := 0
  miIsEmpty := false
  nargs := 1
  nexits := 0
  nom := 0
  abc := 0
  wmc := 0
  npa := 0
  npm := 0

/-- The table on cyclomatic complexity shows them in the order they were collected. -/
theorem closures_not_selected : ¬Selects SelectNth.ofSort whole cyclomaticComplexity ⟨3⟩ .honor
    [closure 1, closure 2] := by
  intro h
  have hties := ties_of_anyOrder fun base' hperm => h.anyOrder base' hperm 0
  have hlisted : listed cyclomaticComplexity ⟨3⟩ .honor [closure 1, closure 2] =
      [closure 1, closure 2] := by decide
  have hsame := hties (closure 1) (by rw [hlisted]; simp) (closure 2) (by rw [hlisted]; simp)
    (by decide)
  have hcell := congrArg (fun cells => cells[4]?) hsame
  exact absurd hcell (by decide)

end BigCodeAnalysis.Output.Hotspot
