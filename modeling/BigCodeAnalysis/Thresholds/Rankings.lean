import BigCodeAnalysis.Catalog.Threshold
import BigCodeAnalysis.Sequences.Group
import BigCodeAnalysis.Sequences.Ranking
import BigCodeAnalysis.Thresholds.Evaluate

/-! Which violation of a file is the worst. Both surfaces order by severity and then by excess;
the rollup breaks ties by the metric alone and the top-offenders table asks for the line before
the metric. Each of them picks a least element of its own order on the violations of a file, so
they agree, however the input is ordered, just when no tie of that file tells the two orders
apart. -/

namespace BigCodeAnalysis.Thresholds

open Catalog Sequences

variable {ρ γ : Type*}

namespace Violation

def metric (v : Violation ρ) : String := v.threshold.info.id

def limit (v : Violation ρ) : ℚ := v.threshold.limit

/-- `Greater` means the first is the worse one. -/
def cmpSeverity (a b : Violation ρ) : Ordering :=
  a.threshold.cmpBreach a.value b.threshold b.value

/-- What both surfaces print of a violation. -/
def shown (v : Violation ρ) : String × F64 × ℚ := (v.metric, v.value, v.limit)

/-! ### The rollup -/

def cmpWorst (a b : Violation ρ) : Ordering := (a.cmpSeverity b).then (cmp b.metric a.metric)

def pickWorst (vs : List (Violation ρ)) : Option (Violation ρ) := maxBy cmpWorst vs

structure RollupRow (ρ : Type*) where
  count : ℕ
  worst : Violation ρ
  display : String
  path : ρ

/-- The rows of the rollup, by count and then by the displayed path. -/
def groupPairsByPath [LinearOrder ρ] (display : ρ → String) (pairs : List (Violation ρ × γ)) :
    List (RollupRow ρ) :=
  let violations := pairs.map Prod.fst
  let rows := (keysOf Violation.path violations).filterMap fun path =>
    let vs := violations.filter fun v => v.path = path
    (pickWorst vs).map fun worst => ⟨vs.length, worst, display path, path⟩
  rows.insertionSort
    (Before fun a b => (cmp b.count a.count).then (cmp a.display b.display))

/-! ### The top offenders -/

def cmpTop [LinearOrder ρ] (a b : Violation ρ) : Ordering :=
  (((b.cmpSeverity a).then (cmp a.path b.path)).then (cmp a.startLine b.startLine)).then
    (cmp a.metric b.metric)

/-- The order of the table, before it is cut to its length. -/
def topOffenders [LinearOrder ρ] (pairs : List (Violation ρ × γ)) : List (Violation ρ) :=
  (pairs.map Prod.fst).insertionSort (Before cmpTop)

/-! ### One file -/

section File
variable [LinearOrder ρ] {display : ρ → String} {pairs : List (Violation ρ × γ)} {path : ρ}
  {v : Violation ρ}

/-- The violations of one file, in the order of the input. -/
def ofFile (pairs : List (Violation ρ × γ)) (path : ρ) : List (Violation ρ) :=
  (pairs.map Prod.fst).filter fun v => v.path = path

/-- The violation the rollup names for a file. -/
def rollupWorst (display : ρ → String) (pairs : List (Violation ρ × γ)) (path : ρ) :
    Option (Violation ρ) :=
  ((groupPairsByPath display pairs).find? fun row => row.path = path).map RollupRow.worst

/-- The first row of a file in the table. -/
def firstOffender (pairs : List (Violation ρ × γ)) (path : ρ) : Option (Violation ρ) :=
  (topOffenders pairs).find? fun v => v.path = path

theorem mem_groupPairsByPath {row : RollupRow ρ} :
    row ∈ groupPairsByPath display pairs ↔
      pickWorst (ofFile pairs row.path) = some row.worst ∧
        row.count = (ofFile pairs row.path).length ∧ row.display = display row.path := by
  rw [groupPairsByPath, List.mem_insertionSort, List.mem_filterMap]
  constructor
  · rintro ⟨path, -, hrow⟩
    obtain ⟨worst, hworst, rfl⟩ := Option.map_eq_some_iff.mp hrow
    exact ⟨hworst, rfl, rfl⟩
  · rintro ⟨hworst, hcount, hdisplay⟩
    refine ⟨row.path, ?_, ?_⟩
    · have hne : ofFile pairs row.path ≠ [] := by
        intro hnil
        rw [hnil] at hworst
        cases hworst
      obtain ⟨v, hv⟩ := List.exists_mem_of_ne_nil _ hne
      obtain ⟨hv, hpath⟩ := List.mem_filter.mp hv
      exact (mem_keysOf _).mpr ⟨v, hv, by simpa using hpath⟩
    · refine Option.map_eq_some_iff.mpr ⟨row.worst, hworst, ?_⟩
      obtain ⟨count, worst, shown, path⟩ := row
      dsimp only at hcount hdisplay
      rw [hcount, hdisplay]
      rfl

theorem rollupWorst_eq : rollupWorst display pairs path = pickWorst (ofFile pairs path) := by
  unfold rollupWorst
  cases hfind : (groupPairsByPath display pairs).find? fun row => row.path = path with
  | some row =>
    obtain rfl : row.path = path := by simpa using List.find?_some hfind
    exact (mem_groupPairsByPath.mp (List.mem_of_find?_eq_some hfind)).1.symm
  | none =>
    cases hworst : pickWorst (ofFile pairs path) with
    | none => rfl
    | some worst =>
      have hrow := List.find?_eq_none.mp hfind
        ⟨(ofFile pairs path).length, worst, display path, path⟩
        (mem_groupPairsByPath.mpr ⟨hworst, rfl, rfl⟩)
      exact absurd (decide_eq_true rfl) hrow

/-! ### The keys -/

/-- Severity, then excess. -/
def severityKey (v : Violation ρ) : (ℕ ×ₗ ℚ) ×ₗ (ℕ ×ₗ ℚ) := v.threshold.breachKey v.value

omit [LinearOrder ρ] in
theorem cmpWorst_eq_cmp (a b : Violation ρ) :
    cmpWorst a b = cmp (toLex (severityKey a, OrderDual.toDual a.metric))
      (toLex (severityKey b, OrderDual.toDual b.metric)) := by
  rw [cmp_toLex, cmp_dual, cmpWorst, cmpSeverity, Threshold.cmpBreach_eq_cmp]
  rfl

theorem cmpTop_eq_cmp (a b : Violation ρ) :
    cmpTop a b =
      cmp (toLex (OrderDual.toDual (severityKey a), toLex (a.path, toLex (a.startLine, a.metric))))
        (toLex (OrderDual.toDual (severityKey b),
          toLex (b.path, toLex (b.startLine, b.metric)))) := by
  rw [cmp_toLex, cmp_toLex, cmp_toLex, cmp_dual, cmpTop, cmpSeverity,
    Threshold.cmpBreach_eq_cmp, Ordering.then_assoc, Ordering.then_assoc]
  rfl

/-- The violations of a file that no other of the file is worse than. -/
def MostSevere (pairs : List (Violation ρ × γ)) (path : ρ) (v : Violation ρ) : Prop :=
  v ∈ ofFile pairs path ∧ ∀ w ∈ ofFile pairs path, severityKey w ≤ severityKey v

/-- Those of them with the least metric. -/
def LeastMetric (pairs : List (Violation ρ × γ)) (path : ρ) (v : Violation ρ) : Prop :=
  MostSevere pairs path v ∧ ∀ w, MostSevere pairs path w → v.metric ≤ w.metric

theorem pickWorst_spec (h : pickWorst (ofFile pairs path) = some v) :
    LeastMetric pairs path v := by
  obtain ⟨hmem, hmax⟩ := maxBy_spec cmpWorst_eq_cmp h
  have hsevere : ∀ w ∈ ofFile pairs path, severityKey w ≤ severityKey v := fun w hw =>
    (Prod.Lex.toLex_le_toLex.mp (hmax w hw)).elim le_of_lt fun heq => heq.1.le
  refine ⟨⟨hmem, hsevere⟩, ?_⟩
  rintro w ⟨hw, hwmax⟩
  rcases Prod.Lex.toLex_le_toLex.mp (hmax w hw) with hlt | ⟨-, hmetric⟩
  · exact absurd (hwmax v hmem) (not_le.mpr hlt)
  · exact hmetric

theorem firstOffender_spec (h : firstOffender pairs path = some v) :
    MostSevere pairs path v ∧ ∀ w, MostSevere pairs path w →
      v.startLine < w.startLine ∨ v.startLine = w.startLine ∧ v.metric ≤ w.metric := by
  obtain ⟨hmem, hmin⟩ := find?_insertionSort_spec cmpTop_eq_cmp h
  have hsevere : ∀ w ∈ ofFile pairs path, severityKey w ≤ severityKey v := fun w hw =>
    (Prod.Lex.toLex_le_toLex.mp (hmin w hw)).elim le_of_lt fun heq =>
      (OrderDual.toDual_inj.mp heq.1).ge
  refine ⟨⟨hmem, hsevere⟩, ?_⟩
  rintro w ⟨hw, hwmax⟩
  rcases Prod.Lex.toLex_le_toLex.mp (hmin w hw) with hlt | ⟨-, hrest⟩
  · exact absurd (hwmax v hmem) (not_le.mpr hlt)
  -- both rows are of this file, so the next key is the line
  have hpath : v.path = w.path := by
    have hv := of_decide_eq_true (List.mem_filter.mp hmem).2
    have hw := of_decide_eq_true (List.mem_filter.mp hw).2
    exact hv.trans hw.symm
  rcases Prod.Lex.toLex_le_toLex.mp hrest with hlt | ⟨-, hrest⟩
  · exact absurd hpath hlt.ne
  · exact Prod.Lex.toLex_le_toLex.mp hrest

theorem pickWorst_eq_none : pickWorst (ofFile pairs path) = none ↔ ofFile pairs path = [] :=
  maxBy_eq_none

theorem firstOffender_eq_none : firstOffender pairs path = none ↔ ofFile pairs path = [] := by
  simp only [firstOffender, List.find?_eq_none, topOffenders, List.mem_insertionSort, ofFile,
    List.filter_eq_nil_iff]

/-! ### When the two agree -/

/-- Both surfaces name the same violation of each file, whatever the order of the input. -/
def RankingsAgree (display : ρ → String) (pairs : List (Violation ρ × γ)) : Prop :=
  ∀ path,
    (rollupWorst display pairs path).map shown = (firstOffender pairs path).map shown ∧
      ∀ pairs', pairs'.Perm pairs →
        (rollupWorst display pairs' path).map shown = (rollupWorst display pairs path).map shown ∧
          (firstOffender pairs' path).map shown = (firstOffender pairs path).map shown

/-- In every file the least metric of the most severe violations stands on their least line,
and those of that metric have one value and one limit. -/
def TiesAgree (pairs : List (Violation ρ × γ)) : Prop :=
  ∀ path,
    (∀ v w, LeastMetric pairs path v → LeastMetric pairs path w →
      v.value = w.value ∧ v.limit = w.limit) ∧
    ∀ w, MostSevere pairs path w → ∃ v, LeastMetric pairs path v ∧ v.startLine ≤ w.startLine

theorem mem_ofFile_perm {pairs' : List (Violation ρ × γ)} (h : pairs'.Perm pairs) :
    v ∈ ofFile pairs' path ↔ v ∈ ofFile pairs path :=
  ((h.map Prod.fst).filter _).mem_iff

theorem mostSevere_perm {pairs' : List (Violation ρ × γ)} (h : pairs'.Perm pairs) :
    MostSevere pairs' path v ↔ MostSevere pairs path v := by
  simp only [MostSevere, mem_ofFile_perm h]

theorem leastMetric_perm {pairs' : List (Violation ρ × γ)} (h : pairs'.Perm pairs) :
    LeastMetric pairs' path v ↔ LeastMetric pairs path v := by
  simp only [LeastMetric, mostSevere_perm h]

theorem ofFile_eq_nil_perm {pairs' : List (Violation ρ × γ)} (h : pairs'.Perm pairs) :
    ofFile pairs' path = [] ↔ ofFile pairs path = [] := by
  simp only [List.eq_nil_iff_forall_not_mem, mem_ofFile_perm h]

theorem metric_eq {w : Violation ρ} (hv : LeastMetric pairs path v)
    (hw : LeastMetric pairs path w) : v.metric = w.metric :=
  le_antisymm (hv.2 w hw.1) (hw.2 v hv.1)

/-- Every candidate for the worst of a file can be put where the rollup picks it. -/
theorem exists_perm_rollupWorst (h : LeastMetric pairs path v) :
    ∃ pairs', pairs'.Perm pairs ∧ rollupWorst display pairs' path = some v := by
  obtain ⟨hmem, hpath⟩ := List.mem_filter.mp h.1.1
  obtain ⟨p, hp, rfl⟩ := List.mem_map.mp hmem
  obtain ⟨l, l', rfl⟩ := List.append_of_mem hp
  have hperm : (l ++ l' ++ [p]).Perm (l ++ p :: l') :=
    (List.perm_append_singleton p (l ++ l')).trans List.perm_middle.symm
  refine ⟨l ++ l' ++ [p], hperm, ?_⟩
  have hfile : ofFile (l ++ l' ++ [p]) path = ofFile (l ++ l') path ++ [p.1] := by
    simp only [ofFile, List.map_append, List.filter_append, List.map_cons, List.map_nil]
    rw [List.filter_singleton, hpath, cond_true]
  rw [rollupWorst_eq, hfile]
  apply maxBy_concat cmpWorst_eq_cmp
  intro x hx
  have hx : x ∈ ofFile (l ++ p :: l') path := by
    rw [← mem_ofFile_perm hperm, hfile]
    exact List.mem_append_left _ hx
  rcases (h.1.2 x hx).lt_or_eq with hlt | heq
  · exact Prod.Lex.toLex_le_toLex.mpr (.inl hlt)
  · have hsevere : MostSevere (l ++ p :: l') path x :=
      ⟨hx, fun w hw => (h.1.2 w hw).trans heq.ge⟩
    exact Prod.Lex.toLex_le_toLex.mpr (.inr ⟨heq, h.2 x hsevere⟩)

/-- The two rankings agree, and on every order of the input, when no tie tells them apart. -/
theorem rankings_agree_iff : RankingsAgree display pairs ↔ TiesAgree pairs := by
  constructor
  · intro hagree path
    have hworst : ∀ v, LeastMetric pairs path v →
        (rollupWorst display pairs path).map shown = some v.shown := by
      intro v hv
      obtain ⟨pairs', hperm, hpick⟩ := @exists_perm_rollupWorst _ _ _ display _ _ _ hv
      rw [← ((hagree path).2 pairs' hperm).1, hpick]
      rfl
    refine ⟨?_, ?_⟩
    · intro v w hv hw
      have hshown := Option.some.inj ((hworst v hv).symm.trans (hworst w hw))
      simp only [shown, Prod.mk.injEq] at hshown
      exact hshown.2
    · intro w hw
      have hne : ofFile pairs path ≠ [] := List.ne_nil_of_mem hw.1
      obtain ⟨first, hfirst⟩ :=
        Option.ne_none_iff_exists'.mp (mt firstOffender_eq_none.mp hne)
      obtain ⟨worst, hpick⟩ := Option.ne_none_iff_exists'.mp (mt pickWorst_eq_none.mp hne)
      have hleast := pickWorst_spec hpick
      obtain ⟨hsevere, hbefore⟩ := firstOffender_spec hfirst
      have hmetric : first.metric = worst.metric := by
        have hshown := (hagree path).1
        rw [hworst worst hleast, hfirst] at hshown
        exact (congrArg Prod.fst (Option.some.inj hshown)).symm
      have hfirstLeast : LeastMetric pairs path first :=
        ⟨hsevere, fun u hu => hmetric.le.trans (hleast.2 u hu)⟩
      exact ⟨first, hfirstLeast, (hbefore w hw).elim le_of_lt fun h => h.1.le⟩
  · intro hties path
    obtain ⟨hvalues, hlines⟩ := hties path
    have hshown : ∀ v w, LeastMetric pairs path v → LeastMetric pairs path w →
        v.shown = w.shown := by
      intro v w hv hw
      obtain ⟨hvalue, hlimit⟩ := hvalues v w hv hw
      simp only [shown, metric_eq hv hw, hvalue, hlimit]
    -- the first row of the table has the least metric too
    have hfirst : ∀ v, MostSevere pairs path v →
        (∀ w, MostSevere pairs path w →
          v.startLine < w.startLine ∨ v.startLine = w.startLine ∧ v.metric ≤ w.metric) →
        LeastMetric pairs path v := by
      intro v hv hbefore
      obtain ⟨least, hleast, hline⟩ := hlines v hv
      have hmetric : v.metric ≤ least.metric := by
        rcases hbefore least hleast.1 with hlt | ⟨-, hmetric⟩
        · exact absurd hline (not_le.mpr hlt)
        · exact hmetric
      exact ⟨hv, fun w hw => hmetric.trans (hleast.2 w hw)⟩
    have hany : ∀ pairs', pairs'.Perm pairs → ∀ v,
        rollupWorst display pairs' path = some v ∨ firstOffender pairs' path = some v →
        LeastMetric pairs path v := by
      rintro pairs' hperm v (h | h)
      · rw [rollupWorst_eq] at h
        exact (leastMetric_perm hperm).mp (pickWorst_spec h)
      · obtain ⟨hsevere, hbefore⟩ := firstOffender_spec h
        apply hfirst v ((mostSevere_perm hperm).mp hsevere)
        intro w hw
        exact hbefore w ((mostSevere_perm hperm).mpr hw)
    cases hpick : rollupWorst display pairs path with
    | none =>
      have hnil := pickWorst_eq_none.mp (rollupWorst_eq.symm.trans hpick)
      have hnone : ∀ pairs', pairs'.Perm pairs →
          rollupWorst display pairs' path = none ∧ firstOffender pairs' path = none := by
        intro pairs' hperm
        have hnil' := (ofFile_eq_nil_perm hperm).mpr hnil
        exact ⟨rollupWorst_eq.trans (pickWorst_eq_none.mpr hnil'), firstOffender_eq_none.mpr hnil'⟩
      rw [(hnone pairs (.refl _)).2]
      refine ⟨rfl, fun pairs' hperm => ?_⟩
      rw [(hnone pairs' hperm).1, (hnone pairs' hperm).2]
      exact ⟨rfl, rfl⟩
    | some worst =>
      have hworst := hany pairs (.refl _) worst (.inl hpick)
      have hne : ofFile pairs path ≠ [] := List.ne_nil_of_mem hworst.1.1
      have hsome : ∀ pairs', pairs'.Perm pairs →
          (rollupWorst display pairs' path).map shown = some worst.shown ∧
            (firstOffender pairs' path).map shown = some worst.shown := by
        intro pairs' hperm
        have hne' := mt (ofFile_eq_nil_perm hperm).mp hne
        obtain ⟨v, hv⟩ := Option.ne_none_iff_exists'.mp (mt pickWorst_eq_none.mp hne')
        obtain ⟨w, hw⟩ := Option.ne_none_iff_exists'.mp (mt firstOffender_eq_none.mp hne')
        have hv' : rollupWorst display pairs' path = some v := rollupWorst_eq.trans hv
        rw [hv', hw, Option.map_some, Option.map_some,
          hshown v worst (hany pairs' hperm v (.inl hv')) hworst,
          hshown w worst (hany pairs' hperm w (.inr hw)) hworst]
        exact ⟨rfl, rfl⟩
      rw [(hsome pairs (.refl _)).2]
      exact ⟨rfl, hsome⟩

end File

/-! ### A file on which they differ -/

/-- A function metric gated at ten. -/
def gatedAtTen (info : MetricInfo) (known : lookup info.id = some info) : Threshold :=
  ⟨info, 10, known, fun _ => by norm_num⟩

def twiceOver (threshold : Threshold) (function : String) (startLine : ℕ) : Violation String where
  path := "a.rs"
  startLine
  endLine := startLine + 5
  function
  value := .finite 20
  threshold
  nargsSplit := none
  hardBreach := true
  suppressed := false

/-- Two functions of one file at twice their limits. -/
def tiedPairs : List (Violation String × Unit) :=
  [(twiceOver (gatedAtTen ⟨"cyclomatic", "cyclomatic", .higherIsWorse, .function, .ratio⟩
      (by decide)) "parse" 1, ()),
    (twiceOver (gatedAtTen ⟨"cognitive", "cognitive", .higherIsWorse, .function, .ratio⟩
      (by decide)) "render" 30, ())]

/-- The rollup names the second function and the table lists the first one first. -/
theorem rankings_disagree : ¬ RankingsAgree (fun path => path) tiedPairs := by
  intro h
  have hrow := (h "a.rs").1
  revert hrow
  decide +kernel

end Violation

end BigCodeAnalysis.Thresholds
