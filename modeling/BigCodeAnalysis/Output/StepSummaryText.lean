import BigCodeAnalysis.Output.StepSummary

/-! Where the end marker stands in a digest. The tables and the fence keep what they are given
apart, so the marker comes early iff a path, a symbol or the remediation text holds it. -/

namespace BigCodeAnalysis.Output

open Catalog (F64)
open Sequences (Gap findSub findSub_put infix_gap)
open Thresholds (Violation)

@[simp] theorem utf8_append (a b : String) : utf8 (a ++ b) = utf8 a ++ utf8 b := by
  rw [utf8, utf8, utf8, String.toList_append, List.flatMap_append]

/-- Whether a text holds the end marker. -/
def ShowsEnd (text : String) : Prop := utf8 stepSummaryEndMarker <:+: utf8 text

instance (text : String) : Decidable (ShowsEnd text) :=
  inferInstanceAs (Decidable (utf8 stepSummaryEndMarker <:+: utf8 text))

/-! ### Texts without brackets -/

def Plain (text : String) : Prop := '<' ∉ text.toList ∧ '>' ∉ text.toList

instance (text : String) : Decidable (Plain text) :=
  inferInstanceAs (Decidable ('<' ∉ text.toList ∧ '>' ∉ text.toList))

theorem Plain.append {a b : String} (ha : Plain a) (hb : Plain b) : Plain (a ++ b) := by
  simp only [Plain, String.toList_append, List.mem_append, not_or]
  exact ⟨⟨ha.1, hb.1⟩, ⟨ha.2, hb.2⟩⟩

theorem plain_toString (n : ℕ) : Plain (toString n) := by
  have hdigit : ∀ c ∈ (toString n).toList, c.isDigit = true := by
    intro c hc
    rw [Nat.toString_eq_ofList_toDigits, String.toList_ofList] at hc
    exact Nat.isDigit_of_mem_toDigits (by decide) (by decide) hc
  exact ⟨fun h => absurd (hdigit _ h) (by decide), fun h => absurd (hdigit _ h) (by decide)⟩

theorem plain_metric {ρ : Type*} (v : Violation ρ) : Plain v.metric := by
  have hall : ∀ info ∈ Catalog.metrics, Plain info.id := by decide
  exact hall _ (List.mem_of_find?_eq_some v.threshold.known)

/-- A plain text that the marker cannot lie across. -/
structure Between (text : String) : Prop where
  plain : Plain text
  parts : '|' ∈ text.toList ∨ '\n' ∈ text.toList

instance (text : String) : Decidable (Between text) :=
  decidable_of_iff (Plain text ∧ ('|' ∈ text.toList ∨ '\n' ∈ text.toList))
    ⟨fun h => ⟨h.1, h.2⟩, fun h => ⟨h.plain, h.parts⟩⟩

theorem Between.append_right {a b : String} (ha : Plain a) (hb : Between b) :
    Between (a ++ b) := by
  refine ⟨ha.append hb.plain, ?_⟩
  simp only [String.toList_append, List.mem_append]
  rcases hb.parts with h | h
  · exact .inl (.inr h)
  · exact .inr (.inr h)

theorem Between.gap {text : String} (h : Between text) :
    Gap (utf8 stepSummaryEndMarker) (utf8 text) where
  head := by
    intro a ha hmem
    obtain rfl := Option.some.inj (ha.symm.trans (show _ = some (UInt8.ofNat '<'.toNat) by decide))
    exact h.plain.1 (mem_of_mem_utf8 (by decide) hmem)
  last := by
    intro z hz hmem
    obtain rfl := Option.some.inj (hz.symm.trans (show _ = some (UInt8.ofNat '>'.toNat) by decide))
    exact h.plain.2 (mem_of_mem_utf8 (by decide) hmem)
  parts := by
    rcases h.parts with hmem | hmem
    · exact ⟨124, List.mem_flatMap.mpr ⟨'|', hmem, by decide⟩, by decide⟩
    · exact ⟨10, List.mem_flatMap.mpr ⟨'\n', hmem, by decide⟩, by decide⟩

theorem showsEnd_between {gap : String} (h : Between gap) (x y : String) :
    ShowsEnd (x ++ (gap ++ y)) ↔ ShowsEnd x ∨ ShowsEnd y := by
  unfold ShowsEnd
  rw [utf8_append, utf8_append]
  exact infix_gap h.gap (by decide) _ _

theorem showsEnd_behind {gap : String} (h : Between gap) (y : String) :
    ShowsEnd (gap ++ y) ↔ ShowsEnd y := by
  have hnot : ¬ ShowsEnd "" := by decide
  have hgap := showsEnd_between h "" y
  rw [String.empty_append] at hgap
  rw [hgap]
  exact or_iff_right hnot

/-! ### The digest, piece by piece -/

section Digest
variable {ρ γ ι : Type*} {display : ρ → String} {formatFloat : Option ℕ → F64 → String}

theorem showsEnd_rows {row : ι → String} {shows : ι → Prop} {items : List ι}
    (hrow : ∀ i ∈ items, ∀ rest, ShowsEnd (row i ++ rest) ↔ shows i ∨ ShowsEnd rest)
    (rest : String) :
    ShowsEnd (String.join (items.map row) ++ rest) ↔ (∃ i ∈ items, shows i) ∨ ShowsEnd rest := by
  induction items with
  | nil => simp only [List.map_nil, String.join_nil, String.empty_append, List.not_mem_nil,
      false_and, exists_false, false_or]
  | cons i items ih =>
    have htail := ih fun j hj => hrow j (List.mem_cons_of_mem i hj)
    rw [List.map_cons, String.join_cons, String.append_assoc, hrow i List.mem_cons_self, htail,
      ← or_assoc]
    simp only [List.mem_cons, exists_eq_or_imp]

theorem plain_metricScalar (hfloat : ∀ digits v, Plain (formatFloat digits v)) (v : F64) :
    Plain (metricScalar formatFloat v) := by
  unfold metricScalar
  split
  · split_ifs
    · exact hfloat _ _
    · exact hfloat _ _
  · exact hfloat _ _

theorem between_breachCells (hfloat : ∀ digits v, Plain (formatFloat digits v))
    (v : Violation ρ) : Between (breachCells formatFloat v) := by
  have hvalue := plain_metricScalar hfloat v.value
  have hlimit := plain_metricScalar hfloat (.finite v.limit)
  have hcells := (((plain_metric v).append (b := " | ") (by decide)).append hvalue).append
    (b := " | ") (by decide)
  exact Between.append_right (hcells.append hlimit) (by decide)

theorem showsEnd_rollupRow (hfloat : ∀ digits v, Plain (formatFloat digits v))
    (row : Violation.RollupRow ρ) (rest : String) :
    ShowsEnd (rollupRow formatFloat row ++ rest) ↔
      ShowsEnd (escapeGfmCell row.display) ∨ ShowsEnd rest := by
  have hcount :
      Between (" | " ++ toString row.count ++ " | " ++ breachCells formatFloat row.worst) :=
    Between.append_right (((show Plain " | " by decide).append (plain_toString _)).append
      (by decide)) (between_breachCells hfloat row.worst)
  have hsplit : rollupRow formatFloat row ++ rest = "| " ++ (escapeGfmCell row.display ++
      ((" | " ++ toString row.count ++ " | " ++ breachCells formatFloat row.worst) ++ rest)) := by
    simp only [rollupRow, String.append_assoc]
  rw [hsplit, showsEnd_behind (by decide), showsEnd_between hcount]

theorem showsEnd_offenderRow (hfloat : ∀ digits v, Plain (formatFloat digits v))
    (v : Violation ρ) (rest : String) :
    ShowsEnd (offenderRow display formatFloat v ++ rest) ↔
      (ShowsEnd (escapeGfmCell (display v.path)) ∨ ShowsEnd (escapeGfmCell v.function)) ∨
        ShowsEnd rest := by
  have hline : Between (" | " ++ toString v.startLine ++ " | ") :=
    Between.append_right ((show Plain " | " by decide).append (plain_toString _)) (by decide)
  have hcells : Between (" | " ++ breachCells formatFloat v) :=
    Between.append_right (by decide) (between_breachCells hfloat v)
  have hsplit : offenderRow display formatFloat v ++ rest =
      "| " ++ (escapeGfmCell (display v.path) ++ ((" | " ++ toString v.startLine ++ " | ") ++
        (escapeGfmCell v.function ++ ((" | " ++ breachCells formatFloat v) ++ rest)))) := by
    simp only [offenderRow, String.append_assoc]
  rw [hsplit, showsEnd_behind (by decide), showsEnd_between hline, showsEnd_between hcells,
    or_assoc]

section Tables
variable [LinearOrder ρ] {pairs : List (Violation ρ × γ)}

theorem exists_row_iff {shows : String → Prop} :
    (∃ row ∈ Violation.groupPairsByPath display pairs, shows row.display) ↔
      ∃ pair ∈ pairs, shows (display pair.1.path) := by
  constructor
  · rintro ⟨row, hrow, hshows⟩
    obtain ⟨hworst, -, hdisplay⟩ := Violation.mem_groupPairsByPath.mp hrow
    have hne : Violation.ofFile pairs row.path ≠ [] := by
      intro hnil
      rw [Violation.pickWorst_eq_none.mpr hnil] at hworst
      cases hworst
    obtain ⟨v, hv⟩ := List.exists_mem_of_ne_nil _ hne
    obtain ⟨hmem, hpath⟩ := List.mem_filter.mp hv
    obtain ⟨pair, hpair, rfl⟩ := List.mem_map.mp hmem
    refine ⟨pair, hpair, ?_⟩
    rwa [of_decide_eq_true hpath, ← hdisplay]
  · rintro ⟨pair, hpair, hshows⟩
    have hmem : pair.1 ∈ Violation.ofFile pairs pair.1.path :=
      List.mem_filter.mpr ⟨List.mem_map.mpr ⟨pair, hpair, rfl⟩, decide_eq_true rfl⟩
    have hne := mt Violation.pickWorst_eq_none.mp (List.ne_nil_of_mem hmem)
    obtain ⟨worst, hworst⟩ := Option.ne_none_iff_exists'.mp hne
    exact ⟨⟨(Violation.ofFile pairs pair.1.path).length, worst, display pair.1.path, pair.1.path⟩,
      Violation.mem_groupPairsByPath.mpr ⟨hworst, rfl, rfl⟩, hshows⟩

theorem showsEnd_perFileRollup (hfloat : ∀ digits v, Plain (formatFloat digits v))
    (rest : String) :
    ShowsEnd (perFileRollup display formatFloat pairs ++ rest) ↔
      (∃ pair ∈ pairs, ShowsEnd (escapeGfmCell (display pair.1.path))) ∨ ShowsEnd rest := by
  have hheader : Between rollupHeader := by decide +kernel
  have hrow : ∀ row ∈ Violation.groupPairsByPath display pairs, ∀ rest,
      ShowsEnd (rollupRow formatFloat row ++ rest) ↔
        ShowsEnd (escapeGfmCell row.display) ∨ ShowsEnd rest :=
    fun row _ => showsEnd_rollupRow hfloat row
  rw [perFileRollup, String.append_assoc, showsEnd_behind hheader, showsEnd_rows hrow,
    @exists_row_iff _ _ _ _ _ (fun text => ShowsEnd (escapeGfmCell text))]

omit [LinearOrder ρ] in
theorem plain_of_mem_metricCounts {row : String × ℕ} (h : row ∈ metricCounts pairs) :
    Plain row.1 := by
  obtain ⟨metric, hmetric, rfl⟩ := List.mem_map.mp ((List.mem_insertionSort _).mp h)
  obtain ⟨v, -, rfl⟩ := (Sequences.mem_keysOf _).mp hmetric
  exact plain_metric v

omit [LinearOrder ρ] in
theorem showsEnd_metricBreakdown (rest : String) :
    ShowsEnd (metricBreakdown pairs ++ rest) ↔ ShowsEnd rest := by
  have hrow : ∀ row ∈ metricCounts pairs, ∀ rest,
      ShowsEnd (countRow row ++ rest) ↔ False ∨ ShowsEnd rest := by
    intro row hmem rest
    have hcells : Plain (row.1 ++ " | " ++ toString row.2) :=
      ((plain_of_mem_metricCounts hmem).append (by decide)).append (plain_toString _)
    have hgap : Between ("| " ++ (row.1 ++ " | " ++ toString row.2) ++ " |\n") :=
      Between.append_right ((show Plain "| " by decide).append hcells) (by decide)
    have hsplit : countRow row = "| " ++ (row.1 ++ " | " ++ toString row.2) ++ " |\n" := by
      simp only [countRow, String.append_assoc]
    rw [hsplit, showsEnd_behind hgap, false_or]
  have hheader : Between breakdownHeader := by decide +kernel
  rw [metricBreakdown, String.append_assoc, showsEnd_behind hheader, showsEnd_rows hrow]
  simp only [and_false, exists_false, false_or]

theorem showsEnd_topOffendersTable (hfloat : ∀ digits v, Plain (formatFloat digits v))
    (rest : String) :
    ShowsEnd (topOffendersTable display formatFloat pairs ++ rest) ↔
      (∃ v ∈ shownOffenders pairs, ShowsEnd (escapeGfmCell (display v.path)) ∨
        ShowsEnd (escapeGfmCell v.function)) ∨ ShowsEnd rest := by
  have hheader : Between offendersHeader := by decide +kernel
  rw [topOffendersTable, String.append_assoc, showsEnd_behind hheader,
    showsEnd_rows fun v _ => showsEnd_offenderRow hfloat v]

/-- A path of the last table is one of the first. -/
theorem exists_pair_of_shown {v : Violation ρ} (h : v ∈ shownOffenders pairs) :
    ∃ pair ∈ pairs, pair.1 = v := by
  have hmem := (List.mem_insertionSort _).mp (List.mem_of_mem_take h)
  exact List.mem_map.mp hmem

/-- The marker is in no path, no symbol and no remediation text that the digest shows. -/
structure Quiet (display : ρ → String) (digest : Digest ρ γ) : Prop where
  paths : ∀ pair ∈ digest.pairs, ¬ ShowsEnd (escapeGfmCell (display pair.1.path))
  symbols : ∀ v ∈ shownOffenders digest.pairs, ¬ ShowsEnd (escapeGfmCell v.function)
  remediation : ∀ text ∈ digest.remediation, ¬ ShowsEnd text

theorem showsEnd_digestBody (hfloat : ∀ digits v, Plain (formatFloat digits v))
    (rest : String) :
    ShowsEnd (digestBody display formatFloat pairs ++ rest) ↔
      (∃ pair ∈ pairs, ShowsEnd (escapeGfmCell (display pair.1.path))) ∨
        (∃ v ∈ shownOffenders pairs, ShowsEnd (escapeGfmCell v.function)) ∨ ShowsEnd rest := by
  by_cases hnil : pairs = []
  · subst hnil
    rw [digestBody, List.isEmpty_nil, if_pos rfl, showsEnd_behind (by decide +kernel)]
    simp [shownOffenders, Violation.topOffenders]
  · have hcount : Between ("**Total violations:** " ++ toString pairs.length ++ "\n\n") :=
      Between.append_right ((show Plain "**Total violations:** " by decide).append
        (plain_toString _)) (by decide)
    have hsplit : digestBody display formatFloat pairs ++ rest =
        ("**Total violations:** " ++ toString pairs.length ++ "\n\n") ++
          (perFileRollup display formatFloat pairs ++ ("\n" ++ (metricBreakdown pairs ++ ("\n" ++
            (topOffendersTable display formatFloat pairs ++ rest))))) := by
      rw [digestBody, if_neg (by simpa using hnil)]
      simp only [String.append_assoc]
    rw [hsplit, showsEnd_behind hcount, showsEnd_perFileRollup hfloat, showsEnd_behind (by decide),
      showsEnd_metricBreakdown, showsEnd_behind (by decide), showsEnd_topOffendersTable hfloat]
    constructor
    · rintro (h | ⟨v, hv, hpath | hsymbol⟩ | h)
      · exact .inl h
      · obtain ⟨pair, hpair, rfl⟩ := exists_pair_of_shown hv
        exact .inl ⟨pair, hpair, hpath⟩
      · exact .inr (.inl ⟨v, hv, hsymbol⟩)
      · exact .inr (.inr h)
    · rintro (h | ⟨v, hv, hsymbol⟩ | h)
      · exact .inl h
      · exact .inr (.inl ⟨v, hv, .inr hsymbol⟩)
      · exact .inr (.inr h)

end Tables

/-! ### The first end marker -/

theorem showsEnd_remediationFence (block : String) :
    ShowsEnd (remediationFence block) ↔ ShowsEnd block := by
  have hstrip : ShowsEnd (String.ofList (stripNewline block.toList)) ↔ ShowsEnd block := by
    unfold stripNewline
    split
    next rest htext =>
      have hblock : block = "\n" ++ String.ofList rest := by
        rw [← String.toList_inj, htext, String.toList_append, String.toList_ofList,
          String.toList_ofList]
        rfl
      rw [hblock, showsEnd_behind (by decide)]
    next => rw [String.ofList_toList]
  have htail : ∀ tail : String, tail = "" ∨ tail = "\n" → Between (tail ++ "````\n") := by
    rintro tail (rfl | rfl) <;> decide
  have hgap := htail (if block.toList.getLast? = some '\n' then "" else "\n") (by
    split_ifs
    · exact .inl rfl
    · exact .inr rfl)
  have hfence := showsEnd_between hgap (String.ofList (stripNewline block.toList)) ""
  have hnot : ¬ ShowsEnd "" := by decide
  rw [String.append_empty, hstrip, or_iff_left hnot] at hfence
  rw [remediationFence, String.append_assoc, String.append_assoc, showsEnd_behind (by decide),
    hfence]

/-- The block up to its end marker. -/
def blockFront [LinearOrder ρ] (display : ρ → String) (formatFloat : Option ℕ → F64 → String)
    (digest : Digest ρ γ) : String :=
  stepSummaryBeginMarker ++ "\n" ++ "## `bca check`: threshold violations\n\n" ++
    digestBody display formatFloat digest.pairs ++ digest.remediation.elim "" remediationFence

theorem quiet_iff [LinearOrder ρ] (hfloat : ∀ digits v, Plain (formatFloat digits v))
    (digest : Digest ρ γ) :
    Quiet display digest ↔ ¬ ShowsEnd (blockFront display formatFloat digest) := by
  have hbegin : ¬ ShowsEnd stepSummaryBeginMarker := by decide
  have hheading : Between ("\n" ++ "## `bca check`: threshold violations\n\n") := by decide
  have hremediation : ShowsEnd (digest.remediation.elim "" remediationFence) ↔
      ∃ text ∈ digest.remediation, ShowsEnd text := by
    cases digest.remediation with
    | none => simp [show ¬ ShowsEnd "" by decide]
    | some text => simp [showsEnd_remediationFence]
  have hsplit : blockFront display formatFloat digest = stepSummaryBeginMarker ++
      (("\n" ++ "## `bca check`: threshold violations\n\n") ++
        (digestBody display formatFloat digest.pairs ++
          digest.remediation.elim "" remediationFence)) := by
    simp only [blockFront, String.append_assoc]
  rw [hsplit, showsEnd_between hheading, showsEnd_digestBody hfloat, hremediation]
  constructor
  · rintro ⟨hpaths, hsymbols, htext⟩ (h | ⟨pair, hpair, h⟩ | ⟨v, hv, h⟩ | ⟨text, hmem, h⟩)
    · exact hbegin h
    · exact hpaths pair hpair h
    · exact hsymbols v hv h
    · exact htext text hmem h
  · intro h
    exact ⟨fun pair hpair hin => h (.inr (.inl ⟨pair, hpair, hin⟩)),
      fun v hv hin => h (.inr (.inr (.inl ⟨v, hv, hin⟩))),
      fun text hmem hin => h (.inr (.inr (.inr ⟨text, hmem, hin⟩)))⟩

end Digest

end BigCodeAnalysis.Output
