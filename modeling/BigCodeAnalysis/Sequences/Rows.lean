import Mathlib.Data.List.Basic

/-! The rows of a sequence. A separator ends a row; a row begins at the start of the sequence
or behind a separator, and the last one may lack its separator. -/

namespace BigCodeAnalysis.Sequences

variable {α : Type*}

/-- A row begins behind these elements. -/
def BeginsRow (sep : α) (before : List α) : Prop := before = [] ∨ before.getLast? = some sep

/-- `text` is the whole of a row between `before` and `after`. -/
structure IsRow (sep : α) (before text after : List α) : Prop where
  begins : BeginsRow sep before
  notMem : sep ∉ text
  ends : after = [] ∨ after.head? = some sep

/-- The position behind a row and its separator. -/
def rowEnd (before text after : List α) : ℕ :=
  before.length + text.length + (after.take 1).length

variable {sep : α} {before before' line line' : List α}

theorem beginsRow_concat : BeginsRow sep (before ++ [sep]) :=
  .inr List.getLast?_concat

theorem beginsRow_take {xs : List α} {i : ℕ} (h : i ≤ xs.length) :
    BeginsRow sep (xs.take i) ↔ i = 0 ∨ xs[i - 1]? = some sep := by
  unfold BeginsRow
  rw [List.getLast?_take, List.take_eq_nil_iff]
  by_cases hi : i = 0
  · simp [hi]
  · have hsome : xs[i - 1]? = some xs[i - 1] := List.getElem?_eq_getElem (by omega)
    rw [if_neg hi, hsome, Option.some_or]
    have hne : xs ≠ [] := by
      rintro rfl
      exact hi (by simpa using h)
    simp [hi, hne]

theorem BeginsRow.eq_nil_of_append (h : BeginsRow sep (before ++ line)) (hline : sep ∉ line) :
    line = [] := by
  by_contra hne
  rcases h with h | h
  · exact hne (List.append_eq_nil_iff.mp h).2
  · rw [List.getLast?_append_of_ne_nil _ hne] at h
    exact hline (List.mem_of_getLast? h)

/-- The row at the end of a sequence begins at one place only. -/
theorem BeginsRow.unique (hbefore : BeginsRow sep before) (hbefore' : BeginsRow sep before')
    (hline : sep ∉ line) (hline' : sep ∉ line') (h : before ++ line = before' ++ line') :
    before = before' ∧ line = line' := by
  have hsame : before = before' := by
    rcases List.append_eq_append_iff.mp h with ⟨between, hsplit, hcut⟩ | ⟨between, hsplit, hcut⟩
    · have hnil : between = [] :=
        (hsplit ▸ hbefore').eq_nil_of_append fun hmem => hline (by simp [hcut, hmem])
      rw [hsplit, hnil, List.append_nil]
    · have hnil : between = [] :=
        (hsplit ▸ hbefore).eq_nil_of_append fun hmem => hline' (by simp [hcut, hmem])
      rw [hsplit, hnil, List.append_nil]
  subst hsame
  exact ⟨rfl, List.append_cancel_left h⟩

/-- A row of a sequence is known by the number of separators before it. -/
theorem BeginsRow.eq_of_count [DecidableEq α] {xs : List α} (hbefore : BeginsRow sep before)
    (hbefore' : BeginsRow sep before') (hle : before <+: xs) (hle' : before' <+: xs)
    (hcount : before.count sep = before'.count sep) : before = before' := by
  rcases List.prefix_or_prefix_of_prefix hle hle' with ⟨between, rfl⟩ | ⟨between, rfl⟩
  · have hnil := hbefore'.eq_nil_of_append
      (List.count_eq_zero.mp (by rw [List.count_append] at hcount; omega))
    rw [hnil, List.append_nil]
  · have hnil := hbefore.eq_nil_of_append
      (List.count_eq_zero.mp (by rw [List.count_append] at hcount; omega))
    rw [hnil, List.append_nil]

end BigCodeAnalysis.Sequences
