import Mathlib.Data.List.Infix

/-! The first place at which a word occurs in a text, and what a text put before or behind it
does to that place. -/

namespace BigCodeAnalysis.Sequences

variable {α : Type*} [DecidableEq α]

/-- `str::find`. -/
def findSub (word : List α) : List α → Option ℕ
  | [] => if word = [] then some 0 else none
  | a :: text => if word <+: a :: text then some 0 else (findSub word text).map (· + 1)

theorem findSub_of_prefix {word text : List α} (h : word <+: text) :
    findSub word text = some 0 := by
  cases text with
  | nil => exact if_pos (List.prefix_nil.mp h)
  | cons a text => exact if_pos h

theorem findSub_eq_none {word text : List α} : findSub word text = none ↔ ¬ word <:+: text := by
  induction text with
  | nil =>
    rw [findSub, List.infix_nil]
    split_ifs with h <;> simp [h]
  | cons a text ih =>
    rw [findSub, List.infix_cons_iff]
    split_ifs with h
    · simp [h]
    · rw [Option.map_eq_none_iff, ih]
      simp [h]

theorem findSub_spec {word text : List α} {k : ℕ} (h : findSub word text = some k) :
    word <+: text.drop k := by
  induction text generalizing k with
  | nil =>
    unfold findSub at h
    split_ifs at h with hnil
    rw [hnil]
    exact List.nil_prefix
  | cons a text ih =>
    unfold findSub at h
    split_ifs at h with hstart
    · obtain rfl := Option.some.inj h
      exact hstart
    · obtain ⟨j, hj, rfl⟩ := Option.map_eq_some_iff.mp h
      exact ih hj

theorem length_le_of_findSub {word text : List α} {k : ℕ} (hne : word ≠ [])
    (h : findSub word text = some k) : k + word.length ≤ text.length := by
  have hle := (findSub_spec h).length_le
  have hpos := List.length_pos_iff.mpr hne
  rw [List.length_drop] at hle
  omega

/-- A word whose first letter does not come again is found where it was put, unless the text
before it holds one. -/
theorem findSub_put {a : α} {word text : List α} (ha : a ∉ word) (hnot : ¬ a :: word <:+: text)
    (rest : List α) : findSub (a :: word) (text ++ (a :: word ++ rest)) = some text.length := by
  induction text with
  | nil => exact findSub_of_prefix (List.prefix_append _ _)
  | cons b text ih =>
    have hstart : ¬ a :: word <+: b :: (text ++ (a :: word ++ rest)) := by
      intro hlate
      by_cases hle : (a :: word).length ≤ (b :: text).length
      · have hin : a :: word <+: b :: text :=
          List.prefix_of_prefix_length_le hlate (List.prefix_append (b :: text) _) hle
        exact hnot hin.isInfix
      · -- the word would hold its own start
        have hpre : b :: (text ++ [a]) <+: a :: word := by
          apply List.prefix_of_prefix_length_le _ hlate
          · simp only [List.length_cons, List.length_append, List.length_nil] at hle ⊢
            omega
          · exact ⟨word ++ rest, by simp only [List.cons_append, List.append_assoc,
              List.nil_append]⟩
        have htail := (List.cons_prefix_cons.mp hpre).2
        exact ha (htail.subset (List.mem_append_right _ (List.mem_singleton_self a)))
    have htail := ih fun hin => hnot (hin.trans (List.suffix_cons b text).isInfix)
    rw [List.cons_append, findSub, if_neg hstart, htail]
    rfl

/-! ### A text in pieces -/

omit [DecidableEq α] in
theorem prefix_of_prefix_append_cons {word text rest : List α} {c : α} (hc : c ∉ word)
    (h : word <+: text ++ c :: rest) : word <+: text := by
  by_cases hle : word.length ≤ text.length
  · exact List.prefix_of_prefix_length_le h (List.prefix_append _ _) hle
  · have hstart : text ++ [c] <+: text ++ c :: rest :=
      ⟨rest, by rw [List.append_assoc, List.singleton_append]⟩
    have hpre : text ++ [c] <+: word := by
      apply List.prefix_of_prefix_length_le hstart h
      rw [List.length_append, List.length_singleton]
      omega
    have hmem := hpre.subset (List.mem_append_right text (List.mem_singleton_self c))
    exact absurd hmem hc

omit [DecidableEq α] in
/-- A letter outside a word parts the texts it can occur in. -/
theorem infix_parted {word : List α} {c : α} (hc : c ∉ word) (hne : word ≠ []) (x y : List α) :
    word <:+: x ++ c :: y ↔ word <:+: x ∨ word <:+: y := by
  induction x with
  | nil =>
    have hnot : ¬ word <+: c :: y := by
      intro h
      have hnil : word <+: [] := prefix_of_prefix_append_cons hc h
      exact hne (List.prefix_nil.mp hnil)
    rw [List.nil_append, List.infix_cons_iff, List.infix_nil]
    simp only [hnot, hne, false_or]
  | cons a x ih =>
    have hstart : word <+: a :: (x ++ c :: y) ↔ word <+: a :: x := by
      constructor
      · exact fun h => prefix_of_prefix_append_cons hc h
      · intro h
        exact h.trans (List.prefix_append (a :: x) (c :: y))
    rw [List.cons_append, List.infix_cons_iff, List.infix_cons_iff, ih, hstart, or_assoc]

omit [DecidableEq α] in
/-- Nothing starts in a text without the first letter of the word. -/
theorem infix_behind {word gap : List α} (hgap : ∀ a ∈ word.head?, a ∉ gap) (hne : word ≠ [])
    (text : List α) : word <:+: gap ++ text ↔ word <:+: text := by
  induction gap with
  | nil => rfl
  | cons c gap ih =>
    have hnot : ¬ word <+: c :: (gap ++ text) := by
      cases word with
      | nil => exact absurd rfl hne
      | cons a word =>
        intro h
        apply hgap a rfl
        rw [(List.cons_prefix_cons.mp h).1]
        exact List.mem_cons_self
    have htail := ih fun a ha hmem => hgap a ha (List.mem_cons_of_mem c hmem)
    rw [List.cons_append, List.infix_cons_iff, htail]
    simp only [hnot, false_or]

omit [DecidableEq α] in
/-- Nothing ends in a text without the last letter of the word. -/
theorem infix_before {word gap : List α} (hgap : ∀ z ∈ word.getLast?, z ∉ gap) (hne : word ≠ [])
    (text : List α) : word <:+: text ++ gap ↔ word <:+: text := by
  rw [← List.reverse_infix, List.reverse_append, infix_behind, List.reverse_infix]
  · intro a ha hmem
    rw [List.head?_reverse] at ha
    exact hgap a ha (List.mem_reverse.mp hmem)
  · intro h
    exact hne (List.reverse_eq_nil_iff.mp h)

/-- A text no occurrence of the word starts, ends or lies across. -/
structure Gap (word gap : List α) : Prop where
  head : ∀ a ∈ word.head?, a ∉ gap
  last : ∀ z ∈ word.getLast?, z ∉ gap
  parts : ∃ c ∈ gap, c ∉ word

omit [DecidableEq α] in
theorem infix_gap {word gap : List α} (h : Gap word gap) (hne : word ≠ []) (x y : List α) :
    word <:+: x ++ (gap ++ y) ↔ word <:+: x ∨ word <:+: y := by
  obtain ⟨c, hmem, hc⟩ := h.parts
  obtain ⟨p, q, rfl⟩ := List.append_of_mem hmem
  have hp : ∀ z ∈ word.getLast?, z ∉ p := fun z hz hin => h.last z hz (List.mem_append_left _ hin)
  have hq : ∀ a ∈ word.head?, a ∉ q := fun a ha hin =>
    h.head a ha (List.mem_append_right _ (List.mem_cons_of_mem c hin))
  have hsplit : x ++ ((p ++ c :: q) ++ y) = (x ++ p) ++ c :: (q ++ y) := by
    simp only [List.append_assoc, List.cons_append]
  rw [hsplit, infix_parted hc hne, infix_before hp hne, infix_behind hq hne]

end BigCodeAnalysis.Sequences
