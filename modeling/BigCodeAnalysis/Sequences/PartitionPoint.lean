import Mathlib.Data.List.Basic
import Mathlib.Data.Nat.Notation

/-! Binary search for the border of a list whose elements with a property all come
first. On such a list the border is the number of elements with the property. -/

namespace BigCodeAnalysis.Sequences

variable {α : Type*} {p : α → Bool} {l : List α}

/-- The window `base, size` is halved until one place is left; it keeps its upper half
where that begins on an element with the property. -/
def halve (p : α → Bool) (l : List α) : ℕ → ℕ → ℕ → ℕ
  | 0, base, _ => base
  | fuel + 1, base, size =>
    if size ≤ 1 then base
    else
      let half := size / 2
      halve p l fuel (if (l[base + half]?).any p then base + half else base) (size - half)

/-- `slice::partition_point`. -/
def partitionPoint (p : α → Bool) (l : List α) : ℕ :=
  let base := halve p l l.length 0 l.length
  if (l[base]?).any p then base + 1 else base

/-- The elements with the property all come first. -/
def Partitioned (p : α → Bool) (l : List α) : Prop :=
  l.Pairwise fun a b => p b = true → p a = true

theorem Partitioned.countP_eq_zero {a : α} (h : Partitioned p (a :: l)) (ha : p a = false) :
    l.countP p = 0 := by
  have hrest := (List.pairwise_cons.mp h).1
  rw [List.countP_eq_zero]
  intro b hb hpb
  have hpa := hrest b hb hpb
  rw [ha] at hpa
  cases hpa

theorem Partitioned.any_getElem? (h : Partitioned p l) (i : ℕ) :
    (l[i]?).any p = true ↔ i < l.countP p := by
  induction l generalizing i with
  | nil => simp
  | cons a l ih =>
    have htail := (List.pairwise_cons.mp h).2
    cases ha : p a with
    | true =>
      rw [List.countP_cons_of_pos ha]
      cases i with
      | zero => simp [ha]
      | succ i =>
        rw [List.getElem?_cons_succ, ih htail]
        omega
    | false =>
      have hzero := h.countP_eq_zero ha
      rw [List.countP_cons_of_neg (by simp [ha]), hzero]
      cases i with
      | zero => simp [ha]
      | succ i =>
        rw [List.getElem?_cons_succ, ih htail, hzero]
        omega

/-- The window always ends behind the border and begins at the start or before the
border. -/
theorem halve_spec (h : Partitioned p l) (fuel : ℕ) : ∀ base size,
    0 < size → size ≤ fuel → (base = 0 ∨ base < l.countP p) → l.countP p ≤ base + size →
    (halve p l fuel base size = 0 ∨ halve p l fuel base size < l.countP p) ∧
      l.countP p ≤ halve p l fuel base size + 1 := by
  induction fuel with
  | zero =>
    intro base size hpos hfuel
    omega
  | succ fuel ih =>
    intro base size hpos hfuel hbase hborder
    rw [halve]
    by_cases hone : size ≤ 1
    · rw [if_pos hone]
      exact ⟨hbase, by omega⟩
    rw [if_neg hone]
    have hany := h.any_getElem? (base + size / 2)
    dsimp only
    by_cases hmid : (l[base + size / 2]?).any p = true
    · rw [if_pos hmid]
      have hlt := hany.mp hmid
      exact ih _ _ (by omega) (by omega) (.inr hlt) (by omega)
    · rw [if_neg hmid]
      have hge := mt hany.mpr hmid
      exact ih _ _ (by omega) (by omega) hbase (by omega)

theorem partitionPoint_eq (h : Partitioned p l) : partitionPoint p l = l.countP p := by
  cases l with
  | nil => rfl
  | cons a l =>
    have hlen : (a :: l).countP p ≤ 0 + (a :: l).length := by
      have := List.countP_le_length (p := p) (l := a :: l)
      omega
    obtain ⟨hbase, hborder⟩ := halve_spec h (a :: l).length 0 (a :: l).length (by simp) (Nat.le_refl _)
      (.inl rfl) hlen
    have hany := h.any_getElem? (halve p (a :: l) (a :: l).length 0 (a :: l).length)
    unfold partitionPoint
    dsimp only
    split_ifs with hp
    · have := hany.mp hp
      omega
    · have := mt hany.mpr hp
      omega

/-- On a sorted list, what is downward closed comes first. -/
theorem Partitioned.of_sorted {r : α → α → Prop} (h : l.Pairwise r)
    (hp : ∀ a b, r a b → p b = true → p a = true) : Partitioned p l :=
  h.imp fun hab => hp _ _ hab

/-- What lies before the border has the property and the rest does not. -/
theorem Partitioned.split (h : Partitioned p l) :
    l.take (l.countP p) = l.filter p ∧ l.drop (l.countP p) = l.filter fun a => !p a := by
  induction l with
  | nil => exact ⟨rfl, rfl⟩
  | cons a l ih =>
    obtain ⟨htake, hdrop⟩ := ih (List.pairwise_cons.mp h).2
    cases ha : p a with
    | true =>
      rw [List.countP_cons_of_pos ha, List.take_succ_cons, List.drop_succ_cons, htake, hdrop,
        List.filter_cons_of_pos ha, List.filter_cons_of_neg (by simp [ha])]
      exact ⟨rfl, rfl⟩
    | false =>
      have hzero := h.countP_eq_zero ha
      have hnone := List.countP_eq_zero.mp hzero
      rw [List.countP_cons_of_neg (by simp [ha]), hzero, List.take_zero, List.drop_zero,
        List.filter_cons_of_neg (by simp [ha]), List.filter_cons_of_pos (by simp [ha])]
      constructor
      · exact (List.filter_eq_nil_iff.mpr hnone).symm
      · congr 1
        exact (List.filter_eq_self.mpr fun b hb => by simpa using hnone b hb).symm

/-- Counts add where each element counts on one side. -/
theorem countP_add {q r : α → Bool} (h : ∀ a, (r a).toNat = (p a).toNat + (q a).toNat)
    (l : List α) : l.countP r = l.countP p + l.countP q := by
  induction l with
  | nil => rfl
  | cons a l ih =>
    have ha := h a
    rw [List.countP_cons, List.countP_cons, List.countP_cons, ih]
    cases hp : p a <;> cases hq : q a <;> cases hr : r a <;> simp [hp, hq, hr] at ha ⊢ <;> omega

end BigCodeAnalysis.Sequences
