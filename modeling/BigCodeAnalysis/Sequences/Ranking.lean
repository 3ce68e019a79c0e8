import Mathlib.Data.List.Sort
import Mathlib.Order.Compare

/-! Choosing by a comparison: the first of the smallest elements of a list, the last of the
greatest, and the order of a sort. What is chosen is extreme whenever the comparison is that of
keys in a linear order. Insertion sort keeps what a filter keeps, so the first element of a sorted
list with some property is the least of those that have it. -/

namespace BigCodeAnalysis.Sequences

variable {α κ : Type*} [LinearOrder κ]

/-! ### The first of the smallest -/

/-- `Iterator::min_by`: the first of the smallest elements. -/
def minBy (compare : α → α → Ordering) : List α → Option α
  | [] => none
  | a :: as => some (as.foldl (fun best x => if compare best x = .gt then x else best) a)

section MinBy
variable (compare : α → α → Ordering)

theorem minBy_spec (htotal : ∀ a b, compare a b = .gt → compare b a ≠ .gt)
    (htrans : ∀ a b c, compare a b ≠ .gt → compare b c ≠ .gt → compare a c ≠ .gt)
    (hrefl : ∀ a, compare a a ≠ .gt) (a : α) (as : List α) :
    ∃ m ∈ a :: as, minBy compare (a :: as) = some m ∧ ∀ x ∈ a :: as, compare m x ≠ .gt := by
  induction as generalizing a with
  | nil => exact ⟨a, List.mem_cons_self .., rfl, by simpa using hrefl a⟩
  | cons b as ih =>
    have hstep : minBy compare (a :: b :: as) =
        minBy compare ((if compare a b = .gt then b else a) :: as) := rfl
    obtain ⟨m, hmem, hm, hle⟩ := ih (if compare a b = .gt then b else a)
    have hhead := hle _ (List.mem_cons_self ..)
    rw [hstep, hm]
    refine ⟨m, ?_, rfl, ?_⟩
    · rcases List.mem_cons.mp hmem with rfl | hmem
      · split_ifs
        · exact List.mem_cons_of_mem _ (List.mem_cons_self ..)
        · exact List.mem_cons_self ..
      · exact List.mem_cons_of_mem _ (List.mem_cons_of_mem _ hmem)
    · have hboth : compare m a ≠ .gt ∧ compare m b ≠ .gt := by
        by_cases hab : compare a b = .gt
        · rw [if_pos hab] at hhead
          exact ⟨htrans _ _ _ hhead (htotal _ _ hab), hhead⟩
        · rw [if_neg hab] at hhead
          exact ⟨hhead, htrans _ _ _ hhead hab⟩
      intro x hx
      rcases List.mem_cons.mp hx with rfl | hx
      · exact hboth.1
      · rcases List.mem_cons.mp hx with rfl | hx
        · exact hboth.2
        · exact hle x (List.mem_cons_of_mem _ hx)

end MinBy

/-! ### The last of the greatest -/

theorem cmp_dual (a b : κ) : cmp (OrderDual.toDual a) (OrderDual.toDual b) = cmp b a := by
  rcases lt_trichotomy a b with h | rfl | h
  · rw [h.cmp_eq_gt]
    exact (OrderDual.toDual_lt_toDual.mpr h).cmp_eq_gt
  · rw [cmp_self_eq_eq, cmp_self_eq_eq]
  · rw [h.cmp_eq_lt]
    exact (OrderDual.toDual_lt_toDual.mpr h).cmp_eq_lt

/-- `Iterator::max_by`: the last of the greatest elements. -/
def maxBy (compare : α → α → Ordering) : List α → Option α
  | [] => none
  | a :: as => some (as.foldl (fun best x => if compare best x = .gt then best else x) a)

section MaxBy
variable {compare : α → α → Ordering} {key : α → κ}

theorem foldl_max_spec (hkey : ∀ a b, compare a b = cmp (key a) (key b)) (as : List α) (a : α) :
    let m := as.foldl (fun best x => if compare best x = .gt then best else x) a
    m ∈ a :: as ∧ ∀ x ∈ a :: as, key x ≤ key m := by
  induction as generalizing a with
  | nil => simp
  | cons b as ih =>
    obtain ⟨hmem, hmax⟩ := ih (if compare a b = .gt then a else b)
    have hgt : compare a b = .gt ↔ key b < key a := by rw [hkey, cmp_eq_gt_iff]
    have hhead := hmax _ List.mem_cons_self
    rw [List.foldl_cons]
    by_cases h : compare a b = .gt
    · rw [if_pos h] at hmem hmax hhead ⊢
      refine ⟨?_, ?_⟩
      · rcases List.mem_cons.mp hmem with heq | hmem
        · rw [heq]
          exact List.mem_cons_self
        · exact List.mem_cons_of_mem _ (List.mem_cons_of_mem _ hmem)
      · intro x hx
        rcases List.mem_cons.mp hx with rfl | hx
        · exact hhead
        · rcases List.mem_cons.mp hx with rfl | hx
          · exact (hgt.mp h).le.trans hhead
          · exact hmax x (List.mem_cons_of_mem _ hx)
    · rw [if_neg h] at hmem hmax hhead ⊢
      have hle : key a ≤ key b := not_lt.mp fun hlt => h (hgt.mpr hlt)
      refine ⟨List.mem_cons_of_mem _ hmem, ?_⟩
      intro x hx
      rcases List.mem_cons.mp hx with rfl | hx
      · exact hle.trans hhead
      · exact hmax x hx

theorem maxBy_spec (hkey : ∀ a b, compare a b = cmp (key a) (key b)) {l : List α} {m : α}
    (h : maxBy compare l = some m) : m ∈ l ∧ ∀ x ∈ l, key x ≤ key m := by
  cases l with
  | nil => cases h
  | cons a as =>
    obtain rfl := Option.some.inj h
    exact foldl_max_spec hkey as a

theorem maxBy_eq_none {l : List α} : maxBy compare l = none ↔ l = [] := by
  cases l with
  | nil => simp [maxBy]
  | cons a as => simp [maxBy]

/-- A greatest element that comes last is the one that is picked. -/
theorem maxBy_concat (hkey : ∀ a b, compare a b = cmp (key a) (key b)) {l : List α} {m : α}
    (h : ∀ x ∈ l, key x ≤ key m) : maxBy compare (l ++ [m]) = some m := by
  cases l with
  | nil => rfl
  | cons a as =>
    have hbest := (foldl_max_spec hkey as a).1
    have hne : compare (as.foldl (fun best x => if compare best x = .gt then best else x) a) m ≠
        .gt := by
      rw [hkey, Ne, cmp_eq_gt_iff, not_lt]
      exact h _ hbest
    simp only [List.cons_append, maxBy, List.foldl_append, List.foldl_cons, List.foldl_nil,
      if_neg hne]

end MaxBy

/-! ### Sorting and filtering -/

section Insertion
variable (r : α → α → Prop) [DecidableRel r] [IsTrans α r]

theorem filter_orderedInsert (p : α → Bool) (a : α) {l : List α} (h : l.Pairwise r) :
    (l.orderedInsert r a).filter p =
      if p a then (l.filter p).orderedInsert r a else l.filter p := by
  induction l with
  | nil => by_cases ha : p a <;> simp [ha]
  | cons b l ih =>
    obtain ⟨hb, hl⟩ := List.pairwise_cons.mp h
    by_cases hab : r a b
    · rw [List.orderedInsert_cons, if_pos hab]
      by_cases ha : p a
      · rw [List.filter_cons_of_pos ha, if_pos ha]
        -- the new element stands before everything that is kept
        rcases hkept : (b :: l).filter p with _ | ⟨c, kept⟩
        · rfl
        · have hc : c ∈ (b :: l).filter p := hkept ▸ List.mem_cons_self ..
          have hac : r a c := by
            rcases List.mem_cons.mp (List.mem_of_mem_filter hc) with rfl | hc
            · exact hab
            · exact IsTrans.trans a b c hab (hb c hc)
          rw [List.orderedInsert_cons, if_pos hac]
      · rw [List.filter_cons_of_neg ha, if_neg ha]
    · rw [List.orderedInsert_cons, if_neg hab]
      by_cases hpb : p b
      · rw [List.filter_cons_of_pos hpb, ih hl, List.filter_cons_of_pos hpb,
          List.orderedInsert_cons, if_neg hab]
        split_ifs <;> rfl
      · rw [List.filter_cons_of_neg hpb, ih hl, List.filter_cons_of_neg hpb]

theorem filter_insertionSort [Std.Total r] (p : α → Bool) (l : List α) :
    (l.insertionSort r).filter p = (l.filter p).insertionSort r := by
  induction l with
  | nil => rfl
  | cons a l ih =>
    rw [List.insertionSort_cons, filter_orderedInsert r p a (List.pairwise_insertionSort r l), ih]
    by_cases ha : p a
    · rw [if_pos ha, List.filter_cons_of_pos ha, List.insertionSort_cons]
    · rw [if_neg ha, List.filter_cons_of_neg ha]

end Insertion

/-- The order of `sort_by`. -/
def Before (compare : α → α → Ordering) (a b : α) : Prop := compare a b ≠ .gt

instance (compare : α → α → Ordering) : DecidableRel (Before compare) :=
  fun a b => inferInstanceAs (Decidable (compare a b ≠ .gt))

section Sorted
variable {compare : α → α → Ordering} {key : α → κ}

theorem before_iff (hkey : ∀ a b, compare a b = cmp (key a) (key b)) {a b : α} :
    Before compare a b ↔ key a ≤ key b := by
  rw [Before, hkey, Ne, cmp_eq_gt_iff, not_lt]

/-- The first row of a sorted list that satisfies `p` is least among those that do. -/
theorem find?_insertionSort_spec (hkey : ∀ a b, compare a b = cmp (key a) (key b)) {p : α → Bool}
    {l : List α} {m : α} (h : (l.insertionSort (Before compare)).find? p = some m) :
    m ∈ l.filter p ∧ ∀ x ∈ l.filter p, key m ≤ key x := by
  have : IsTrans α (Before compare) := ⟨fun a b c hab hbc =>
    (before_iff hkey).mpr (((before_iff hkey).mp hab).trans ((before_iff hkey).mp hbc))⟩
  have : Std.Total (Before compare) := ⟨fun a b =>
    (le_total (key a) (key b)).imp (before_iff hkey).mpr (before_iff hkey).mpr⟩
  have hhead : ((l.filter p).insertionSort (Before compare)).head? = some m := by
    rw [← filter_insertionSort, List.head?_filter, h]
  have hsorted := List.pairwise_insertionSort (Before compare) (l.filter p)
  have hmem : ∀ x, x ∈ (l.filter p).insertionSort (Before compare) ↔ x ∈ l.filter p :=
    fun x => List.mem_insertionSort _
  cases hl : (l.filter p).insertionSort (Before compare) with
  | nil =>
    rw [hl] at hhead
    cases hhead
  | cons a as =>
    rw [hl] at hhead hsorted hmem
    obtain rfl := Option.some.inj hhead
    refine ⟨(hmem a).mp List.mem_cons_self, ?_⟩
    intro x hx
    rcases List.mem_cons.mp ((hmem x).mpr hx) with rfl | hx
    · exact le_rfl
    · exact (before_iff hkey).mp (List.rel_of_pairwise_cons hsorted hx)

end Sorted

end BigCodeAnalysis.Sequences
