import Mathlib.Data.List.Count
import Mathlib.Data.List.Nodup
import Mathlib.Data.List.Range
import Mathlib.Data.Nat.Basic
import Mathlib.Logic.Function.Basic

/-! Every entry of a list with the number of its earlier occurrences. Such pairs never repeat,
and the numbers of one entry run through an interval. -/

namespace BigCodeAnalysis.Sequences

variable {α : Type*} [DecidableEq α]

/-- The entries with their ordinals, when `seen` counts the occurrences before the list. -/
def numbered (seen : α → ℕ) : List α → List (α × ℕ)
  | [] => []
  | a :: l => (a, seen a) :: numbered (Function.update seen a (seen a + 1)) l

variable (seen : α → ℕ) (l : List α)

theorem map_fst_numbered : (numbered seen l).map Prod.fst = l := by
  induction l generalizing seen with
  | nil => rfl
  | cons a l ih => rw [numbered, List.map_cons, ih]

section Count
variable [BEq α] [LawfulBEq α]

/-- The ordinal of a place counts the same entry in the places before it. -/
theorem getElem?_numbered (i : ℕ) :
    (numbered seen l)[i]? = l[i]?.map fun a => (a, seen a + (l.take i).count a) := by
  induction l generalizing seen i with
  | nil => rfl
  | cons a l ih =>
    cases i with
    | zero => simp [numbered]
    | succ i =>
      rw [numbered, List.getElem?_cons_succ, List.getElem?_cons_succ, ih]
      apply Option.map_congr
      intro b _
      rw [List.take_succ_cons, List.count_cons]
      by_cases hab : b = a
      · subst hab
        simp only [Function.update_self, beq_self_eq_true, if_true]
        exact congrArg (Prod.mk b) (by omega)
      · have hne : (a == b) = false := beq_eq_false_iff_ne.mpr (Ne.symm hab)
        simp [Function.update_of_ne hab, hne]

/-- The numbers of one entry, in order. -/
theorem filter_numbered (a : α) : (numbered seen l).filter (fun p => p.1 = a) =
    (List.range (l.count a)).map fun n => (a, seen a + n) := by
  induction l generalizing seen with
  | nil => rfl
  | cons b l ih =>
    rw [numbered, List.filter_cons, ih, List.count_cons]
    by_cases hab : b = a
    · subst hab
      simp only [decide_true, if_true, beq_self_eq_true, Function.update_self]
      rw [List.range_succ_eq_map, List.map_cons, List.map_map, Nat.add_zero]
      congr 1
      apply List.map_congr_left
      intro n _
      exact congrArg (Prod.mk b) (by simp only [Nat.succ_eq_add_one]; omega)
    · have hne : (b == a) = false := beq_eq_false_iff_ne.mpr hab
      simp [hab, hne, Function.update_of_ne (Ne.symm hab)]

theorem mem_numbered {p : α × ℕ} (h : p ∈ numbered seen l) :
    p.1 ∈ l ∧ seen p.1 ≤ p.2 ∧ p.2 < seen p.1 + l.count p.1 := by
  refine ⟨?_, ?_⟩
  · have hfst := List.mem_map_of_mem (f := Prod.fst) h
    rwa [map_fst_numbered] at hfst
  · have hfilter : p ∈ (numbered seen l).filter (fun q => q.1 = p.1) :=
      List.mem_filter.mpr ⟨h, decide_eq_true rfl⟩
    rw [filter_numbered] at hfilter
    obtain ⟨n, hn, hp⟩ := List.mem_map.mp hfilter
    have hlt := List.mem_range.mp hn
    have hsnd : seen p.1 + n = p.2 := congrArg Prod.snd hp
    omega

end Count

theorem nodup_numbered : (numbered seen l).Nodup := by
  induction l generalizing seen with
  | nil => exact List.nodup_nil
  | cons a l ih =>
    refine List.nodup_cons.mpr ⟨?_, ih _⟩
    intro hmem
    have hle := (mem_numbered _ l hmem).2.1
    simp only [Function.update_self] at hle
    omega

end BigCodeAnalysis.Sequences
