import Mathlib.Data.List.TakeWhile
import Mathlib.Order.Defs.LinearOrder
import Mathlib.Order.Lattice

/-! Runs of neighbours in a list. In a list sorted by a key every key has one run, the
elements with that key. -/

namespace BigCodeAnalysis.Sequences

variable {α : Type*}

/-- `slice::chunk_by`. -/
def chunkBy (same : α → α → Bool) : List α → List (List α)
  | [] => []
  | a :: as =>
    match chunkBy same as with
    | (b :: run) :: runs =>
      if same a b then (a :: b :: run) :: runs else [a] :: (b :: run) :: runs
    | runs => [a] :: runs

section Key
variable {κ : Type*} [LinearOrder κ] (key : α → κ)

theorem chunkBy_cons (a : α) (as : List α) :
    chunkBy (fun a b => decide (key a = key b)) (a :: as) =
      (a :: as.takeWhile fun b => decide (key a = key b)) ::
        chunkBy (fun a b => decide (key a = key b))
          (as.dropWhile fun b => decide (key a = key b)) := by
  induction as generalizing a with
  | nil => rfl
  | cons b bs ih =>
    rw [chunkBy, ih b]
    dsimp only
    by_cases h : key a = key b
    · simp [h]
    · rw [if_neg (by simpa using h), List.takeWhile_cons_of_neg (by simpa using h),
        List.dropWhile_cons_of_neg (by simpa using h), ih b]

/-- In a sorted list the first run is made of all elements with the first key. -/
theorem span_sorted {a : α} {as : List α} (h : (a :: as).Pairwise fun a b => key a ≤ key b) :
    (as.takeWhile fun b => decide (key a = key b)) = as.filter (fun b => key b = key a) ∧
      (as.dropWhile fun b => decide (key a = key b)) = as.filter (fun b => key b ≠ key a) := by
  induction as with
  | nil => exact ⟨rfl, rfl⟩
  | cons b bs ih =>
    obtain ⟨hle, htail⟩ := List.pairwise_cons.mp h
    obtain ⟨hb, hbs⟩ := List.pairwise_cons.mp htail
    by_cases hab : key a = key b
    · obtain ⟨htake, hdrop⟩ :=
        ih (List.pairwise_cons.mpr ⟨fun c hc => hle c (List.mem_cons_of_mem _ hc), hbs⟩)
      simp [hab] at htake hdrop ⊢
      exact ⟨htake, hdrop⟩
    · -- every later key is above the first
      have hlt : ∀ c ∈ b :: bs, key c ≠ key a := by
        intro c hc heq
        have hbc : key b ≤ key c := by
          rcases List.mem_cons.mp hc with rfl | hc
          · exact le_rfl
          · exact hb c hc
        exact hab (le_antisymm (hle b (List.mem_cons_self ..)) (heq ▸ hbc))
      rw [List.takeWhile_cons_of_neg (by simpa using hab),
        List.dropWhile_cons_of_neg (by simpa using hab)]
      constructor
      · exact (List.filter_eq_nil_iff.mpr fun c hc => by simpa using hlt c hc).symm
      · exact (List.filter_eq_self.mpr fun c hc => by simpa using hlt c hc).symm

/-- What is done to every run of a sorted list is done, key by key, to the elements with
that key. -/
theorem filter_flatMap_chunkBy {β : Type*} (key' : β → κ) (g : List α → List β)
    (hnil : g [] = [])
    (hg : ∀ run k, (∀ a ∈ run, key a = k) → ∀ b ∈ g run, key' b = k) (k : κ) :
    ∀ n, ∀ l : List α, l.length ≤ n → (l.Pairwise fun a b => key a ≤ key b) →
      ((chunkBy (fun a b => decide (key a = key b)) l).flatMap g).filter (fun b => key' b = k) =
        g (l.filter fun a => key a = k) := by
  intro n
  induction n with
  | zero =>
    intro l hlength _
    obtain rfl := List.length_eq_zero_iff.mp (Nat.le_zero.mp hlength)
    simp [chunkBy, hnil]
  | succ n ih =>
    intro l hlength hsorted
    cases l with
    | nil => simp [chunkBy, hnil]
    | cons a as =>
      obtain ⟨htake, hdrop⟩ := span_sorted key hsorted
      have hrest : (as.filter fun b => key b ≠ key a).length ≤ n :=
        (List.length_filter_le _ _).trans (by simpa using hlength)
      have hrun : ∀ b ∈ a :: as.filter (fun b => key b = key a), key b = key a := by
        intro b hb
        rcases List.mem_cons.mp hb with rfl | hb
        · rfl
        · simpa using (List.mem_filter.mp hb).2
      rw [chunkBy_cons, htake, hdrop, List.flatMap_cons, List.filter_append,
        ih _ hrest ((List.pairwise_cons.mp hsorted).2.sublist List.filter_sublist)]
      by_cases hk : key a = k
      · subst hk
        have hnone : (as.filter fun b => key b ≠ key a).filter (fun b => key b = key a) = [] := by
          simp [List.filter_filter]
        have hall : (g (a :: as.filter fun b => key b = key a)).filter (fun b => key' b = key a) =
            g (a :: as.filter fun b => key b = key a) :=
          List.filter_eq_self.mpr fun b hb => by simpa using hg _ _ hrun b hb
        rw [hnone, hnil, List.append_nil, hall, List.filter_cons_of_pos (by simp)]
      · have hall : (g (a :: as.filter fun b => key b = key a)).filter (fun b => key' b = k) = [] :=
          List.filter_eq_nil_iff.mpr fun b hb => by simp [hg _ _ hrun b hb, hk]
        have hsame : (as.filter fun b => key b ≠ key a).filter (fun b => key b = k) =
            as.filter fun b => key b = k := by
          rw [List.filter_filter]
          apply List.filter_congr
          intro b _
          by_cases hb : key b = k
          · simp [hb, Ne.symm hk]
          · simp [hb]
        rw [hall, List.nil_append, hsame, List.filter_cons_of_neg (by simpa using hk)]

end Key

end BigCodeAnalysis.Sequences
