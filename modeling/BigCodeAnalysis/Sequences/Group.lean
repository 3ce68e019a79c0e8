import Mathlib.Data.List.Dedup
import Mathlib.Data.List.Sort

/-! Lists split by a key. The keys are listed once and in order; the groups together are the
list again, and two sides of a group are paired by rank. -/

namespace BigCodeAnalysis.Sequences

variable {α κ : Type*} [LinearOrder κ] (key : α → κ)

/-- The keys of a list, in order and once each. -/
def keysOf (l : List α) : List κ := (l.map key).dedup.insertionSort (· ≤ ·)

theorem mem_keysOf {l : List α} {k : κ} : k ∈ keysOf key l ↔ ∃ a ∈ l, key a = k := by
  rw [keysOf, List.mem_insertionSort, List.mem_dedup, List.mem_map]

theorem nodup_keysOf (l : List α) : (keysOf key l).Nodup :=
  (List.perm_insertionSort _ _).nodup_iff.mpr (List.nodup_dedup _)

theorem sorted_keysOf (l : List α) : (keysOf key l).Pairwise (· ≤ ·) :=
  List.pairwise_insertionSort _ _

/-- The listed keys depend on the keys that occur alone. -/
theorem keysOf_congr {l l' : List α} (h : ∀ k, (∃ a ∈ l, key a = k) ↔ ∃ a ∈ l', key a = k) :
    keysOf key l = keysOf key l' := by
  have hperm : (keysOf key l).Perm (keysOf key l') := by
    rw [List.perm_ext_iff_of_nodup (nodup_keysOf key l) (nodup_keysOf key l')]
    intro k
    rw [mem_keysOf, mem_keysOf, h]
  exact hperm.eq_of_pairwise (fun _ _ _ _ => le_antisymm) (sorted_keysOf key l)
    (sorted_keysOf key l')

/-- The groups of distinct keys make up the elements with one of these keys. -/
theorem flatMap_filter_perm (l : List α) : ∀ keys : List κ, keys.Nodup →
    (keys.flatMap fun k => l.filter fun a => key a = k).Perm
      (l.filter fun a => key a ∈ keys) := by
  intro keys
  induction keys with
  | nil => intro _; simp
  | cons k ks ih =>
    intro hnodup
    obtain ⟨hk, hks⟩ := List.nodup_cons.mp hnodup
    rw [List.flatMap_cons]
    refine ((ih hks).append_left _).trans ?_
    -- the elements with a listed key are those with the first key and the rest
    have hfirst : (l.filter fun a => key a ∈ k :: ks).filter (fun a => key a = k) =
        l.filter fun a => key a = k := by
      rw [List.filter_filter]
      apply List.filter_congr
      intro a _
      by_cases h : key a = k <;> simp [h]
    have hrest : (l.filter fun a => key a ∈ k :: ks).filter (fun a => !(key a = k : Bool)) =
        l.filter fun a => key a ∈ ks := by
      rw [List.filter_filter]
      apply List.filter_congr
      intro a _
      by_cases h : key a = k
      · simp [h, hk]
      · simp [h]
    have hsplit := List.filter_append_perm (fun a => decide (key a = k))
      (l.filter fun a => key a ∈ k :: ks)
    rw [hfirst, hrest] at hsplit
    exact hsplit

theorem flatMap_filter_keysOf {l m : List α} (h : ∀ a ∈ l, a ∈ m) :
    ((keysOf key m).flatMap fun k => l.filter fun a => key a = k).Perm l := by
  have hall : (l.filter fun a => key a ∈ keysOf key m) = l := by
    apply List.filter_eq_self.mpr
    intro a ha
    simpa using (mem_keysOf key).mpr ⟨a, h a ha, rfl⟩
  have hperm := flatMap_filter_perm key l (keysOf key m) (nodup_keysOf key m)
  rwa [hall] at hperm

/-! ### Pairing by rank -/

theorem map_fst_zip_append {β : Type*} (xs : List α) (ys : List β) :
    (xs.zip ys).map Prod.fst ++ xs.drop (min xs.length ys.length) = xs := by
  induction xs generalizing ys with
  | nil => rfl
  | cons x xs ih =>
    cases ys with
    | nil => rfl
    | cons y ys => simp [Nat.succ_min_succ, ih ys]

end BigCodeAnalysis.Sequences
