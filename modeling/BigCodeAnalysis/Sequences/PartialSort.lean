import BigCodeAnalysis.Sequences.Ranking
import Mathlib.Data.List.Perm.Basic

/-! The first rows of a sorted list, from a partition around one of them and a sort of what the
partition put first. The partition is not stable: it may pick any of the rows that tie. What is
read off the rows is the same as off a full sort just when rows that tie read alike. -/

namespace BigCodeAnalysis.Sequences

variable {α β κ : Type*} [LinearOrder κ]

/-- `select_nth_unstable_by`: a reordering with the row of rank `n` in its place, none that comes
after it before it and none that comes before it after. -/
structure SelectNth (α : Type*) where
  run : (α → α → Ordering) → ℕ → List α → List α
  perm : ∀ compare n l, (run compare n l).Perm l
  split : ∀ compare, (∀ a b, Before compare a b ∨ Before compare b a) →
    (∀ a b c, Before compare a b → Before compare b c → Before compare a c) →
    ∀ n l, ∀ x ∈ (run compare n l)[n]?,
      (∀ a ∈ (run compare n l).take n, Before compare a x) ∧
        ∀ b ∈ (run compare n l).drop (n + 1), Before compare x b

/-- The first `n` rows of the sorted list. -/
def SelectNth.partialSort (select : SelectNth α) (compare : α → α → Ordering) (n : ℕ)
    (l : List α) : List α :=
  (if n < l.length then (select.run compare (n - 1) l).take n else l).insertionSort
    (Before compare)

theorem SelectNth.partialSort_nil (select : SelectNth α) (compare : α → α → Ordering) (n : ℕ) :
    select.partialSort compare n [] = [] := by
  have hnone : ¬n < ([] : List α).length := Nat.not_lt_zero n
  rw [SelectNth.partialSort, if_neg hnone]
  rfl

theorem SelectNth.length_partialSort (select : SelectNth α) (compare : α → α → Ordering) (n : ℕ)
    (l : List α) : (select.partialSort compare n l).length = min n l.length := by
  rw [SelectNth.partialSort, List.length_insertionSort]
  split_ifs with h
  · rw [List.length_take, (select.perm compare (n - 1) l).length_eq]
  · omega

section Keys
variable {compare : α → α → Ordering} {key : α → κ}

theorem total_before (hkey : ∀ a b, compare a b = cmp (key a) (key b)) (a b : α) :
    Before compare a b ∨ Before compare b a :=
  (le_total (key a) (key b)).imp (before_iff hkey).mpr (before_iff hkey).mpr

theorem trans_before (hkey : ∀ a b, compare a b = cmp (key a) (key b)) (a b c : α)
    (hab : Before compare a b) (hbc : Before compare b c) : Before compare a c :=
  (before_iff hkey).mpr (((before_iff hkey).mp hab).trans ((before_iff hkey).mp hbc))

theorem pairwise_key_sort (hkey : ∀ a b, compare a b = cmp (key a) (key b)) (l : List α) :
    ((l.insertionSort (Before compare)).map key).Pairwise (· ≤ ·) := by
  have : IsTrans α (Before compare) := ⟨trans_before hkey⟩
  have : Std.Total (Before compare) := ⟨total_before hkey⟩
  rw [List.pairwise_map]
  exact (List.pairwise_insertionSort (Before compare) l).imp (before_iff hkey).mp

/-- The keys of a sorted list are fixed by its rows. -/
theorem keys_sort_eq (hkey : ∀ a b, compare a b = cmp (key a) (key b)) {l sorted : List α}
    (hperm : sorted.Perm l) (hsorted : (sorted.map key).Pairwise (· ≤ ·)) :
    sorted.map key = (l.insertionSort (Before compare)).map key := by
  refine List.Perm.eq_of_pairwise' (r := (· ≤ ·)) hsorted (pairwise_key_sort hkey l) ?_
  exact ((hperm.trans (List.perm_insertionSort _ l).symm).map key)

/-- A partition at the last row kept leaves the keys that a full sort puts first. -/
theorem keys_partialSort (hkey : ∀ a b, compare a b = cmp (key a) (key b))
    (select : SelectNth α) {n : ℕ} (hn : 0 < n) (l : List α) :
    (select.partialSort compare n l).map key =
      ((l.insertionSort (Before compare)).map key).take n := by
  rw [SelectNth.partialSort]
  split_ifs with hlt
  · have hperm := select.perm compare (n - 1) l
    generalize hrun : select.run compare (n - 1) l = run at *
    have hin : n - 1 < run.length := by
      rw [hperm.length_eq]
      omega
    obtain ⟨hbefore, hafter⟩ := select.split compare (total_before hkey) (trans_before hkey) (n - 1)
      l run[n - 1] (by rw [hrun, List.getElem?_eq_getElem hin]; rfl)
    rw [hrun] at hbefore hafter
    have hpred : n - 1 + 1 = n := by omega
    rw [hpred] at hafter
    have htake : run.take n = run.take (n - 1) ++ [run[n - 1]] := by
      rw [← List.take_succ_eq_append_getElem hin, hpred]
    have hfront : ∀ a ∈ run.take n, key a ≤ key run[n - 1] := by
      intro a ha
      rw [htake] at ha
      rcases List.mem_append.mp ha with ha | ha
      · exact (before_iff hkey).mp (hbefore a ha)
      · rw [List.mem_singleton.mp ha]
    have hsorted : (((run.take n).insertionSort (Before compare) ++
        (run.drop n).insertionSort (Before compare)).map key).Pairwise (· ≤ ·) := by
      rw [List.map_append, List.pairwise_append]
      refine ⟨pairwise_key_sort hkey _, pairwise_key_sort hkey _, fun u hu v hv => ?_⟩
      obtain ⟨a, ha, rfl⟩ := List.mem_map.mp hu
      obtain ⟨b, hb, rfl⟩ := List.mem_map.mp hv
      rw [List.mem_insertionSort] at ha hb
      exact (hfront a ha).trans ((before_iff hkey).mp (hafter b hb))
    have hall : ((run.take n).insertionSort (Before compare) ++
        (run.drop n).insertionSort (Before compare)).Perm l := by
      refine ((List.perm_insertionSort _ _).append (List.perm_insertionSort _ _)).trans ?_
      rw [List.take_append_drop]
      exact hperm
    have hlength : (((run.take n).insertionSort (Before compare)).map key).length = n := by
      rw [List.length_map, List.length_insertionSort, List.length_take]
      omega
    rw [← keys_sort_eq hkey hall hsorted, List.map_append, List.take_append_of_le_length hlength.ge,
      List.take_of_length_le hlength.le]
  · rw [List.take_of_length_le]
    rw [List.length_map, List.length_insertionSort]
    omega

theorem mem_partialSort (select : SelectNth α) {n : ℕ} {l : List α} {a : α}
    (h : a ∈ select.partialSort compare n l) : a ∈ l := by
  rw [SelectNth.partialSort, List.mem_insertionSort] at h
  split_ifs at h
  · exact (select.perm compare (n - 1) l).subset (List.mem_of_mem_take h)
  · exact h

omit [LinearOrder κ] in
/-- Lists with the same keys read alike, where rows with the same key do. -/
theorem map_eq_of_keys {f : α → β} {l : List α}
    (hties : ∀ a ∈ l, ∀ b ∈ l, key a = key b → f a = f b) :
    ∀ {xs ys : List α}, (∀ x ∈ xs, x ∈ l) → (∀ y ∈ ys, y ∈ l) → xs.map key = ys.map key →
      xs.map f = ys.map f
  | [], ys, _, _, hkeys => by
    rw [List.map_nil, eq_comm, List.map_eq_nil_iff] at hkeys
    rw [hkeys]
  | x :: xs, ys, hxs, hys, hkeys => by
    obtain ⟨y, ys, rfl⟩ := List.exists_cons_of_ne_nil
      (fun hnil : ys = [] => by simp [hnil] at hkeys)
    obtain ⟨hhead, htail⟩ := List.cons_eq_cons.mp hkeys
    rw [List.map_cons, List.map_cons, hties x (hxs x List.mem_cons_self) y
      (hys y List.mem_cons_self) hhead, map_eq_of_keys hties
      (fun x hx => hxs x (List.mem_cons_of_mem _ hx))
      (fun y hy => hys y (List.mem_cons_of_mem _ hy)) htail]

/-- The first of the rows with a key, as a sort finds them. -/
theorem find?_sort_of_key [DecidableEq κ] (hkey : ∀ a b, compare a b = cmp (key a) (key b)) (a : α)
    (l : List α) :
    ((a :: l).insertionSort (Before compare)).find? (fun x => key x = key a) = some a := by
  have : IsTrans α (Before compare) := ⟨trans_before hkey⟩
  have : Std.Total (Before compare) := ⟨total_before hkey⟩
  rw [← List.head?_filter, filter_insertionSort, List.filter_cons_of_pos (by simp),
    List.insertionSort_cons]
  cases hrest : (l.filter fun x => decide (key x = key a)).insertionSort (Before compare) with
  | nil => rfl
  | cons b rest =>
    have hb : b ∈ l.filter fun x => decide (key x = key a) := by
      rw [← List.mem_insertionSort (Before compare), hrest]
      exact List.mem_cons_self
    have hkeyb : key b = key a := by simpa using (List.mem_filter.mp hb).2
    rw [List.orderedInsert_cons, if_pos ((before_iff hkey).mpr hkeyb.ge)]
    rfl

/-- A sort that reads the same in every order of the rows reads rows that tie alike. -/
theorem ties_of_sort_perm [DecidableEq κ] (hkey : ∀ a b, compare a b = cmp (key a) (key b))
    {f : α → β} {l : List α} (h : ∀ l' : List α, l'.Perm l →
      (l'.insertionSort (Before compare)).map f = (l.insertionSort (Before compare)).map f)
    {a b : α} (ha : a ∈ l) (hb : b ∈ l) (htie : key a = key b) : f a = f b := by
  have hfirst : ∀ {x : α}, x ∈ l → key x = key a →
      (((l.insertionSort (Before compare)).map fun x => (key x, f x)).find?
        fun p => p.1 = key a) = some (key a, f x) := by
    intro x hx hxa
    obtain ⟨before, after, rfl⟩ := List.append_of_mem hx
    have hperm : (x :: (before ++ after)).Perm (before ++ x :: after) := List.perm_middle.symm
    have hkeys := keys_sort_eq hkey ((List.perm_insertionSort (Before compare) _).trans hperm)
      (pairwise_key_sort hkey _)
    have hpairs : ∀ xs : List α, (xs.map fun x => (key x, f x)) = (xs.map key).zip (xs.map f) :=
      fun xs => List.zip_map'.symm
    rw [hpairs, ← hkeys, ← h _ hperm, ← hpairs, List.find?_map, ← hxa]
    exact congrArg (Option.map _) (find?_sort_of_key hkey x _)
  have hsame := (hfirst ha rfl).symm.trans (hfirst hb htie.symm)
  exact (Prod.mk.inj (Option.some_inj.mp hsame)).2

end Keys

/-- A full sort is such a partition. -/
def SelectNth.ofSort : SelectNth α where
  run compare _ l := l.insertionSort (Before compare)
  perm compare _ l := List.perm_insertionSort (Before compare) l
  split compare htotal htrans n l x hx := by
    have : IsTrans α (Before compare) := ⟨htrans⟩
    have : Std.Total (Before compare) := ⟨htotal⟩
    have hsorted := List.pairwise_insertionSort (Before compare) l
    obtain ⟨hn, rfl⟩ := List.getElem?_eq_some_iff.mp hx
    rw [← List.take_append_drop n (l.insertionSort (Before compare)), List.pairwise_append] at hsorted
    obtain ⟨-, hrest, hacross⟩ := hsorted
    rw [List.drop_eq_getElem_cons hn] at hrest hacross
    exact ⟨fun a ha => hacross a ha _ List.mem_cons_self, (List.pairwise_cons.mp hrest).1⟩

end BigCodeAnalysis.Sequences
