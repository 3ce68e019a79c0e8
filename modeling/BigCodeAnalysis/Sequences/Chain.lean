import Mathlib.Data.Finset.Insert

/-! The chain of a partial function. A walk along it keeps the elements it has left and
stops at the end of the chain, at the first element it meets again, or when its budget is
spent. -/

namespace BigCodeAnalysis.Sequences

variable {α : Type*} (next : α → Option α)

/-- From `x` the chain leads over the elements `xs` to `z`, `x` among them and `z` not. -/
inductive Leads : α → List α → α → Prop
  | here (x : α) : Leads x [] x
  | step {x y z : α} {xs : List α} (h : next x = some y) (rest : Leads y xs z) :
      Leads x (x :: xs) z

/-- The walk from `x` with budget `n` ends at `z`. -/
def Rests (n : ℕ) (x z : α) : Prop :=
  ∃ xs, Leads next x xs z ∧ xs.Nodup ∧ xs.length ≤ n ∧
    (z ∈ xs ∨ next z = none ∨ xs.length = n)

variable [DecidableEq α]

def follow : ℕ → Finset α → α → α
  | 0, _, current => current
  | n + 1, visited, current =>
    if current ∈ visited then current
    else
      match next current with
      | some succ => follow n (insert current visited) succ
      | none => current

/-- The walk ends where the chain comes to rest. -/
theorem follow_of_leads {x z : α} {xs : List α} (h : Leads next x xs z) :
    ∀ n visited, xs.Nodup → (∀ y ∈ xs, y ∉ visited) → xs.length ≤ n →
      (z ∈ visited ∨ z ∈ xs ∨ next z = none ∨ xs.length = n) → follow next n visited x = z := by
  induction h with
  | here x =>
    intro n visited _ _ _ hrest
    cases n with
    | zero => rfl
    | succ n =>
      rw [follow]
      split_ifs with hmem
      · rfl
      · have hnone : next x = none := by simpa [hmem] using hrest
        rw [hnone]
  | @step x y z xs hnext _ ih =>
    intro n visited hnodup hfresh hlength hrest
    obtain ⟨hx, hnodup⟩ := List.nodup_cons.mp hnodup
    obtain ⟨n, rfl⟩ : ∃ m, n = m + 1 := ⟨n - 1, by simp only [List.length_cons] at hlength; omega⟩
    have hvisited : x ∉ visited := hfresh x (List.mem_cons_self ..)
    rw [follow, if_neg hvisited, hnext]
    apply ih n (insert x visited) hnodup
    · intro w hw hmem
      rcases Finset.mem_insert.mp hmem with rfl | hmem
      · exact hx hw
      · exact hfresh w (List.mem_cons_of_mem _ hw) hmem
    · simpa using hlength
    · rcases hrest with h | h | h | h
      · exact .inl (Finset.mem_insert_of_mem h)
      · rcases List.mem_cons.mp h with rfl | h
        · exact .inl (Finset.mem_insert_self ..)
        · exact .inr (.inl h)
      · exact .inr (.inr (.inl h))
      · exact .inr (.inr (.inr (by simpa using h)))

theorem follow_of_rests {n : ℕ} {x z : α} (h : Rests next n x z) : follow next n ∅ x = z := by
  obtain ⟨xs, hleads, hnodup, hlength, hrest⟩ := h
  exact follow_of_leads next hleads n ∅ hnodup (by simp) hlength (.inr hrest)

end BigCodeAnalysis.Sequences
