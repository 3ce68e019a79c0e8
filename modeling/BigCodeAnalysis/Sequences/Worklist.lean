import Mathlib.Data.Fintype.Card
import Mathlib.Tactic.Tauto

/-! Closing a finite set under successors with a worklist. A popped element puts the
successors the set does not hold yet into the set and onto the worklist. -/

namespace BigCodeAnalysis.Sequences.Worklist

variable {α : Type*} [DecidableEq α]

/-- Add each new element to the set and to the worklist, whose top is its head. -/
def enqueue : List α → Finset α × List α → Finset α × List α
  | [], s => s
  | a :: as, (set, work) =>
    if a ∈ set then enqueue as (set, work) else enqueue as (insert a set, a :: work)

theorem enqueue_set (as : List α) (set : Finset α) (work : List α) :
    (enqueue as (set, work)).1 = set ∪ as.toFinset := by
  induction as generalizing set work with
  | nil => simp [enqueue]
  | cons a as ih =>
    rw [enqueue]
    by_cases ha : a ∈ set
    · rw [if_pos ha, ih, List.toFinset_cons, Finset.union_insert, Finset.insert_eq_of_mem]
      exact Finset.mem_union_left _ ha
    · rw [if_neg ha, ih, List.toFinset_cons, Finset.union_insert, Finset.insert_union]

theorem mem_enqueue_work {as : List α} {set : Finset α} {work : List α} {x : α} :
    x ∈ (enqueue as (set, work)).2 ↔ x ∈ work ∨ x ∈ as ∧ x ∉ set := by
  induction as generalizing set work with
  | nil => simp [enqueue]
  | cons a as ih =>
    rw [enqueue]
    by_cases ha : a ∈ set
    · have hne : x ∉ set → x ≠ a := fun hx he => hx (he ▸ ha)
      rw [if_pos ha, ih, List.mem_cons]
      tauto
    · rw [if_neg ha, ih]
      by_cases hx : x = a
      · subst hx
        simp [ha]
      · simp [hx]

section Pending
variable [Fintype α]

/-- The elements that can still be popped. -/
def pending (set : Finset α) (work : List α) : ℕ := (Finset.univ \ set).card + work.length

theorem pending_enqueue (as : List α) (set : Finset α) (work : List α) :
    pending (enqueue as (set, work)).1 (enqueue as (set, work)).2 = pending set work := by
  induction as generalizing set work with
  | nil => rfl
  | cons a as ih =>
    rw [enqueue]
    by_cases ha : a ∈ set
    · rw [if_pos ha, ih]
    · rw [if_neg ha, ih]
      have hmem : a ∈ Finset.univ \ set := by simp [ha]
      have hpos := Finset.card_pos.mpr ⟨a, hmem⟩
      have herase : Finset.univ \ insert a set = (Finset.univ \ set).erase a :=
        Finset.sdiff_insert _ _ _
      simp only [pending, herase, Finset.card_erase_of_mem hmem, List.length_cons]
      omega

end Pending

section Loop
variable (next : α → List α)

/-- Pop until the worklist is empty. -/
def loop [Fintype α] (set : Finset α) : List α → Finset α
  | [] => set
  | a :: work =>
    loop (enqueue (next a) (set, work)).1 (enqueue (next a) (set, work)).2
termination_by work => pending set work
decreasing_by
  rw [pending_enqueue]
  simp only [pending, List.length_cons]
  omega

variable [Fintype α] {next}

/-- A loop that starts with every unfinished element on the worklist ends in a closed set. -/
theorem loop_closed {set : Finset α} {work : List α}
    (h : ∀ a ∈ set, a ∈ work ∨ ∀ b ∈ next a, b ∈ set) :
    ∀ a ∈ loop next set work, ∀ b ∈ next a, b ∈ loop next set work := by
  induction set, work using loop.induct next with
  | case1 set =>
    rw [loop]
    intro a ha
    exact (h a ha).resolve_left List.not_mem_nil
  | case2 set a work ih =>
    rw [loop]
    apply ih
    intro x hx
    rw [enqueue_set] at hx ⊢
    rw [mem_enqueue_work]
    by_cases hset : x ∈ set
    · rcases h x hset with hwork | hdone
      · rcases List.mem_cons.mp hwork with rfl | hwork
        · exact Or.inr fun b hb => Finset.mem_union_right _ (List.mem_toFinset.mpr hb)
        · exact Or.inl (Or.inl hwork)
      · exact Or.inr fun b hb => Finset.mem_union_left _ (hdone b hb)
    · have hnext := (Finset.mem_union.mp hx).resolve_left hset
      exact Or.inl (Or.inr ⟨List.mem_toFinset.mp hnext, hset⟩)

theorem subset_loop (set : Finset α) (work : List α) : set ⊆ loop next set work := by
  induction set, work using loop.induct next with
  | case1 set => rw [loop]
  | case2 set a work ih =>
    have hset : set ⊆ (enqueue (next a) (set, work)).1 := by
      rw [enqueue_set]
      exact Finset.subset_union_left
    rw [loop]
    exact hset.trans ih

end Loop

end BigCodeAnalysis.Sequences.Worklist
