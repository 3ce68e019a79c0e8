import BigCodeAnalysis.Trees.Timeline
import Mathlib.Data.List.Basic
import Mathlib.Order.BoundedOrder.Lattice

/-! What a scope gathers from its timeline when every event only adds to it and a child
scope hands its share up through a restriction. The result does not depend on the order of
the events. -/

namespace BigCodeAnalysis.Trees.Step

variable {ν π κ σ M : Type*}

/-- The scopes directly inside a scope, each with its timeline. -/
def children : List (Step ν π κ) → List (κ × List (Step ν π κ))
  | [] => []
  | .child k steps :: rest => (k, steps) :: children rest
  | .visit _ :: rest => children rest
  | .prune _ :: rest => children rest

/-- What a scope visits itself. -/
def visits : List (Step ν π κ) → List ν
  | [] => []
  | .visit v :: rest => v :: visits rest
  | .prune _ :: rest => visits rest
  | .child _ _ :: rest => visits rest

mutual
def visitsWithin : Step ν π κ → List ν
  | .visit v => [v]
  | .prune _ => []
  | .child _ steps => visitsAll steps

/-- What a scope and the scopes in it visit. -/
def visitsAll : List (Step ν π κ) → List ν
  | [] => []
  | step :: steps => visitsWithin step ++ visitsAll steps
end

@[simp] theorem visitsAll_nil : visitsAll ([] : List (Step ν π κ)) = [] := rfl

@[simp] theorem visitsAll_visit (v : ν) (rest : List (Step ν π κ)) :
    visitsAll (.visit v :: rest) = v :: visitsAll rest := rfl

@[simp] theorem visitsAll_prune (p : π) (rest : List (Step ν π κ)) :
    visitsAll (.prune p :: rest) = visitsAll rest := rfl

@[simp] theorem visitsAll_child (k : κ) (steps rest : List (Step ν π κ)) :
    visitsAll (.child k steps :: rest) = visitsAll steps ++ visitsAll rest := rfl

theorem visitsAll_append (xs ys : List (Step ν π κ)) :
    visitsAll (xs ++ ys) = visitsAll xs ++ visitsAll ys := by
  induction xs with
  | nil => simp
  | cons x xs ih => simp only [List.cons_append, visitsAll, ih, List.append_assoc]

theorem children_subset_withinAll {steps : List (Step ν π κ)}
    {p : κ × List (Step ν π κ)} (hp : p ∈ children steps) : p ∈ withinAll steps := by
  induction steps with
  | nil => simp [children] at hp
  | cons step rest ih =>
    cases step with
    | visit v => simpa using ih hp
    | prune v => simpa using ih hp
    | child k steps =>
      simp only [children, List.mem_cons] at hp
      simp only [withinAll_child, List.mem_cons, List.mem_append]
      rcases hp with rfl | hp
      · exact .inl rfl
      · exact .inr (.inr (ih hp))

section Gather
variable [SemilatticeSup M] [OrderBot M] (own : ν ⊕ π → M) (restrict : κ → M → M)

mutual
def gather : Step ν π κ → M
  | .visit v => own (.inl v)
  | .prune p => own (.inr p)
  | .child k steps => restrict k (gatherAll steps)

/-- The join of what the events contribute. -/
def gatherAll : List (Step ν π κ) → M
  | [] => ⊥
  | step :: steps => gather step ⊔ gatherAll steps
end

@[simp] theorem gatherAll_nil : gatherAll own restrict [] = ⊥ := rfl

@[simp] theorem gatherAll_visit (v : ν) (rest : List (Step ν π κ)) :
    gatherAll own restrict (.visit v :: rest) = own (.inl v) ⊔ gatherAll own restrict rest := rfl

@[simp] theorem gatherAll_prune (p : π) (rest : List (Step ν π κ)) :
    gatherAll own restrict (.prune p :: rest) = own (.inr p) ⊔ gatherAll own restrict rest := rfl

@[simp] theorem gatherAll_child (k : κ) (steps rest : List (Step ν π κ)) :
    gatherAll own restrict (.child k steps :: rest) =
      restrict k (gatherAll own restrict steps) ⊔ gatherAll own restrict rest := rfl

theorem gatherAll_perm {xs ys : List (Step ν π κ)} (h : xs.Perm ys) :
    gatherAll own restrict xs = gatherAll own restrict ys := by
  induction h with
  | nil => rfl
  | cons step _ ih => simp only [gatherAll, ih]
  | swap a b rest => simp only [gatherAll, sup_left_comm]
  | trans _ _ ih₁ ih₂ => exact ih₁.trans ih₂

theorem restrict_le_gatherAll {steps : List (Step ν π κ)} {p : κ × List (Step ν π κ)}
    (hp : p ∈ children steps) :
    restrict p.1 (gatherAll own restrict p.2) ≤ gatherAll own restrict steps := by
  induction steps with
  | nil => simp [children] at hp
  | cons step rest ih =>
    cases step with
    | visit v => exact (ih hp).trans (by simp)
    | prune v => exact (ih hp).trans (by simp)
    | child k steps =>
      simp only [children, List.mem_cons] at hp
      rw [gatherAll_child]
      rcases hp with rfl | hp
      · exact le_sup_left
      · exact (ih hp).trans le_sup_right

theorem gatherAll_sup (own' : ν ⊕ π → M)
    (hsup : ∀ k a b, restrict k (a ⊔ b) = restrict k a ⊔ restrict k b)
    (steps : List (Step ν π κ)) :
    gatherAll (fun e => own e ⊔ own' e) restrict steps =
      gatherAll own restrict steps ⊔ gatherAll own' restrict steps := by
  induction steps using steps_induction with
  | nil => simp
  | visit v rest ih => simp only [gatherAll_visit, ih, sup_sup_sup_comm]
  | prune p rest ih => simp only [gatherAll_prune, ih, sup_sup_sup_comm]
  | child k steps rest ihs ihr => simp only [gatherAll_child, ihs, ihr, hsup, sup_sup_sup_comm]

/-- A run adds to a projection exactly what its timeline gathers. `I` is an invariant of
the scope's state that the events may rely on. -/
theorem execAll_gather (alg : ScopeAlgebra ν π κ σ) (f : σ → M) {I : σ → Prop}
    (visit : ∀ v s, I s → I (alg.visit v s) ∧ f (alg.visit v s) = f s ⊔ own (.inl v))
    (prune : ∀ p s, I s → I (alg.prune p s) ∧ f (alg.prune p s) = f s ⊔ own (.inr p))
    (enter : ∀ k s, I (alg.enter k s) ∧ f (alg.enter k s) = ⊥)
    (leave : ∀ k steps s, I s → I (alg.leave s (execAll alg steps (alg.enter k s))) ∧
      f (alg.leave s (execAll alg steps (alg.enter k s))) =
        f s ⊔ restrict k (f (execAll alg steps (alg.enter k s))))
    (steps : List (Step ν π κ)) :
    ∀ s, I s → f (execAll alg steps s) = f s ⊔ gatherAll own restrict steps := by
  induction steps using steps_induction with
  | nil => intro s _; simp
  | visit v rest ih =>
    intro s hs
    obtain ⟨hI, hf⟩ := visit v s hs
    rw [execAll_visit, ih _ hI, hf, gatherAll_visit, sup_assoc]
  | prune p rest ih =>
    intro s hs
    obtain ⟨hI, hf⟩ := prune p s hs
    rw [execAll_prune, ih _ hI, hf, gatherAll_prune, sup_assoc]
  | child k steps rest ihs ihr =>
    intro s hs
    obtain ⟨hI, hf⟩ := leave k steps s hs
    obtain ⟨hopen, hbot⟩ := enter k s
    have hchild : f (execAll alg steps (alg.enter k s)) = gatherAll own restrict steps := by
      rw [ihs _ hopen, hbot, bot_sup_eq]
    rw [execAll_child, ihr _ hI, hf, hchild, gatherAll_child, sup_assoc]

end Gather

section Actions
variable (alg : ScopeAlgebra ν π κ σ) {f : σ → M} (act : Step ν π κ → M → M)
  (hact : ∀ step s, f (exec alg step s) = act step (f s))
include hact

theorem execAll_congr (xs : List (Step ν π κ)) :
    ∀ s t, f s = f t → f (execAll alg xs s) = f (execAll alg xs t) := by
  induction xs with
  | nil => intro s t hst; simpa using hst
  | cons step xs ih =>
    intro s t hst
    exact ih _ _ (by rw [hact, hact, hst])

/-- When the events act on a projection and the actions commute, the projection at the end
of a run does not depend on the order of the events. -/
theorem execAll_perm (hcomm : ∀ a b m, act a (act b m) = act b (act a m))
    {xs ys : List (Step ν π κ)} (h : xs.Perm ys) :
    ∀ s, f (execAll alg xs s) = f (execAll alg ys s) := by
  induction h with
  | nil => intro s; rfl
  | cons step _ ih => intro s; exact ih (exec alg step s)
  | swap a b rest =>
    intro s
    have hswap : f (exec alg a (exec alg b s)) = f (exec alg b (exec alg a s)) := by
      rw [hact, hact, hact, hact, hcomm]
    exact execAll_congr alg act hact rest _ _ hswap
  | trans _ _ ih₁ ih₂ => intro s; exact (ih₁ s).trans (ih₂ s)

end Actions

end BigCodeAnalysis.Trees.Step
