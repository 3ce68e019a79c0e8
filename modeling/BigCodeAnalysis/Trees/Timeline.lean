import BigCodeAnalysis.Trees.Rose

/-! What happens inside a scope, in time order: visits, prunes, and child scopes with a
timeline of their own. An algebra says what each of these does to the state of the
enclosing scope; running a timeline is the recursion that leaves a child scope before
anything later happens in its parent. -/

namespace BigCodeAnalysis.Trees

variable {ν π κ σ τ : Type*}

/-- One entry of a scope's timeline. -/
inductive Step (ν π κ : Type*) where
  | visit (v : ν)
  | prune (p : π)
  | child (k : κ) (steps : List (Step ν π κ))

/-- `enter` builds the state a child scope starts from, `leave` folds its final state
into the parent's. -/
structure ScopeAlgebra (ν π κ σ : Type*) where
  visit : ν → σ → σ
  prune : π → σ → σ
  enter : κ → σ → σ
  leave : σ → σ → σ

namespace Step

mutual
def exec (alg : ScopeAlgebra ν π κ σ) : Step ν π κ → σ → σ
  | .visit v, s => alg.visit v s
  | .prune p, s => alg.prune p s
  | .child k steps, s => alg.leave s (execAll alg steps (alg.enter k s))

/-- Run a timeline on the state of its scope. -/
def execAll (alg : ScopeAlgebra ν π κ σ) : List (Step ν π κ) → σ → σ
  | [], s => s
  | step :: steps, s => execAll alg steps (exec alg step s)
end

mutual
def events (scope : Option κ) : Step ν π κ → List (Option κ × (ν ⊕ π))
  | .visit v => [(scope, .inl v)]
  | .prune p => [(scope, .inr p)]
  | .child k steps => eventsAll (some k) steps

/-- Every visit and prune of a timeline and of the scopes in it, in time order, with the
scope it happens in. The outermost scope is `none`. -/
def eventsAll (scope : Option κ) : List (Step ν π κ) → List (Option κ × (ν ⊕ π))
  | [] => []
  | step :: steps => events scope step ++ eventsAll scope steps
end

mutual
def scopes : Step ν π κ → List (Rose κ)
  | .visit _ => []
  | .prune _ => []
  | .child k steps => [.node k (scopesAll steps)]

/-- The child scopes of a timeline, each with the scopes inside it. -/
def scopesAll : List (Step ν π κ) → List (Rose κ)
  | [] => []
  | step :: steps => scopes step ++ scopesAll steps
end

mutual
def results (f : κ → List (Step ν π κ) → τ) : Step ν π κ → List (Rose τ)
  | .visit _ => []
  | .prune _ => []
  | .child k steps => [.node (f k steps) (resultsAll f steps)]

/-- The child scopes of a timeline, each as what `f` makes of it. -/
def resultsAll (f : κ → List (Step ν π κ) → τ) : List (Step ν π κ) → List (Rose τ)
  | [] => []
  | step :: steps => results f step ++ resultsAll f steps
end

mutual
def within : Step ν π κ → List (κ × List (Step ν π κ))
  | .visit _ => []
  | .prune _ => []
  | .child k steps => (k, steps) :: withinAll steps

/-- Every scope in a timeline, at any depth, with its own timeline. -/
def withinAll : List (Step ν π κ) → List (κ × List (Step ν π κ))
  | [] => []
  | step :: steps => within step ++ withinAll steps
end

theorem steps_induction {motive : List (Step ν π κ) → Prop} (nil : motive [])
    (visit : ∀ v rest, motive rest → motive (.visit v :: rest))
    (prune : ∀ p rest, motive rest → motive (.prune p :: rest))
    (child : ∀ k steps rest, motive steps → motive rest → motive (.child k steps :: rest))
    (steps : List (Step ν π κ)) : motive steps :=
  @Step.rec_1 ν π κ (fun step => ∀ rest, motive rest → motive (step :: rest)) motive visit prune
    (fun k steps ih rest hrest => child k steps rest ih hrest) nil
    (fun _ rest hstep hrest => hstep rest hrest) steps

section Exec
variable (alg : ScopeAlgebra ν π κ σ)

@[simp] theorem execAll_nil (s : σ) : execAll alg [] s = s := rfl

@[simp] theorem execAll_visit (v : ν) (rest : List (Step ν π κ)) (s : σ) :
    execAll alg (.visit v :: rest) s = execAll alg rest (alg.visit v s) := rfl

@[simp] theorem execAll_prune (p : π) (rest : List (Step ν π κ)) (s : σ) :
    execAll alg (.prune p :: rest) s = execAll alg rest (alg.prune p s) := rfl

@[simp] theorem execAll_child (k : κ) (steps rest : List (Step ν π κ)) (s : σ) :
    execAll alg (.child k steps :: rest) s =
      execAll alg rest (alg.leave s (execAll alg steps (alg.enter k s))) := rfl

theorem execAll_append (xs ys : List (Step ν π κ)) (s : σ) :
    execAll alg (xs ++ ys) s = execAll alg ys (execAll alg xs s) := by
  induction xs generalizing s with
  | nil => simp
  | cons x xs ih => exact ih (exec alg x s)

end Exec

section Lists

@[simp] theorem eventsAll_nil (scope : Option κ) :
    eventsAll scope ([] : List (Step ν π κ)) = [] := rfl

@[simp] theorem eventsAll_cons (scope : Option κ) (step : Step ν π κ)
    (steps : List (Step ν π κ)) :
    eventsAll scope (step :: steps) = step.events scope ++ eventsAll scope steps := rfl

@[simp] theorem scopesAll_nil : scopesAll ([] : List (Step ν π κ)) = [] := rfl

@[simp] theorem scopesAll_cons (step : Step ν π κ) (steps : List (Step ν π κ)) :
    scopesAll (step :: steps) = step.scopes ++ scopesAll steps := rfl

@[simp] theorem resultsAll_nil (f : κ → List (Step ν π κ) → τ) :
    resultsAll f ([] : List (Step ν π κ)) = [] := rfl

theorem resultsAll_cons (f : κ → List (Step ν π κ) → τ) (step : Step ν π κ)
    (steps : List (Step ν π κ)) :
    resultsAll f (step :: steps) = results f step ++ resultsAll f steps := rfl

@[simp] theorem resultsAll_visit (f : κ → List (Step ν π κ) → τ) (v : ν)
    (rest : List (Step ν π κ)) : resultsAll f (.visit v :: rest) = resultsAll f rest := rfl

@[simp] theorem resultsAll_prune (f : κ → List (Step ν π κ) → τ) (p : π)
    (rest : List (Step ν π κ)) : resultsAll f (.prune p :: rest) = resultsAll f rest := rfl

@[simp] theorem resultsAll_child (f : κ → List (Step ν π κ) → τ) (k : κ)
    (steps rest : List (Step ν π κ)) : resultsAll f (.child k steps :: rest) =
      .node (f k steps) (resultsAll f steps) :: resultsAll f rest := rfl

theorem resultsAll_append (f : κ → List (Step ν π κ) → τ) (xs ys : List (Step ν π κ)) :
    resultsAll f (xs ++ ys) = resultsAll f xs ++ resultsAll f ys := by
  induction xs with
  | nil => rfl
  | cons x xs ih => rw [List.cons_append, resultsAll_cons, resultsAll_cons, ih, List.append_assoc]

@[simp] theorem withinAll_nil : withinAll ([] : List (Step ν π κ)) = [] := rfl

@[simp] theorem withinAll_visit (v : ν) (rest : List (Step ν π κ)) :
    withinAll (.visit v :: rest) = withinAll rest := rfl

@[simp] theorem withinAll_prune (p : π) (rest : List (Step ν π κ)) :
    withinAll (.prune p :: rest) = withinAll rest := rfl

@[simp] theorem withinAll_child (k : κ) (steps rest : List (Step ν π κ)) :
    withinAll (.child k steps :: rest) = (k, steps) :: (withinAll steps ++ withinAll rest) := rfl

theorem eventsAll_append (scope : Option κ) (xs ys : List (Step ν π κ)) :
    eventsAll scope (xs ++ ys) = eventsAll scope xs ++ eventsAll scope ys := by
  induction xs with
  | nil => simp
  | cons x xs ih => simp [ih]

theorem scopesAll_append (xs ys : List (Step ν π κ)) :
    scopesAll (xs ++ ys) = scopesAll xs ++ scopesAll ys := by
  induction xs with
  | nil => simp
  | cons x xs ih => simp [ih]

end Lists

/-- The results of a timeline are those of the scopes in it. -/
theorem mem_results (f : κ → List (Step ν π κ) → τ) (steps : List (Step ν π κ)) (t : Rose τ)
    (ht : t ∈ Rose.forestNodes (resultsAll f steps)) :
    ∃ p ∈ withinAll steps, t.label = f p.1 p.2 := by
  induction steps using steps_induction with
  | nil => simp [Rose.forestNodes] at ht
  | visit v rest ih => simpa using ih (by simpa using ht)
  | prune p rest ih => simpa using ih (by simpa using ht)
  | child k steps rest ihs ihr =>
    simp only [resultsAll_child, Rose.forestNodes, Rose.nodes, List.mem_append, List.mem_cons] at ht
    rcases ht with (rfl | ht) | ht
    · exact ⟨(k, steps), by simp, rfl⟩
    · obtain ⟨p, hp, hlabel⟩ := ihs ht
      exact ⟨p, by simp [hp], hlabel⟩
    · obtain ⟨p, hp, hlabel⟩ := ihr ht
      exact ⟨p, by simp [hp], hlabel⟩

/-! ### Rules for runs -/

section Rules
variable (alg : ScopeAlgebra ν π κ σ)

/-- What every event preserves, and a child scope starts with, holds at the end of a run. -/
theorem execAll_invariant {I : σ → Prop}
    (visit : ∀ v s, I s → I (alg.visit v s)) (prune : ∀ p s, I s → I (alg.prune p s))
    (enter : ∀ k s, I s → I (alg.enter k s)) (leave : ∀ s c, I s → I c → I (alg.leave s c))
    (steps : List (Step ν π κ)) : ∀ s, I s → I (execAll alg steps s) := by
  induction steps using steps_induction with
  | nil => intro s hs; simpa using hs
  | visit v rest ih => intro s hs; simpa using ih _ (visit v s hs)
  | prune p rest ih => intro s hs; simpa using ih _ (prune p s hs)
  | child k steps rest ihs ihr =>
    intro s hs
    simpa using ihr _ (leave s _ hs (ihs _ (enter k s hs)))

/-- A projection that every event and every return from a child leaves unchanged. -/
theorem execAll_frame (f : σ → τ) (visit : ∀ v s, f (alg.visit v s) = f s)
    (prune : ∀ p s, f (alg.prune p s) = f s) (leave : ∀ s c, f (alg.leave s c) = f s)
    (steps : List (Step ν π κ)) (s : σ) : f (execAll alg steps s) = f s := by
  induction steps using steps_induction generalizing s with
  | nil => simp
  | visit v rest ih => simp [ih, visit]
  | prune p rest ih => simp [ih, prune]
  | child k steps rest _ ihr => simp [ihr, leave]

/-- A map that commutes with every event commutes with a run. -/
theorem execAll_map (alg' : ScopeAlgebra ν π κ τ) (h : σ → τ)
    (visit : ∀ v s, h (alg.visit v s) = alg'.visit v (h s))
    (prune : ∀ p s, h (alg.prune p s) = alg'.prune p (h s))
    (enter : ∀ k s, h (alg.enter k s) = alg'.enter k (h s))
    (leave : ∀ s c, h (alg.leave s c) = alg'.leave (h s) (h c)) (steps : List (Step ν π κ)) :
    ∀ s, h (execAll alg steps s) = execAll alg' steps (h s) := by
  induction steps using steps_induction with
  | nil => intro s; simp
  | visit v rest ih => intro s; rw [execAll_visit, execAll_visit, ih, visit]
  | prune p rest ih => intro s; rw [execAll_prune, execAll_prune, ih, prune]
  | child k steps rest ihs ihr =>
    intro s
    rw [execAll_child, execAll_child, ihr, leave, ihs, enter]

/-- Strong induction on scopes: a property that follows from the same property of the
scopes inside holds of every scope. -/
theorem scope_induction {P : κ → List (Step ν π κ) → Prop}
    (scope : ∀ k steps, (∀ p ∈ withinAll steps, P p.1 p.2) → P k steps)
    (k : κ) (steps : List (Step ν π κ)) : P k steps := by
  refine scope k steps ?_
  induction steps using steps_induction with
  | nil => simp
  | visit v rest ih => simpa using ih
  | prune p rest ih => simpa using ih
  | child k steps rest ihs ihr =>
    intro p hp
    simp only [withinAll_child, List.mem_cons, List.mem_append] at hp
    rcases hp with rfl | hp | hp
    · exact scope k steps ihs
    · exact ihs p hp
    · exact ihr p hp

theorem withinAll_trans {steps : List (Step ν π κ)} {p q : κ × List (Step ν π κ)}
    (hp : p ∈ withinAll steps) (hq : q ∈ withinAll p.2) : q ∈ withinAll steps := by
  induction steps using steps_induction with
  | nil => simp at hp
  | visit v rest ih => simpa using ih (by simpa using hp)
  | prune v rest ih => simpa using ih (by simpa using hp)
  | child k steps rest ihs ihr =>
    simp only [withinAll_child, List.mem_cons, List.mem_append] at hp ⊢
    rcases hp with rfl | hp | hp
    · exact .inr (.inl hq)
    · exact .inr (.inl (ihs hp))
    · exact .inr (.inr (ihr hp))

/-- What an event would do to the state it finds. -/
structure Cause (ν π σ : Type*) where
  visit : ν → σ → Prop
  prune : π → σ → Prop
  leave : σ → σ → Prop

/-- An event of the scope itself meets the cause when its turn comes. -/
def Occurs (cause : Cause ν π σ) : List (Step ν π κ) → σ → Prop
  | [], _ => False
  | .visit v :: rest, s => cause.visit v s ∨ Occurs cause rest (alg.visit v s)
  | .prune p :: rest, s => cause.prune p s ∨ Occurs cause rest (alg.prune p s)
  | .child k steps :: rest, s =>
    let child := execAll alg steps (alg.enter k s)
    cause.leave s child ∨ Occurs cause rest (alg.leave s child)

/-- A run ends in `Q` exactly when it starts there or an event that brings `Q` about
occurs. `R` is what the states of finished child scopes are known to satisfy. -/
theorem execAll_iff_occurs {Q R : σ → Prop} (cause : Cause ν π σ)
    (visit : ∀ v s, Q (alg.visit v s) ↔ Q s ∨ cause.visit v s)
    (prune : ∀ p s, Q (alg.prune p s) ↔ Q s ∨ cause.prune p s)
    (leave : ∀ s c, R c → (Q (alg.leave s c) ↔ Q s ∨ cause.leave s c))
    (steps : List (Step ν π κ))
    (finished : ∀ p ∈ withinAll steps, ∀ s, R (execAll alg p.2 (alg.enter p.1 s))) :
    ∀ s, Q (execAll alg steps s) ↔ Q s ∨ Occurs alg cause steps s := by
  induction steps using steps_induction with
  | nil => intro s; simp [Occurs]
  | visit v rest ih =>
    intro s
    rw [withinAll_visit] at finished
    rw [execAll_visit, ih finished, visit, Occurs, or_assoc]
  | prune p rest ih =>
    intro s
    rw [withinAll_prune] at finished
    rw [execAll_prune, ih finished, prune, Occurs, or_assoc]
  | child k steps rest _ ihr =>
    intro s
    rw [withinAll_child] at finished
    have hrest : ∀ p ∈ withinAll rest, ∀ s, R (execAll alg p.2 (alg.enter p.1 s)) :=
      fun p hp => finished p (by simp [hp])
    have hchild : R (execAll alg steps (alg.enter k s)) := finished (k, steps) (by simp) s
    rw [execAll_child, ihr hrest, leave s _ hchild, Occurs, or_assoc]

end Rules

end Step

end BigCodeAnalysis.Trees
