import BigCodeAnalysis.Trees.Rose

/-! Pre-order walks driven by an explicit stack. One pop hands the node and the tag
it was pushed with to a visit function, which updates the state and either skips the
subtree or names the tag its children are pushed with. The loop is the recursive
descent over the tree, for every state and either order of pushing children. -/

namespace BigCodeAnalysis.Trees.StackWalk

open Rose

variable {α κ σ τ : Type*}

/-- Which child of a node is popped first. -/
inductive PushOrder where
  | leftmostOnTop | rightmostOnTop
  deriving DecidableEq

/-- The children in the order they are popped. -/
def PushOrder.arrange (order : PushOrder) (cs : List (Rose α)) : List (Rose α) :=
  match order with
  | .leftmostOnTop => cs
  | .rightmostOnTop => cs.reverse

/-- The new state, and the tag of the children unless the subtree is skipped. -/
abbrev Visit (α κ σ : Type*) := σ → Rose α → κ → σ × Option κ

/-- Pop until the stack is empty. The head of the list is the top of the stack. -/
def loop (order : PushOrder) (visit : Visit α κ σ) : ℕ → List (Rose α × κ) → σ → σ
  | 0, _, s => s
  | _ + 1, [], s => s
  | n + 1, (t, k) :: stack, s =>
    match visit s t k with
    | (s', none) => loop order visit n stack s'
    | (s', some k') =>
      loop order visit n ((order.arrange t.children).map (·, k') ++ stack) s'

/-- The loop from a stack that holds only the root. -/
def run (order : PushOrder) (visit : Visit α κ σ) (root : Rose α) (k : κ) (s : σ) : σ :=
  loop order visit root.size [(root, k)] s

mutual
/-- The same visits by recursion on the tree. -/
def descend (order : PushOrder) (visit : Visit α κ σ) (k : κ) : Rose α → σ → σ
  | .node a cs, s =>
    match visit s (.node a cs) k with
    | (s', none) => s'
    | (s', some k') => descendForest order visit k' cs s'

def descendForest (order : PushOrder) (visit : Visit α κ σ) (k : κ) : List (Rose α) → σ → σ
  | [], s => s
  | t :: ts, s =>
    match order with
    | .leftmostOnTop => descendForest order visit k ts (descend order visit k t s)
    | .rightmostOnTop => descend order visit k t (descendForest order visit k ts s)
end

section Loop
variable (order : PushOrder) (visit : Visit α κ σ)

theorem forestSize_arrange (ts : List (Rose α)) :
    forestSize (order.arrange ts) = forestSize ts := by
  cases order with
  | leftmostOnTop => rfl
  | rightmostOnTop => exact forestSize_reverse ts

/-- The number of nodes the stack still has to reach. -/
def pending (stack : List (Rose α × κ)) : ℕ := forestSize (stack.map Prod.fst)

theorem pending_push (ts : List (Rose α)) (k : κ) (stack : List (Rose α × κ)) :
    pending (ts.map (·, k) ++ stack) = forestSize ts + pending stack := by
  induction ts with
  | nil => simp [pending]
  | cons t ts ih =>
    simp only [pending, List.map_cons, List.cons_append, forestSize_cons] at ih ⊢
    omega

theorem descendForest_eq_foldl (k : κ) (ts : List (Rose α)) (s : σ) :
    descendForest order visit k ts s =
      (order.arrange ts).foldl (fun s t => descend order visit k t s) s := by
  induction ts generalizing s with
  | nil => cases order <;> simp [descendForest, PushOrder.arrange]
  | cons t ts ih =>
    cases order with
    | leftmostOnTop => simpa [descendForest, PushOrder.arrange] using ih _
    | rightmostOnTop =>
      simp only [PushOrder.arrange] at ih
      simp only [descendForest, ih, PushOrder.arrange, List.reverse_cons, List.foldl_append,
        List.foldl_cons, List.foldl_nil]

/-- With a step for every pending node the loop descends into each stacked tree in turn. -/
theorem loop_eq_foldl (n : ℕ) (stack : List (Rose α × κ)) (s : σ) (hn : pending stack ≤ n) :
    loop order visit n stack s =
      stack.foldl (fun s p => descend order visit p.2 p.1 s) s := by
  induction n generalizing stack s with
  | zero =>
    match stack with
    | [] => rfl
    | (.node a cs, k) :: rest =>
      simp only [pending, List.map_cons, forestSize_cons, size_node] at hn
      omega
  | succ n ih =>
    match stack with
    | [] => rfl
    | (.node a cs, k) :: rest =>
      have hsize : forestSize cs + 1 + pending rest ≤ n + 1 := by
        simpa [pending, forestSize_cons] using hn
      simp only [loop, List.foldl_cons, descend]
      rcases visit s (.node a cs) k with ⟨s', _ | k'⟩
      · exact ih rest s' (by omega)
      · have hpend : pending ((order.arrange cs).map (·, k') ++ rest) ≤ n := by
          rw [pending_push, forestSize_arrange]; omega
        simp only [children_node]
        rw [ih _ _ hpend, List.foldl_append, List.foldl_map, descendForest_eq_foldl]

/-- The loop started at a root is the descent into it. -/
theorem run_eq_descend (root : Rose α) (k : κ) (s : σ) :
    run order visit root k s = descend order visit k root s := by
  rw [run, loop_eq_foldl]
  · rfl
  · simp [pending, forestSize_cons]

end Loop

section Simulation
variable {κ' : Type*} {order : PushOrder}
variable {visit₁ : Visit α κ σ} {visit₂ : Visit α κ' τ} {R : σ → τ → Prop} {K : κ → κ' → Prop}

/-- What one visit of two walks must preserve: related states stay related, and both
skip the subtree or both enter it with related tags. -/
def VisitsRelated (R : σ → τ → Prop) (K : κ → κ' → Prop) (visit₁ : Visit α κ σ)
    (visit₂ : Visit α κ' τ) : Prop :=
  ∀ s₁ s₂ t k₁ k₂, R s₁ s₂ → K k₁ k₂ →
    R (visit₁ s₁ t k₁).1 (visit₂ s₂ t k₂).1 ∧
      Option.Rel K (visit₁ s₁ t k₁).2 (visit₂ s₂ t k₂).2

theorem descend_related (h : VisitsRelated R K visit₁ visit₂) :
    (∀ (t : Rose α) (k₁ : κ) (k₂ : κ') (s₁ : σ) (s₂ : τ), R s₁ s₂ → K k₁ k₂ →
      R (descend order visit₁ k₁ t s₁) (descend order visit₂ k₂ t s₂)) ∧
    ∀ (ts : List (Rose α)) (k₁ : κ) (k₂ : κ') (s₁ : σ) (s₂ : τ), R s₁ s₂ → K k₁ k₂ →
      R (descendForest order visit₁ k₁ ts s₁) (descendForest order visit₂ k₂ ts s₂) := by
  refine tree_forest_induction (fun a cs ih k₁ k₂ s₁ s₂ hR hK => ?_)
    (fun _ _ _ _ hR _ => by simpa only [descendForest] using hR)
    (fun t ts iht ihts k₁ k₂ s₁ s₂ hR hK => ?_)
  · obtain ⟨hstate, htag⟩ := h s₁ s₂ (.node a cs) k₁ k₂ hR hK
    simp only [descend]
    rcases e₁ : visit₁ s₁ (.node a cs) k₁ with ⟨s₁', o₁⟩
    rcases e₂ : visit₂ s₂ (.node a cs) k₂ with ⟨s₂', o₂⟩
    rw [e₁, e₂] at hstate htag
    cases htag with
    | none => exact hstate
    | some hk => exact ih _ _ _ _ hstate hk
  · cases order with
    | leftmostOnTop =>
      simp only [descendForest]
      exact ihts _ _ _ _ (iht _ _ _ _ hR hK) hK
    | rightmostOnTop =>
      simp only [descendForest]
      exact iht _ _ _ _ (ihts _ _ _ _ hR hK) hK

/-- Two walks of one tree whose visits are related end in related states. -/
theorem run_related (h : VisitsRelated R K visit₁ visit₂) (root : Rose α) {k₁ : κ} {k₂ : κ'}
    {s₁ : σ} {s₂ : τ} (hR : R s₁ s₂) (hK : K k₁ k₂) :
    R (run order visit₁ root k₁ s₁) (run order visit₂ root k₂ s₂) := by
  rw [run_eq_descend, run_eq_descend]
  exact (descend_related h).1 root k₁ k₂ s₁ s₂ hR hK

end Simulation

/-! ### Traces -/

section Trace
variable {β : Type*} (order : PushOrder) (visit : Visit α κ σ) (log : σ → Rose α → κ → List β)

/-- The same visits with a log of what each one is handed. -/
def traced : Visit α κ (σ × List β) := fun s t k =>
  (((visit s.1 t k).1, s.2 ++ log s.1 t k), (visit s.1 t k).2)

/-- The log of a whole walk. -/
def trace (root : Rose α) (k : κ) (s : σ) : List β :=
  (run order (traced visit log) root k (s, [])).2

mutual
def descendTrace (k : κ) : Rose α → σ → List β
  | .node a cs, s =>
    log s (.node a cs) k ++
      match visit s (.node a cs) k with
      | (_, none) => []
      | (s', some k') => descendForestTrace k' cs s'

def descendForestTrace (k : κ) : List (Rose α) → σ → List β
  | [], _ => []
  | t :: ts, s =>
    match order with
    | .leftmostOnTop => descendTrace k t s ++ descendForestTrace k ts (descend order visit k t s)
    | .rightmostOnTop =>
      descendForestTrace k ts s ++ descendTrace k t (descendForest order visit k ts s)
end

theorem descend_traced :
    (∀ (t : Rose α) (k : κ) (s : σ) (out : List β),
      descend order (traced visit log) k t (s, out) =
        (descend order visit k t s, out ++ descendTrace order visit log k t s)) ∧
    ∀ (ts : List (Rose α)) (k : κ) (s : σ) (out : List β),
      descendForest order (traced visit log) k ts (s, out) =
        (descendForest order visit k ts s, out ++ descendForestTrace order visit log k ts s) := by
  refine tree_forest_induction (fun a cs ih k s out => ?_)
    (fun k s out => by simp [descendForest, descendForestTrace])
    (fun t ts iht ihts k s out => ?_)
  · simp only [descend, descendTrace, traced]
    rcases visit s (.node a cs) k with ⟨s', _ | k'⟩
    · simp
    · simpa [List.append_assoc] using ih k' s' (out ++ log s (.node a cs) k)
  · cases order with
    | leftmostOnTop => simp only [descendForest, descendForestTrace, iht, ihts, List.append_assoc]
    | rightmostOnTop => simp only [descendForest, descendForestTrace, iht, ihts, List.append_assoc]

theorem trace_eq_descendTrace (root : Rose α) (k : κ) (s : σ) :
    trace order visit log root k s = descendTrace order visit log k root s := by
  rw [trace, run_eq_descend, (descend_traced order visit log).1, List.nil_append]

end Trace

end BigCodeAnalysis.Trees.StackWalk
