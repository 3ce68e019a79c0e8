import BigCodeAnalysis.Trees.RootPath
import BigCodeAnalysis.Trees.StackWalk
import Mathlib.Logic.Relation

/-! A stack walk seen along a path and one pop at a time. An invariant names the ancestors of the
next node, nearest first: a visit extends it by the node, and leaving the subtree gives it back.
A configuration shows what is still on the stack, so that an invariant can speak of the nodes
that are pending. Only nodes of pending subtrees are ever visited, each of them once. -/

namespace BigCodeAnalysis.Trees.StackWalk

section

variable {α κ σ β : Type*}

/-- An invariant of the walk from `root`, and what it says of each log entry. -/
structure PathInvariant (root : Rose α) (visit : Visit α κ σ) (log : σ → Rose α → κ → List β)
    (I : List (Rose α) → κ → σ → Prop) (good : β → Prop) : Prop where
  logged : ∀ {up t k s}, IsPath root (up.reverse ++ [t]) → I up k s → ∀ e ∈ log s t k, good e
  skips : ∀ {up t k s}, IsPath root (up.reverse ++ [t]) → I up k s →
    (visit s t k).2 = none → I up k (visit s t k).1
  enters : ∀ {up t k s k'}, IsPath root (up.reverse ++ [t]) → I up k s →
    (visit s t k).2 = some k' → I (t :: up) k' (visit s t k).1
  leaves : ∀ {up t k s k' s'}, I up k s → (visit s t k).2 = some k' → I (t :: up) k' s' → I up k s'

variable {root : Rose α} {visit : Visit α κ σ} {log : σ → Rose α → κ → List β}
  {I : List (Rose α) → κ → σ → Prop} {good : β → Prop}

theorem PathInvariant.descend (h : PathInvariant root visit log I good) :
    (∀ (t : Rose α) up k s, IsPath root (up.reverse ++ [t]) → I up k s →
      I up k (StackWalk.descend .leftmostOnTop visit k t s) ∧
        ∀ e ∈ descendTrace .leftmostOnTop visit log k t s, good e) ∧
    ∀ (ts : List (Rose α)) up k s, (∀ t ∈ ts, IsPath root (up.reverse ++ [t])) → I up k s →
      I up k (descendForest .leftmostOnTop visit k ts s) ∧
        ∀ e ∈ descendForestTrace .leftmostOnTop visit log k ts s, good e := by
  refine Rose.tree_forest_induction ?node ?nil ?cons
  case node =>
    intro a cs ih up k s hpath hI
    rw [StackWalk.descend, descendTrace]
    rcases hvisit : visit s (.node a cs) k with ⟨s', _ | k'⟩
    · have hskip := h.skips hpath hI (by rw [hvisit])
      rw [hvisit] at hskip
      refine ⟨hskip, fun e he => ?_⟩
      rw [List.append_nil] at he
      exact h.logged hpath hI e he
    · have hsome : (visit s (.node a cs) k).2 = some k' := by rw [hvisit]
      have henter := h.enters hpath hI hsome
      rw [hvisit] at henter
      have hpaths : ∀ c ∈ cs, IsPath root ((Rose.node a cs :: up).reverse ++ [c]) := by
        intro c hc
        rw [List.reverse_cons]
        exact hpath.snoc hc
      obtain ⟨hafter, hgood⟩ := ih _ k' s' hpaths henter
      refine ⟨h.leaves hI hsome hafter, fun e he => ?_⟩
      rcases List.mem_append.mp he with he | he
      · exact h.logged hpath hI e he
      · exact hgood e he
  case nil =>
    intro up k s _ hI
    exact ⟨hI, fun e he => absurd he List.not_mem_nil⟩
  case cons =>
    intro t ts iht ihts up k s hpaths hI
    obtain ⟨hfirst, hgood⟩ := iht up k s (hpaths t List.mem_cons_self) hI
    obtain ⟨hrest, hgoods⟩ := ihts up k _ (fun u hu => hpaths u (List.mem_cons_of_mem _ hu)) hfirst
    rw [descendForest, descendForestTrace]
    refine ⟨hrest, fun e he => ?_⟩
    rcases List.mem_append.mp he with he | he
    · exact hgood e he
    · exact hgoods e he

/-- Every log entry of a walk that starts below `up` is good. -/
theorem PathInvariant.trace (h : PathInvariant root visit log I good) {t : Rose α}
    {up : List (Rose α)} {k : κ} {s : σ} (hpath : IsPath root (up.reverse ++ [t]))
    (hI : I up k s) : ∀ e ∈ trace .leftmostOnTop visit log t k s, good e := by
  rw [trace_eq_descendTrace]
  exact (h.descend.1 t up k s hpath hI).2

end

/-! ### One pop at a time -/

section

variable {α κ σ β : Type*}

/-- The stack, its top first, and the state. -/
structure Config (α κ σ : Type*) where
  stack : List (Rose α × κ)
  state : σ

/-- The nodes still to be visited, with their subtrees. -/
def Config.forest (c : Config α κ σ) : List (Rose α) :=
  Rose.forestNodes (c.stack.map Prod.fst)

inductive Step (order : PushOrder) (visit : Visit α κ σ) : Config α κ σ → Config α κ σ → Prop
  | skip {t k stack s} (h : (visit s t k).2 = none) :
    Step order visit ⟨(t, k) :: stack, s⟩ ⟨stack, (visit s t k).1⟩
  | enter {t k stack s k'} (h : (visit s t k).2 = some k') :
    Step order visit ⟨(t, k) :: stack, s⟩
      ⟨(order.arrange t.children).map (·, k') ++ stack, (visit s t k).1⟩

abbrev Reaches (order : PushOrder) (visit : Visit α κ σ) :
    Config α κ σ → Config α κ σ → Prop :=
  Relation.ReflTransGen (Step order visit)

variable {order : PushOrder} {visit : Visit α κ σ}

/-- With a step for every pending node the loop runs until the stack is empty. -/
theorem reaches_loop (n : ℕ) (stack : List (Rose α × κ)) (s : σ) (hn : pending stack ≤ n) :
    Reaches order visit ⟨stack, s⟩ ⟨[], loop order visit n stack s⟩ := by
  induction n generalizing stack s with
  | zero =>
    cases stack with
    | nil => exact Relation.ReflTransGen.refl
    | cons top rest =>
      rw [pending, List.map_cons, Rose.forestSize_cons, Rose.size_eq] at hn
      omega
  | succ n ih =>
    cases stack with
    | nil => exact Relation.ReflTransGen.refl
    | cons top rest =>
      obtain ⟨t, k⟩ := top
      have hsize : Rose.forestSize t.children + pending rest ≤ n := by
        rw [pending, List.map_cons, Rose.forestSize_cons, Rose.size_eq] at hn
        dsimp only at hn
        rw [pending]
        omega
      rw [loop]
      rcases hvisit : visit s t k with ⟨s', _ | k'⟩
      · have hstep : Step order visit ⟨(t, k) :: rest, s⟩ ⟨rest, (visit s t k).1⟩ :=
          Step.skip (by rw [hvisit])
        rw [hvisit] at hstep
        exact (ih rest s' (by omega)).head hstep
      · have hstep : Step order visit ⟨(t, k) :: rest, s⟩
            ⟨(order.arrange t.children).map (·, k') ++ rest, (visit s t k).1⟩ :=
          Step.enter (by rw [hvisit])
        rw [hvisit] at hstep
        refine (ih _ s' ?_).head hstep
        rw [pending_push, forestSize_arrange]
        exact hsize

theorem reaches_run (root : Rose α) (k : κ) (s : σ) :
    Reaches order visit ⟨[(root, k)], s⟩ ⟨[], run order visit root k s⟩ :=
  reaches_loop _ _ _ (by simp [pending, Rose.forestSize_cons])

/-- A step gives up the node on top, and the nodes below it if it skips them. -/
theorem Step.forest_sublist {c d : Config α κ σ} (h : Step .leftmostOnTop visit c d) :
    ∃ t k rest, c.stack = (t, k) :: rest ∧
      d.forest.Sublist (Rose.forestNodes t.children ++ Rose.forestNodes (rest.map Prod.fst)) := by
  cases h with
  | @skip t k rest s h => exact ⟨t, k, rest, rfl, List.sublist_append_right _ _⟩
  | @enter t k rest s k' h =>
    refine ⟨t, k, rest, rfl, ?_⟩
    rw [Config.forest, List.map_append, List.map_map, Rose.forestNodes_eq_flatMap,
      List.flatMap_append, ← Rose.forestNodes_eq_flatMap, ← Rose.forestNodes_eq_flatMap]
    simp [PushOrder.arrange, Function.comp_def]

theorem Config.forest_cons (t : Rose α) (k : κ) (rest : List (Rose α × κ)) (s : σ) :
    (Config.mk ((t, k) :: rest) s).forest =
      t :: (Rose.forestNodes t.children ++ Rose.forestNodes (rest.map Prod.fst)) := by
  rw [Config.forest, List.map_cons, Rose.forestNodes, Rose.nodes_eq, List.cons_append]

theorem Reaches.forest_sublist {c d : Config α κ σ} (h : Reaches .leftmostOnTop visit c d) :
    d.forest.Sublist c.forest := by
  induction h with
  | refl => exact List.Sublist.refl _
  | @tail d e _ hstep ih =>
    obtain ⟨t, k, rest, hstack, hsub⟩ := hstep.forest_sublist
    refine (hsub.trans ?_).trans ih
    obtain ⟨stack, s⟩ := d
    obtain rfl := hstack
    rw [Config.forest_cons]
    exact List.sublist_cons_self _ _

end

end BigCodeAnalysis.Trees.StackWalk
