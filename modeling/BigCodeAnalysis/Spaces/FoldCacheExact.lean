import BigCodeAnalysis.Spaces.FoldCache
import Mathlib.Tactic.Common

/-! The memo never changes an answer. A stored state is exact: it is the plain state at
the one node that has the slot's id, because a node's id fixes its ancestry. Each step
of a memoised fold keeps every slot exact and answers what the plain step answers, so
do whole folds, folds inside folds and any sequence of them. -/

namespace BigCodeAnalysis.Spaces

open Trees

variable {L : Type} {tree : SyntaxTree}

/-! ### One node, one ancestry -/

namespace Located

theorem ext_id {a b : Located tree} (h : a.node.id = b.node.id) : a = b := by
  obtain ⟨chainA, nodeA, hA⟩ := a
  obtain ⟨chainB, nodeB, hB⟩ := b
  obtain ⟨rfl, hnode⟩ := List.append_inj' (hA.unique tree.distinct hB h) rfl
  obtain rfl : nodeA = nodeB := List.head_eq_of_cons_eq hnode
  rfl

theorem id_ne_zero (self : Located tree) : self.node.id ≠ 0 :=
  tree.nonzero _ self.isPath.last_mem_nodes

theorem ancestor?_of_lt (self : Located tree) {depth : ℕ} (h : depth < self.chain.length) :
    self.ancestor? depth = some (⟨self.chain.take depth, self.chain[depth], self.isPath_take h⟩,
      self.chain[depth + 1]?.getD self.node) := dif_pos h

/-- Above an ancestor, its path and the path of the node it is an ancestor of agree. -/
theorem ancestor?_above (self : Located tree) {depth d : ℕ} (h : depth < self.chain.length)
    (hd : d < depth) :
    (⟨self.chain.take depth, self.chain[depth], self.isPath_take h⟩ : Located tree).ancestor? d =
      self.ancestor? d := by
  have hlen : d < (self.chain.take depth).length := by
    rw [List.length_take]
    omega
  have hbelow : (self.chain.take depth)[d + 1]?.getD self.chain[depth] =
      self.chain[d + 1]?.getD self.node := by
    have hin : d + 1 < self.chain.length := by omega
    rw [List.getElem?_eq_getElem hin]
    by_cases hlast : d + 1 < depth
    · rw [List.getElem?_take_of_lt hlast, List.getElem?_eq_getElem hin]
      rfl
    · obtain rfl : d + 1 = depth := by omega
      rw [List.getElem?_eq_none (by rw [List.length_take]; omega)]
      rfl
  rw [ancestor?_of_lt _ hlen, ancestor?_of_lt self (hd.trans h)]
  simp only [Option.some_inj, Prod.mk.injEq]
  exact ⟨ext_id (by simp), hbelow⟩

end Located

/-! ### Plain folds -/

theorem foldSteps_add (step : UInt8 → ℕ → Option UInt8) (a b depth : ℕ) (state : UInt8) :
    foldSteps step (a + b) depth state =
      (foldSteps step a depth state).bind (foldSteps step b (depth + a)) := by
  induction a generalizing depth state with
  | zero => simp [foldSteps]
  | succ a ih =>
    rw [Nat.succ_add, foldSteps, foldSteps]
    cases step state depth with
    | none => rfl
    | some next =>
      have hsucc : depth + 1 + a = depth + (a + 1) := by omega
      exact (ih (depth + 1) next).trans (by rw [hsucc]; rfl)

theorem foldSteps_congr {step step' : UInt8 → ℕ → Option UInt8} {count depth : ℕ} {state : UInt8}
    (h : ∀ d, depth ≤ d → d < depth + count → ∀ s, step s d = step' s d) :
    foldSteps step count depth state = foldSteps step' count depth state := by
  induction count generalizing depth state with
  | zero => rfl
  | succ count ih =>
    rw [foldSteps, foldSteps, h depth le_rfl (by omega)]
    cases step' state depth with
    | none => rfl
    | some next => exact ih fun d hge hlt => h d (by omega) (by omega)

theorem foldSteps_mono {step step' : UInt8 → ℕ → Option UInt8}
    (h : ∀ s d u, step s d = some u → step' s d = some u) {count depth : ℕ} {state u : UInt8}
    (hu : foldSteps step count depth state = some u) :
    foldSteps step' count depth state = some u := by
  induction count generalizing depth state with
  | zero => exact hu
  | succ count ih =>
    obtain ⟨next, hnext, hrest⟩ := Option.bind_eq_some_iff.mp hu
    exact Option.bind_eq_some_iff.mpr ⟨next, h _ _ _ hnext, ih hrest⟩

theorem Prog.eval_mono {fold fold' : L → Located tree → ℕ → Option UInt8}
    (h : ∀ lane node skip u, fold lane node skip = some u → fold' lane node skip = some u)
    {p : Prog L tree} {u : UInt8} (hu : p.eval fold = some u) : p.eval fold' = some u := by
  induction p with
  | ret state => exact hu
  | ask lane node skip next ih =>
    obtain ⟨answer, hanswer, hrest⟩ := Option.bind_eq_some_iff.mp hu
    exact Option.bind_eq_some_iff.mpr ⟨answer, h _ _ _ _ hanswer, ih answer hrest⟩

variable (questions : L → Question L tree)

/-- The step of `plainFold` for one ancestor. -/
def plainStep (fuel : ℕ) (lane : L) (node : Located tree) (state : UInt8) (depth : ℕ) :
    Option UInt8 :=
  (stepAt questions lane node state depth).bind (Prog.eval (plainFold questions fuel))

theorem plainFold_succ (fuel : ℕ) (lane : L) (node : Located tree) (skip : ℕ) :
    plainFold questions (fuel + 1) lane node skip =
      foldSteps (plainStep questions fuel lane node) (node.chain.length - skip) 0
        (questions lane).init := rfl

variable {questions}

theorem plainStep_mono {fuel fuel' : ℕ}
    (h : ∀ lane node skip u, plainFold questions fuel lane node skip = some u →
      plainFold questions fuel' lane node skip = some u) {lane : L} {node : Located tree}
    {state u : UInt8} {depth : ℕ} (hu : plainStep questions fuel lane node state depth = some u) :
    plainStep questions fuel' lane node state depth = some u := by
  obtain ⟨p, hp, heval⟩ := Option.bind_eq_some_iff.mp hu
  exact Option.bind_eq_some_iff.mpr ⟨p, hp, Prog.eval_mono h heval⟩

/-- A fold that answers keeps its answer when folds may call deeper. -/
theorem plainFold_mono {fuel fuel' : ℕ} (hle : fuel ≤ fuel') {lane : L} {node : Located tree}
    {skip : ℕ} {u : UInt8} (hu : plainFold questions fuel lane node skip = some u) :
    plainFold questions fuel' lane node skip = some u := by
  induction fuel generalizing fuel' lane node skip u with
  | zero => cases hu
  | succ fuel ih =>
    obtain ⟨m, rfl⟩ : ∃ m, fuel' = m + 1 := ⟨fuel' - 1, by omega⟩
    rw [plainFold_succ] at hu ⊢
    exact foldSteps_mono (fun _ _ _ h => plainStep_mono (fun _ _ _ _ h => ih (by omega) h) h) hu

theorem plainStep_mono_le {fuel fuel' : ℕ} (hle : fuel ≤ fuel') {lane : L} {node : Located tree}
    {state u : UInt8} {depth : ℕ} (hu : plainStep questions fuel lane node state depth = some u) :
    plainStep questions fuel' lane node state depth = some u :=
  plainStep_mono (fun _ _ _ _ h => plainFold_mono hle h) hu

/-- The steps down to an ancestor are the whole fold at that ancestor. -/
theorem foldSteps_ancestor (fuel : ℕ) (lane : L) (node : Located tree) {depth : ℕ}
    (h : depth < node.chain.length) :
    plainFold questions (fuel + 1) lane
        ⟨node.chain.take depth, node.chain[depth], node.isPath_take h⟩ 0 =
      foldSteps (plainStep questions fuel lane node) depth 0 (questions lane).init := by
  have hlen : (node.chain.take depth).length - 0 = depth := by
    rw [List.length_take]
    omega
  rw [plainFold_succ, hlen]
  refine foldSteps_congr fun d _ hd s => ?_
  rw [plainStep, plainStep, stepAt, stepAt, node.ancestor?_above h (by omega)]

/-! ### Exact slots -/

/-- Whatever node has the id of a slot, the plain state at that node is the slot's. -/
def ExactSlots (questions : L → Question L tree) (lane : L) (slots : Slots) : Prop :=
  ∀ slot ∈ slots, ∀ node : Located tree, node.node.id = slot.1 →
    ∃ fuel, plainFold questions fuel lane node 0 = some slot.2

def Exact (questions : L → Question L tree) (cache : FoldCache L) : Prop :=
  ∀ lane, ExactSlots questions lane (cache lane)

theorem exact_empty : Exact questions FoldCache.empty := fun _ _ h => absurd h List.not_mem_nil

theorem Exact.update [DecidableEq L] {cache : FoldCache L} (h : Exact questions cache) {lane : L}
    {slots : Slots} (hslots : ExactSlots questions lane slots) :
    Exact questions (Function.update cache lane slots) := by
  intro other
  by_cases heq : other = lane
  · subst heq
    rwa [Function.update_self]
  · rw [Function.update_of_ne heq]
    exact h other

/-- An empty slot is no node's. -/
theorem ExactSlots.grown {lane : L} {slots : Slots} (h : ExactSlots questions lane slots)
    (memoEnd : ℕ) : ExactSlots questions lane (grown slots memoEnd) := by
  intro slot hslot node hid
  unfold Spaces.grown at hslot
  split at hslot
  · rcases List.mem_append.mp hslot with hold | hnew
    · exact h slot hold node hid
    · rw [(List.mem_replicate.mp hnew).2] at hid
      exact absurd hid node.id_ne_zero
  · exact h slot hslot node hid

theorem lt_length_grown (slots : Slots) (memoEnd : ℕ) : memoEnd < (grown slots memoEnd).length := by
  unfold grown
  split
  · rw [List.length_append, List.length_replicate]
    omega
  · omega

/-- Storing the state folded down to an ancestor, under its id. -/
theorem ExactSlots.set {lane : L} {slots : Slots} (h : ExactSlots questions lane slots)
    {node : Located tree} {depth fuel : ℕ} (hdepth : depth < node.chain.length) {state : UInt8}
    (hstate : foldSteps (plainStep questions fuel lane node) depth 0 (questions lane).init =
      some state) :
    ExactSlots questions lane (slots.set depth (node.chain[depth].id, state)) := by
  intro slot hslot other hid
  rcases List.mem_or_eq_of_mem_set hslot with hold | rfl
  · exact h slot hold other hid
  · obtain rfl : other = ⟨node.chain.take depth, node.chain[depth], node.isPath_take hdepth⟩ :=
      Located.ext_id hid
    exact ⟨fuel + 1, (foldSteps_ancestor fuel lane node hdepth).trans hstate⟩

/-- The slot a fold starts from names an ancestor of its chain, or it is depth 0. -/
theorem deepestStored_spec {slots : Slots} (chain : Ancestors) {start : ℕ}
    (hslots : start < slots.length) (hchain : start = 0 ∨ start < chain.length) :
    ∃ depth ≤ start, deepestStored slots chain start = some depth ∧
      (depth = 0 ∨ ∃ slot ancestor, slots[depth]? = some slot ∧ chain[depth]? = some ancestor ∧
        slot.1 = Node.id ancestor) := by
  induction start with
  | zero => exact ⟨0, le_rfl, rfl, .inl rfl⟩
  | succ start ih =>
    have hlt : start + 1 < chain.length := hchain.resolve_left (by omega)
    have hslot := List.getElem?_eq_getElem hslots
    have hancestor := List.getElem?_eq_getElem hlt
    by_cases hid : slots[start + 1].1 = Node.id chain[start + 1]
    · refine ⟨start + 1, le_rfl, ?_, .inr ⟨_, _, hslot, hancestor, hid⟩⟩
      simp [deepestStored, hslot, hancestor, hid]
    · obtain ⟨depth, hle, hstored, hspec⟩ := ih (by omega) (.inr (by omega))
      refine ⟨depth, by omega, ?_, hspec⟩
      simpa [deepestStored, hslot, hancestor, hid] using hstored

/-! ### Memoised computations -/

/-- `c` keeps the slots exact, answers only what `plain` answers and answers whenever
`plain` does within `fuel`. -/
structure Memoises (questions : L → Question L tree) (fuel : ℕ) (plain : ℕ → Option UInt8)
    (c : FoldCache L → Option (UInt8 × FoldCache L)) : Prop where
  sound : ∀ {cache cache' u}, Exact questions cache → c cache = some (u, cache') →
    Exact questions cache' ∧ ∃ m, plain m = some u
  complete : ∀ {cache u}, Exact questions cache → plain fuel = some u →
    ∃ cache', c cache = some (u, cache')

/-- A computation by fuel that never changes an answer it has given. -/
def Steady (plain : ℕ → Option UInt8) : Prop :=
  ∀ m m' u, m ≤ m' → plain m = some u → plain m' = some u

theorem Steady.unique {plain : ℕ → Option UInt8} (h : Steady plain) {m m' : ℕ} {u v : UInt8}
    (hu : plain m = some u) (hv : plain m' = some v) : u = v := by
  have hu' := h m (max m m') u (le_max_left _ _) hu
  have hv' := h m' (max m m') v (le_max_right _ _) hv
  exact Option.some_inj.mp (hu'.symm.trans hv')

theorem Memoises.pure (fuel : ℕ) (u : UInt8) :
    Memoises questions fuel (fun _ => some u) fun cache => some (u, cache) where
  sound hexact h := by
    obtain ⟨rfl, rfl⟩ := Prod.mk.inj (Option.some_inj.mp h)
    exact ⟨hexact, 0, rfl⟩
  complete _ h := ⟨_, by rw [Option.some_inj.mp h]⟩

theorem Memoises.bind {fuel : ℕ} {plain : ℕ → Option UInt8} {next : UInt8 → ℕ → Option UInt8}
    {c : FoldCache L → Option (UInt8 × FoldCache L)}
    {d : UInt8 → FoldCache L → Option (UInt8 × FoldCache L)} (hplain : Steady plain)
    (hnext : ∀ u, Steady (next u)) (hc : Memoises questions fuel plain c)
    (hd : ∀ u, Memoises questions fuel (next u) (d u)) :
    Memoises questions fuel (fun m => (plain m).bind fun u => next u m) fun cache =>
      (c cache).bind fun p => d p.1 p.2 where
  sound hexact h := by
    obtain ⟨⟨u, cache₁⟩, hfirst, hrest⟩ := Option.bind_eq_some_iff.mp h
    obtain ⟨hexact₁, m₁, hm₁⟩ := hc.sound hexact hfirst
    obtain ⟨hexact₂, m₂, hm₂⟩ := (hd u).sound hexact₁ hrest
    refine ⟨hexact₂, max m₁ m₂, Option.bind_eq_some_iff.mpr ⟨u, ?_, ?_⟩⟩
    · exact hplain m₁ _ u (le_max_left _ _) hm₁
    · exact hnext u m₂ _ _ (le_max_right _ _) hm₂
  complete hexact h := by
    obtain ⟨u, hfirst, hrest⟩ := Option.bind_eq_some_iff.mp h
    obtain ⟨cache₁, h₁⟩ := hc.complete hexact hfirst
    have hexact₁ := (hc.sound hexact h₁).1
    obtain ⟨cache₂, h₂⟩ := (hd u).complete hexact₁ hrest
    exact ⟨cache₂, Option.bind_eq_some_iff.mpr ⟨_, h₁, h₂⟩⟩

theorem steady_plainFold (lane : L) (node : Located tree) (skip : ℕ) :
    Steady fun m => plainFold questions m lane node skip :=
  fun _ _ _ hle h => plainFold_mono hle h

theorem steady_eval (p : Prog L tree) : Steady fun m => p.eval (plainFold questions m) :=
  fun _ _ _ hle h => Prog.eval_mono (fun _ _ _ _ h => plainFold_mono hle h) h

theorem steady_plainStep (lane : L) (node : Located tree) (state : UInt8) (depth : ℕ) :
    Steady fun m => plainStep questions m lane node state depth :=
  fun _ _ _ hle h => plainStep_mono_le hle h

theorem steady_foldSteps (lane : L) (node : Located tree) (count depth : ℕ) (state : UInt8) :
    Steady fun m => foldSteps (plainStep questions m lane node) count depth state :=
  fun _ _ _ hle h => foldSteps_mono (fun _ _ _ h => plainStep_mono_le hle h) h

theorem Prog.memoises {fuel : ℕ}
    {fold : L → Located tree → ℕ → FoldCache L → Option (UInt8 × FoldCache L)}
    (hfold : ∀ lane node skip, Memoises questions fuel
      (fun m => plainFold questions m lane node skip) (fold lane node skip)) (p : Prog L tree) :
    Memoises questions fuel (fun m => p.eval (plainFold questions m)) (p.run fold) := by
  induction p with
  | ret state => exact Memoises.pure fuel state
  | ask lane node skip next ih =>
    exact Memoises.bind (steady_plainFold lane node skip) (fun u => steady_eval (next u))
      (hfold lane node skip) ih

theorem foldThrough_memoises {fuel : ℕ} {lane : L} {node : Located tree}
    {step : UInt8 → ℕ → FoldCache L → Option (UInt8 × FoldCache L)}
    (hstep : ∀ state depth, Memoises questions fuel
      (fun m => plainStep questions m lane node state depth) (step state depth))
    (count depth : ℕ) (state : UInt8) :
    Memoises questions fuel
      (fun m => foldSteps (plainStep questions m lane node) count depth state)
      (foldThrough step count depth state) := by
  induction count generalizing depth state with
  | zero => exact Memoises.pure fuel state
  | succ count ih =>
    exact Memoises.bind (steady_plainStep lane node state depth)
      (fun u => steady_foldSteps lane node count (depth + 1) u) (hstep state depth)
      fun u => ih (depth + 1) u

/-- The refolding loop, started from the plain state at its first depth. -/
structure Refolds (questions : L → Question L tree) (fuel : ℕ) (lane : L) (node : Located tree)
    (count depth : ℕ) (state : UInt8) (slots : Slots)
    (c : FoldCache L → Option (UInt8 × Slots × FoldCache L)) : Prop where
  sound : ∀ {cache cache' slots' u}, Exact questions cache → c cache = some (u, slots', cache') →
    Exact questions cache' ∧ ExactSlots questions lane slots' ∧
      ∃ m, foldSteps (plainStep questions m lane node) count depth state = some u
  complete : ∀ {cache u}, Exact questions cache →
    foldSteps (plainStep questions fuel lane node) count depth state = some u →
    ∃ slots' cache', c cache = some (u, slots', cache')

theorem refold_spec {fuel : ℕ} {lane : L} {node : Located tree}
    {step : UInt8 → ℕ → FoldCache L → Option (UInt8 × FoldCache L)}
    (hstep : ∀ state depth, Memoises questions fuel
      (fun m => plainStep questions m lane node state depth) (step state depth))
    {count depth : ℕ} {state : UInt8} {slots : Slots} {m : ℕ}
    (hchain : count = 0 ∨ depth + count < node.chain.length) (hslots : depth + count < slots.length)
    (hexact : ExactSlots questions lane slots)
    (hstate : foldSteps (plainStep questions m lane node) depth 0 (questions lane).init =
      some state) :
    Refolds questions fuel lane node count depth state slots
      (refold step node.chain count depth state slots) := by
  induction count generalizing depth state slots m with
  | zero =>
    constructor
    · rintro cache cache' slots' u hcache h
      obtain ⟨rfl, hrest⟩ := Prod.mk.inj (Option.some_inj.mp h)
      obtain ⟨rfl, rfl⟩ := Prod.mk.inj hrest
      exact ⟨hcache, hexact, 0, rfl⟩
    · intro cache u _ h
      exact ⟨_, _, by rw [refold, Option.some_inj.mp h]⟩
  | succ count ih =>
    have hlt : depth + 1 < node.chain.length := by omega
    have hancestor := List.getElem?_eq_getElem hlt
    have hin : depth + 1 < slots.length := by omega
    -- the state after the step is the one at the ancestor below
    have hnext : ∀ u m', plainStep questions m' lane node state depth = some u →
        foldSteps (plainStep questions (max m m') lane node) (depth + 1) 0
          (questions lane).init = some u := by
      intro u m' hu
      have hold : foldSteps (plainStep questions (max m m') lane node) depth 0
          (questions lane).init = some state :=
        steady_foldSteps lane node depth 0 _ m _ _ (le_max_left _ _) hstate
      have hone := plainStep_mono_le (le_max_right m m') hu
      rw [foldSteps_add, hold, Option.bind_some, foldSteps, Nat.zero_add, hone]
      rfl
    have hrest : ∀ u m', plainStep questions m' lane node state depth = some u →
        Refolds questions fuel lane node count (depth + 1) u
          (slots.set (depth + 1) (node.chain[depth + 1].id, u))
          (refold step node.chain count (depth + 1) u
            (slots.set (depth + 1) (node.chain[depth + 1].id, u))) := by
      intro u m' hu
      refine ih (by omega) ?_ (hexact.set hlt (hnext u m' hu)) (hnext u m' hu)
      rw [List.length_set]
      omega
    have hunfold : ∀ cache, refold step node.chain (count + 1) depth state slots cache =
        (step state depth cache).bind fun p => refold step node.chain count (depth + 1) p.1
          (slots.set (depth + 1) (node.chain[depth + 1].id, p.1)) p.2 := by
      intro cache
      rw [refold]
      cases step state depth cache with
      | none => rfl
      | some p => simp [hancestor, hin]
    constructor
    · intro cache cache' slots' u hcache h
      rw [hunfold] at h
      obtain ⟨⟨v, cache₁⟩, hfirst, htail⟩ := Option.bind_eq_some_iff.mp h
      obtain ⟨hcache₁, m₁, hm₁⟩ := (hstep state depth).sound hcache hfirst
      obtain ⟨hcache', hslots', m₂, hm₂⟩ := (hrest v m₁ hm₁).sound hcache₁ htail
      refine ⟨hcache', hslots', max m₁ m₂, Option.bind_eq_some_iff.mpr ⟨v, ?_, ?_⟩⟩
      · exact plainStep_mono_le (le_max_left _ _) hm₁
      · exact steady_foldSteps lane node count (depth + 1) v m₂ _ _ (le_max_right _ _) hm₂
    · intro cache u hcache h
      obtain ⟨v, hfirst, htail⟩ := Option.bind_eq_some_iff.mp h
      obtain ⟨cache₁, h₁⟩ := (hstep state depth).complete hcache hfirst
      have hcache₁ := ((hstep state depth).sound hcache h₁).1
      obtain ⟨slots', cache', h₂⟩ := (hrest v fuel hfirst).complete hcache₁ htail
      refine ⟨slots', cache', ?_⟩
      rw [hunfold]
      exact Option.bind_eq_some_iff.mpr ⟨_, h₁, h₂⟩

/-- The state a fold starts from is the plain one at its depth. -/
theorem start_state {lane : L} {slots : Slots} (h : ExactSlots questions lane slots)
    {node : Located tree} {depth : ℕ} (hdepth : depth = 0 ∨ ∃ slot ancestor,
      slots[depth]? = some slot ∧ node.chain[depth]? = some ancestor ∧
        slot.1 = Node.id ancestor) :
    ∃ state m, startState (questions lane).init slots depth = some state ∧
      foldSteps (plainStep questions m lane node) depth 0 (questions lane).init = some state := by
  by_cases hzero : depth = 0
  · subst hzero
    exact ⟨_, 0, rfl, rfl⟩
  · obtain ⟨slot, ancestor, hslot, hancestor, hid⟩ := hdepth.resolve_left hzero
    obtain ⟨hlt, rfl⟩ := List.getElem?_eq_some_iff.mp hancestor
    obtain ⟨m, hm⟩ := h slot (List.mem_of_getElem? hslot)
      ⟨node.chain.take depth, node.chain[depth], node.isPath_take hlt⟩ hid.symm
    refine ⟨slot.2, m, by rw [startState, if_neg hzero, hslot]; rfl, ?_⟩
    rw [← foldSteps_ancestor m lane node hlt]
    exact plainFold_mono (Nat.le_succ m) hm

/-! ### Whole folds -/

variable [DecidableEq L]

section Loop

variable {fuel : ℕ} {lane : L} {node : Located tree} {stop : ℕ}
  {step : (L → Bool) → UInt8 → ℕ → FoldCache L → Option (UInt8 × FoldCache L)}

omit [DecidableEq L] in
/-- The loop of a fold that has its slots: where it starts, and that it refolds. -/
theorem refolds_from_slots
    (hstep : ∀ held state depth, Memoises questions fuel
      (fun m => plainStep questions m lane node state depth) (step held state depth))
    (held : L → Bool) {cache : FoldCache L} (hcache : Exact questions cache) {memoEnd : ℕ}
    (hend : memoEnd = 0 ∨ memoEnd < node.chain.length) :
    ∃ depth ≤ memoEnd, ∃ state m,
      deepestStored (grown (cache lane) memoEnd) node.chain memoEnd = some depth ∧
      startState (questions lane).init (grown (cache lane) memoEnd) depth = some state ∧
      foldSteps (plainStep questions m lane node) depth 0 (questions lane).init = some state ∧
      Refolds questions fuel lane node (memoEnd - depth) depth state (grown (cache lane) memoEnd)
        (refold (step held) node.chain (memoEnd - depth) depth state
          (grown (cache lane) memoEnd)) := by
  have hslots : ExactSlots questions lane (grown (cache lane) memoEnd) :=
    (hcache lane).grown memoEnd
  have hlen := lt_length_grown (cache lane) memoEnd
  obtain ⟨depth, hle, hdepth, hspec⟩ := deepestStored_spec node.chain hlen hend
  obtain ⟨state, m, hstate, hplain⟩ := start_state hslots hspec
  refine ⟨depth, hle, state, m, hdepth, hstate, hplain, ?_⟩
  exact refold_spec (hstep held) (by omega) (by omega) hslots hplain

theorem FoldCache.fold_memoises (held : L → Bool)
    (hstep : ∀ held state depth, Memoises questions fuel
      (fun m => plainStep questions m lane node state depth) (step held state depth))
    (hstop : stop ≤ node.chain.length) :
    Memoises questions fuel
      (fun m => foldSteps (plainStep questions m lane node) stop 0 (questions lane).init)
      (FoldCache.fold held lane node.chain stop (questions lane).init step) := by
  by_cases hheld : held lane = true
  · -- the slots are borrowed: the fold runs without them
    have hfold : FoldCache.fold held lane node.chain stop (questions lane).init step =
        foldThrough (step held) stop 0 (questions lane).init := by
      funext cache
      exact if_pos hheld
    rw [hfold]
    exact foldThrough_memoises (hstep held) stop 0 _
  set init := (questions lane).init
  set borrowed := Function.update held lane true with hborrowed
  set memoEnd := min stop (node.chain.length - 1) with hmemoEnd
  have hend : memoEnd = 0 ∨ memoEnd < node.chain.length := by omega
  -- what the memo holds fixes where the loop starts
  have hfold : ∀ {cache : FoldCache L} {depth state},
      deepestStored (grown (cache lane) memoEnd) node.chain memoEnd = some depth →
      startState init (grown (cache lane) memoEnd) depth = some state →
      FoldCache.fold held lane node.chain stop init step cache =
        (refold (step borrowed) node.chain (memoEnd - depth) depth state
          (grown (cache lane) memoEnd) cache).bind fun p =>
            (lastStep (step borrowed) memoEnd stop p.1 p.2.2).bind fun q =>
              some (q.1, Function.update q.2 lane p.2.1) := by
    intro cache depth state hdepth hstate
    rw [FoldCache.fold, if_neg hheld]
    simp only [← hmemoEnd, ← hborrowed, hdepth, hstate, Option.bind_eq_bind, Option.bind_some]
    rfl
  constructor
  · intro cache cache' u hcache h
    obtain ⟨depth, hle, state, m, hdepth, hstate, hplain, hrefold⟩ :=
      refolds_from_slots hstep borrowed hcache hend
    rw [hfold hdepth hstate] at h
    obtain ⟨⟨v, slots₁, cache₁⟩, hloop, htail⟩ := Option.bind_eq_some_iff.mp h
    obtain ⟨⟨w, cache₂⟩, hfinal, hanswer⟩ := Option.bind_eq_some_iff.mp htail
    obtain ⟨rfl, rfl⟩ := Prod.mk.inj (Option.some_inj.mp hanswer)
    obtain ⟨hcache₁, hslots₁, m₁, hm₁⟩ := hrefold.sound hcache hloop
    have hmemo : foldSteps (plainStep questions (max m m₁) lane node) memoEnd 0 init = some v := by
      have hsplit : memoEnd = depth + (memoEnd - depth) := by omega
      rw [hsplit, foldSteps_add]
      refine Option.bind_eq_some_iff.mpr ⟨state, ?_, ?_⟩
      · exact steady_foldSteps lane node depth 0 init m _ _ (le_max_left _ _) hplain
      · rw [Nat.zero_add]
        exact steady_foldSteps lane node _ depth state m₁ _ _ (le_max_right _ _) hm₁
    by_cases hmore : memoEnd < stop
    · rw [lastStep, if_pos hmore] at hfinal
      obtain ⟨hcache₂, m₂, hm₂⟩ := (hstep borrowed v memoEnd).sound hcache₁ hfinal
      refine ⟨hcache₂.update hslots₁, max (max m m₁) m₂, ?_⟩
      have hlast : stop = memoEnd + 1 := by omega
      rw [hlast, foldSteps_add]
      refine Option.bind_eq_some_iff.mpr ⟨v, ?_, ?_⟩
      · exact steady_foldSteps lane node memoEnd 0 init _ _ _ (le_max_left _ _) hmemo
      · have hone := plainStep_mono_le (le_max_right (max m m₁) m₂) hm₂
        rw [Nat.zero_add, foldSteps, hone]
        rfl
    · rw [lastStep, if_neg hmore] at hfinal
      obtain ⟨rfl, rfl⟩ := Prod.mk.inj (Option.some_inj.mp hfinal)
      have hall : stop = memoEnd := by omega
      exact ⟨hcache₁.update hslots₁, max m m₁, by rw [hall]; exact hmemo⟩
  · intro cache u hcache h
    obtain ⟨depth, hle, state, m, hdepth, hstate, hplain, hrefold⟩ :=
      refolds_from_slots hstep borrowed hcache hend
    have hsplit : stop = depth + (memoEnd - depth) + (stop - memoEnd) := by omega
    rw [hsplit, foldSteps_add] at h
    obtain ⟨v, hmemo, hrest⟩ := Option.bind_eq_some_iff.mp h
    rw [foldSteps_add] at hmemo
    obtain ⟨state', hstart, hloop⟩ := Option.bind_eq_some_iff.mp hmemo
    obtain rfl : state' = state := (steady_foldSteps lane node depth 0 init).unique hstart hplain
    rw [Nat.zero_add] at hloop
    obtain ⟨slots₁, cache₁, h₁⟩ := hrefold.complete hcache hloop
    have hcache₁ := (hrefold.sound hcache h₁).1
    have hpos : 0 + (depth + (memoEnd - depth)) = memoEnd := by omega
    rw [hpos] at hrest
    by_cases hmore : memoEnd < stop
    · have hcount : stop - memoEnd = 1 := by omega
      rw [hcount, foldSteps] at hrest
      obtain ⟨w, hone, hw⟩ := Option.bind_eq_some_iff.mp hrest
      obtain rfl : w = u := Option.some_inj.mp hw
      obtain ⟨cache₂, h₂⟩ := (hstep borrowed v memoEnd).complete hcache₁ hone
      refine ⟨Function.update cache₂ lane slots₁, ?_⟩
      rw [hfold hdepth hstate, h₁, Option.bind_some, lastStep, if_pos hmore]
      exact Option.bind_eq_some_iff.mpr ⟨_, h₂, rfl⟩
    · have hcount : stop - memoEnd = 0 := by omega
      rw [hcount] at hrest
      obtain rfl : v = u := Option.some_inj.mp hrest
      refine ⟨Function.update cache₁ lane slots₁, ?_⟩
      rw [hfold hdepth hstate, h₁, Option.bind_some, lastStep, if_neg hmore]
      rfl

end Loop

/-- A memoised fold, whatever is borrowed around it and whatever earlier folds left. -/
theorem foldDown_memoises (fuel : ℕ) (held : L → Bool) (lane : L) (node : Located tree)
    (skip : ℕ) :
    Memoises questions fuel (fun m => plainFold questions m lane node skip)
      (foldDown questions fuel held lane node skip) := by
  induction fuel generalizing held lane node skip with
  | zero =>
    constructor
    · intro cache cache' u _ h
      cases h
    · intro cache u _ h
      cases h
  | succ fuel ih =>
    have hstep : ∀ held state depth, Memoises questions fuel
        (fun m => plainStep questions m lane node state depth)
        (fun cache => (stepAt questions lane node state depth).bind
          fun p => p.run (foldDown questions fuel held) cache) := by
      intro held state depth
      cases hat : stepAt questions lane node state depth with
      | none =>
        constructor
        · intro cache cache' u _ h
          cases h
        · intro cache u _ h
          rw [plainStep, hat] at h
          cases h
      | some p =>
        have hplain : (fun m => plainStep questions m lane node state depth) =
            fun m => p.eval (plainFold questions m) := by
          funext m
          rw [plainStep, hat]
          rfl
        rw [hplain]
        exact p.memoises fun lane node skip => ih held lane node skip
    have hloop := FoldCache.fold_memoises held hstep (Nat.sub_le node.chain.length skip)
    constructor
    · intro cache cache' u hcache h
      obtain ⟨hcache', m, hm⟩ := hloop.sound hcache h
      exact ⟨hcache', m + 1, hm⟩
    · intro cache u hcache h
      exact hloop.complete hcache h

/-! ### An ancestor before a stop -/

omit [DecidableEq L] in
/-- The fold from the root holds 1 exactly when the climb from the node counts. -/
theorem Gate.foldSteps_eq (gate : Gate tree) {lane : L} (hlane : questions lane = gate.question)
    (fuel : ℕ) (node : Located tree) {count : ℕ} (h : count ≤ node.chain.length) :
    foldSteps (plainStep questions fuel lane node) count 0 0 =
      some (if 0 < gate.countSpecificAncestors
        (((List.range count).reverse.filterMap node.ancestor?).map Prod.fst) then 1 else 0) := by
  induction count with
  | zero => rfl
  | succ count ih =>
    have hat := node.ancestor?_of_lt (show count < node.chain.length by omega)
    rw [foldSteps_add, ih (by omega), Option.bind_some, Nat.zero_add, foldSteps, plainStep, stepAt,
      hat, hlane, List.range_succ, List.reverse_append]
    simp only [Option.map_some, Option.bind_some, Gate.question, Prog.eval, List.reverse_cons,
      List.reverse_nil, List.nil_append, List.singleton_append, List.filterMap_cons, hat,
      List.map_cons, Gate.countSpecificAncestors, foldSteps, Option.bind_eq_bind]
    by_cases hstop : gate.stop node.chain[count] = true
    · simp [hstop]
    · by_cases hcheck : (gate.check node.chain[count] && !gate.isElseIf
          ⟨node.chain.take count, node.chain[count], node.isPath_take (by omega)⟩) = true
      · simp [hstop, hcheck]
      · simp [hstop, hcheck]

omit [DecidableEq L] in
theorem Gate.plainFold_eq (gate : Gate tree) {lane : L} (hlane : questions lane = gate.question)
    (fuel : ℕ) (node : Located tree) :
    plainFold questions (fuel + 1) lane node 0 =
      some (if 0 < gate.countSpecificAncestors node.climb then 1 else 0) := by
  have hinit : (questions lane).init = 0 := by
    rw [hlane]
    rfl
  rw [plainFold_succ, hinit]
  exact gate.foldSteps_eq hlane fuel node le_rfl

/-! ### The asks of a walk -/

variable {G : Type} [DecidableEq G] {folds : L → Question (L ⊕ G) tree} {gates : G → Gate tree}

theorem Ask.reply_sound {fuel : ℕ} {ask : Ask L G tree} {cache cache' : FoldCache (L ⊕ G)}
    {reply : Reply} (hcache : Exact (lanes folds gates) cache)
    (h : ask.reply folds gates fuel cache = some (reply, cache')) :
    Exact (lanes folds gates) cache' ∧ ∃ m, ask.plainReply folds gates m = some reply := by
  cases ask with
  | fold lane node skip =>
    obtain ⟨⟨u, cache₁⟩, hfold, hreply⟩ := Option.bind_eq_some_iff.mp h
    obtain ⟨rfl, rfl⟩ := Prod.mk.inj (Option.some_inj.mp hreply)
    obtain ⟨hcache₁, m, hm⟩ := (foldDown_memoises fuel _ lane node skip).sound hcache hfold
    exact ⟨hcache₁, m, by rw [Ask.plainReply, hm]; rfl⟩
  | beforeStop gate node =>
    obtain ⟨⟨u, cache₁⟩, hfold, hreply⟩ := Option.bind_eq_some_iff.mp h
    obtain ⟨rfl, rfl⟩ := Prod.mk.inj (Option.some_inj.mp hreply)
    obtain ⟨hcache₁, m, hm⟩ := (foldDown_memoises fuel _ (.inr gate) node 0).sound hcache hfold
    have hlane : lanes folds gates (.inr gate) = (gates gate).question := rfl
    have hgate := (gates gate).plainFold_eq hlane m node
    have hu := (steady_plainFold (Sum.inr gate) node 0).unique hm hgate
    refine ⟨hcache₁, 0, ?_⟩
    rw [Ask.plainReply, hu]
    split <;> simp [*]

omit [DecidableEq L] [DecidableEq G] in
theorem Ask.plainReply_mono {fuel fuel' : ℕ} (hle : fuel ≤ fuel') {ask : Ask L G tree}
    {reply : Reply} (h : ask.plainReply folds gates fuel = some reply) :
    ask.plainReply folds gates fuel' = some reply := by
  cases ask with
  | fold lane node skip =>
    obtain ⟨u, hu, hreply⟩ := Option.map_eq_some_iff.mp h
    rw [Ask.plainReply, plainFold_mono hle hu, Option.map_some, hreply]
  | beforeStop gate node => exact h

theorem Ask.reply_complete {fuel : ℕ} {ask : Ask L G tree} {cache : FoldCache (L ⊕ G)}
    {reply : Reply} (hcache : Exact (lanes folds gates) cache)
    (h : ask.plainReply folds gates (fuel + 1) = some reply) :
    ∃ cache', ask.reply folds gates (fuel + 1) cache = some (reply, cache') := by
  cases ask with
  | fold lane node skip =>
    obtain ⟨u, hu, hreply⟩ := Option.map_eq_some_iff.mp h
    obtain ⟨cache', hfold⟩ :=
      (foldDown_memoises (fuel + 1) (fun _ => false) lane node skip).complete hcache hu
    exact ⟨cache', by rw [Ask.reply, hfold, ← hreply]; rfl⟩
  | beforeStop gate node =>
    have hlane : lanes folds gates (.inr gate) = (gates gate).question := rfl
    have hgate := (gates gate).plainFold_eq hlane fuel node
    obtain ⟨cache', hfold⟩ :=
      (foldDown_memoises (fuel + 1) (fun _ => false) (.inr gate) node 0).complete hcache hgate
    refine ⟨cache', ?_⟩
    rw [Ask.reply, hfold, ← Option.some_inj.mp h]
    by_cases hcount : 0 < (gates gate).countSpecificAncestors node.climb
    · simp [hcount]
    · simp [hcount]

omit [DecidableEq L] [DecidableEq G] in
theorem plainReplies_cons {fuel : ℕ} {ask : Ask L G tree} {asks : List (Ask L G tree)}
    {out : List Reply} :
    plainReplies folds gates fuel (ask :: asks) = some out ↔
      ∃ reply rest, ask.plainReply folds gates fuel = some reply ∧
        plainReplies folds gates fuel asks = some rest ∧ out = reply :: rest := by
  rw [plainReplies, List.mapM_cons]
  simp only [Option.bind_eq_bind, Option.bind_eq_some_iff, Option.pure_def, Option.some_inj]
  constructor
  · rintro ⟨reply, hreply, rest, hrest, rfl⟩
    exact ⟨reply, rest, hreply, hrest, rfl⟩
  · rintro ⟨reply, rest, hreply, hrest, rfl⟩
    exact ⟨reply, hreply, rest, hrest, rfl⟩

omit [DecidableEq L] [DecidableEq G] in
theorem plainReplies_mono {fuel fuel' : ℕ} (hle : fuel ≤ fuel') {asks : List (Ask L G tree)}
    {out : List Reply} (h : plainReplies folds gates fuel asks = some out) :
    plainReplies folds gates fuel' asks = some out := by
  induction asks generalizing out with
  | nil => exact h
  | cons ask asks ih =>
    obtain ⟨reply, rest, hreply, hrest, rfl⟩ := plainReplies_cons.mp h
    exact plainReplies_cons.mpr ⟨reply, rest, Ask.plainReply_mono hle hreply, ih hrest, rfl⟩

theorem replies_sound {fuel : ℕ} {asks : List (Ask L G tree)} {cache cache' : FoldCache (L ⊕ G)}
    {out : List Reply} (hcache : Exact (lanes folds gates) cache)
    (h : replies folds gates fuel asks cache = some (out, cache')) :
    ∃ m, plainReplies folds gates m asks = some out := by
  induction asks generalizing cache out with
  | nil =>
    obtain ⟨rfl, -⟩ := Prod.mk.inj (Option.some_inj.mp h)
    exact ⟨0, rfl⟩
  | cons ask asks ih =>
    obtain ⟨⟨reply, cache₁⟩, hfirst, hrest⟩ := Option.bind_eq_some_iff.mp h
    obtain ⟨⟨rest, cache₂⟩, htail, hout⟩ := Option.bind_eq_some_iff.mp hrest
    obtain ⟨rfl, rfl⟩ := Prod.mk.inj (Option.some_inj.mp hout)
    obtain ⟨hcache₁, m₁, hm₁⟩ := Ask.reply_sound hcache hfirst
    obtain ⟨m₂, hm₂⟩ := ih hcache₁ htail
    exact ⟨max m₁ m₂, plainReplies_cons.mpr ⟨reply, rest,
      Ask.plainReply_mono (le_max_left _ _) hm₁, plainReplies_mono (le_max_right _ _) hm₂, rfl⟩⟩

theorem replies_complete {fuel : ℕ} {asks : List (Ask L G tree)} {cache : FoldCache (L ⊕ G)}
    {out : List Reply} (hcache : Exact (lanes folds gates) cache)
    (h : plainReplies folds gates (fuel + 1) asks = some out) :
    ∃ cache', replies folds gates (fuel + 1) asks cache = some (out, cache') := by
  induction asks generalizing cache out with
  | nil => exact ⟨cache, by rw [← Option.some_inj.mp h]; rfl⟩
  | cons ask asks ih =>
    obtain ⟨reply, rest, hreply, hrest, rfl⟩ := plainReplies_cons.mp h
    obtain ⟨cache₁, h₁⟩ := Ask.reply_complete hcache hreply
    obtain ⟨cache₂, h₂⟩ := ih (Ask.reply_sound hcache h₁).1 hrest
    exact ⟨cache₂, Option.bind_eq_some_iff.mpr
      ⟨_, h₁, Option.bind_eq_some_iff.mpr ⟨_, h₂, rfl⟩⟩⟩

/-- However its lanes interleave, a walk reads from one memo exactly what plain folds
and plain climbs answer. -/
theorem replies_eq_plain (folds : L → Question (L ⊕ G) tree) (gates : G → Gate tree)
    (asks : List (Ask L G tree)) (out : List Reply) :
    (∃ fuel cache, replies folds gates fuel asks FoldCache.empty = some (out, cache)) ↔
      ∃ fuel, plainReplies folds gates fuel asks = some out := by
  constructor
  · rintro ⟨fuel, cache, h⟩
    exact replies_sound exact_empty h
  · rintro ⟨fuel, h⟩
    exact ⟨fuel + 1, replies_complete exact_empty (plainReplies_mono (Nat.le_succ fuel) h)⟩

/-- A fold that doubles and asks a gate at each ancestor, run twice over one memo and then the
gate alone. -/
theorem replies_eq_plain_twoStatements :
    let folds : Unit → Question (Unit ⊕ Unit) twoStatements := fun _ =>
      ⟨1, fun state ancestor _ => .ask (.inr ()) ancestor 0 fun answer => .ret (2 * state + answer)⟩
    let gates : Unit → Gate twoStatements := fun _ =>
      ⟨fun node => node.label.kindId = 0, fun _ => false, fun _ => false⟩
    ∃ fuel cache, replies folds gates fuel
      [.fold (.inl ()) twoStatements.second 1, .fold (.inl ()) twoStatements.second 0,
        .beforeStop () twoStatements.second] FoldCache.empty =
      some ([.state 2, .state 5, .found true], cache) :=
  (replies_eq_plain _ _ _ _).mpr ⟨2, by decide⟩

/-! ### Steps that ask only above themselves -/

theorem foldSteps_total {step : UInt8 → ℕ → Option UInt8} {count depth : ℕ}
    (h : ∀ state d, depth ≤ d → d < depth + count → ∃ u, step state d = some u) (state : UInt8) :
    ∃ u, foldSteps step count depth state = some u := by
  induction count generalizing depth state with
  | zero => exact ⟨state, rfl⟩
  | succ count ih =>
    obtain ⟨next, hnext⟩ := h state depth le_rfl (by omega)
    obtain ⟨u, hu⟩ := @ih (depth + 1) (fun s d hge hlt => h s d (by omega) (by omega)) next
    exact ⟨u, Option.bind_eq_some_iff.mpr ⟨next, hnext, hu⟩⟩

omit [DecidableEq L] in
theorem Prog.eval_total {fold : L → Located tree → ℕ → Option UInt8} {n : ℕ}
    (h : ∀ lane node skip, node.chain.length ≤ n → ∃ u, fold lane node skip = some u)
    {p : Prog L tree} (hp : p.Within n) : ∃ u, p.eval fold = some u := by
  induction p with
  | ret state => exact ⟨state, rfl⟩
  | ask lane node skip next ih =>
    obtain ⟨answer, hanswer⟩ := h lane node skip hp.1
    obtain ⟨u, hu⟩ := ih answer (hp.2 answer)
    exact ⟨u, Option.bind_eq_some_iff.mpr ⟨answer, hanswer, hu⟩⟩

omit [DecidableEq L] in
/-- A step that folds only where it was lent a chain makes every fold answer. -/
theorem plainFold_total (h : ∀ lane state (ancestor : Located tree) below,
      ((questions lane).step state ancestor below).Within ancestor.chain.length)
    {fuel : ℕ} {node : Located tree} (hfuel : node.chain.length < fuel) (lane : L) (skip : ℕ) :
    ∃ u, plainFold questions fuel lane node skip = some u := by
  induction fuel generalizing node lane skip with
  | zero => omega
  | succ fuel ih =>
    rw [plainFold_succ]
    refine foldSteps_total (fun state d _ hd => ?_) _
    have hin : d < node.chain.length := by omega
    rw [plainStep, stepAt, node.ancestor?_of_lt hin]
    refine Prog.eval_total (n := d) (fun lane' node' skip' hle => ih (by omega) lane' skip') ?_
    have hwithin := h lane state ⟨node.chain.take d, node.chain[d], node.isPath_take hin⟩
      (node.chain[d + 1]?.getD node.node)
    rwa [List.length_take, Nat.min_eq_left hin.le] at hwithin

omit [DecidableEq L] [DecidableEq G] in
theorem plainReplies_total (h : ∀ lane state (ancestor : Located tree) below,
      ((lanes folds gates lane).step state ancestor below).Within ancestor.chain.length)
    (asks : List (Ask L G tree)) : ∃ fuel out, plainReplies folds gates fuel asks = some out := by
  induction asks with
  | nil => exact ⟨0, [], rfl⟩
  | cons ask asks ih =>
    obtain ⟨fuel₂, rest, hrest⟩ := ih
    obtain ⟨fuel₁, reply, hreply⟩ : ∃ fuel reply, ask.plainReply folds gates fuel = some reply := by
      cases ask with
      | fold lane node skip =>
        obtain ⟨u, hu⟩ := plainFold_total h (Nat.lt_succ_self node.chain.length) lane skip
        exact ⟨_, .state u, by rw [Ask.plainReply, hu]; rfl⟩
      | beforeStop gate node => exact ⟨0, _, rfl⟩
    exact ⟨max fuel₁ fuel₂, reply :: rest, plainReplies_cons.mpr ⟨reply, rest,
      Ask.plainReply_mono (le_max_left _ _) hreply,
      plainReplies_mono (le_max_right _ _) hrest, rfl⟩⟩

end BigCodeAnalysis.Spaces
