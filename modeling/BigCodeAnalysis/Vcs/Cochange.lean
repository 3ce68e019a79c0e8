import BigCodeAnalysis.Vcs.BusFactor
import BigCodeAnalysis.Vcs.Replay
import Mathlib.Algebra.BigOperators.Group.List.Basic
import Mathlib.Data.Finset.Card

/-! The co-change graph. Paths are interned, and a commit strengthens the edge of every pair
of its entries in both directions. A path listed more than once by a commit counts every time, so
weights count commits exactly where no commit repeats a path beside another one. -/

namespace BigCodeAnalysis.Vcs

variable {P : Type*}

def maxCochangeCommitFiles : ℕ := 1000

/-- Adjacency by node: for each neighbour's id the weight of the edge. -/
abbrev Adjacency := List (ℕ → Option ℕ)

structure CochangeGraph (P : Type*) where
  ids : P → Option ℕ
  long : Adjacency
  recent : Adjacency

def CochangeGraph.new : CochangeGraph P := ⟨fun _ => none, [], []⟩

/-- A recorded commit: the paths it lists and whether it is recent. -/
structure CochangeCommit (P : Type*) where
  paths : List P
  inRecent : Bool

section Recording
variable [DecidableEq P]

/-- The node of a path, a fresh one the first time the path is seen. -/
def CochangeGraph.intern (self : CochangeGraph P) (path : P) : CochangeGraph P × ℕ :=
  match self.ids path with
  | some id => (self, id)
  | none =>
    let id := min self.long.length u32Max
    (⟨Function.update self.ids path (some id), self.long ++ [fun _ => none],
      self.recent ++ [fun _ => none]⟩, id)

def CochangeGraph.internAll (self : CochangeGraph P) : List P → CochangeGraph P × List ℕ
  | [] => (self, [])
  | path :: paths =>
    let (graph, id) := self.intern path
    let (graph, ids) := graph.internAll paths
    (graph, id :: ids)

end Recording

/-- One half of `bump`; `none` where the index is out of range or the weight overflows. -/
def increment (adjacency : Adjacency) (a b : ℕ) : Option Adjacency := do
  let edges ← adjacency[a]?
  let weight := (edges b).getD 0 + 1
  if weight ≤ u32Max then some (adjacency.set a (Function.update edges b (some weight))) else none

def bump (adjacency : Adjacency) (a b : ℕ) : Option Adjacency := do
  let adjacency ← increment adjacency a b
  increment adjacency b a

def CochangeGraph.recordPair (inRecent : Bool) (a : ℕ) (self : CochangeGraph P) (b : ℕ) :
    Option (CochangeGraph P) :=
  if a = b then some self
  else
    (bump self.long a b).bind fun long =>
      (if inRecent then bump self.recent a b else some self.recent).map fun recent =>
        { self with long, recent }

/-- Every entry with every later one. -/
def CochangeGraph.recordPairs (inRecent : Bool) :
    List ℕ → CochangeGraph P → Option (CochangeGraph P)
  | [], graph => some graph
  | a :: rest, graph => do
    let graph ← rest.foldlM (CochangeGraph.recordPair inRecent a) graph
    CochangeGraph.recordPairs inRecent rest graph

/-- Whether a commit is neither too narrow nor too wide for the graph. -/
def CochangeCommit.admissible (commit : CochangeCommit P) : Bool :=
  !(commit.paths.length < 2 || maxCochangeCommitFiles < commit.paths.length)

section Commits
variable [DecidableEq P]

def CochangeGraph.recordCommit (self : CochangeGraph P) (commit : CochangeCommit P) :
    Option (CochangeGraph P) :=
  if commit.admissible then
    let (graph, ids) := self.internAll commit.paths
    graph.recordPairs commit.inRecent ids
  else some self

def recordAll (commits : List (CochangeCommit P)) : Option (CochangeGraph P) :=
  commits.foldlM CochangeGraph.recordCommit .new

end Commits

/-! ### Weights -/

def edgeOf (adjacency : Adjacency) (a b : ℕ) : Option ℕ := (adjacency[a]?).bind fun edges => edges b

def weightOf (adjacency : Adjacency) (a b : ℕ) : ℕ := (edgeOf adjacency a b).getD 0

/-- The weight between two paths. -/
def CochangeGraph.weight (self : CochangeGraph P) (adjacency : Adjacency) (p q : P) : ℕ :=
  match self.ids p, self.ids q with
  | some a, some b => weightOf adjacency a b
  | _, _ => 0

theorem increment_eq_some {adjacency next : Adjacency} {a b : ℕ} :
    increment adjacency a b = some next ↔ a < adjacency.length ∧
      weightOf adjacency a b + 1 ≤ u32Max ∧ ∃ edges, adjacency[a]? = some edges ∧
        next = adjacency.set a (Function.update edges b (some (weightOf adjacency a b + 1))) := by
  unfold increment weightOf edgeOf
  cases hget : adjacency[a]? with
  | none =>
    have hlen := List.getElem?_eq_none_iff.mp hget
    simp
  | some edges =>
    have hlen := (List.getElem?_eq_some_iff.mp hget).1
    simp only [Option.bind_eq_bind, Option.bind_some]
    split_ifs with h
    · simp [hlen, h, eq_comm]
    · simp [h]

/-- Incrementing adds one to one directed edge. -/
theorem increment_spec {adjacency next : Adjacency} {a b : ℕ}
    (h : increment adjacency a b = some next) :
    a < adjacency.length ∧ next.length = adjacency.length ∧
    (∀ x y, weightOf next x y = weightOf adjacency x y + if x = a ∧ y = b then 1 else 0) ∧
    ∀ x y, edgeOf next x y ≠ none → (x = a ∧ y = b) ∨ edgeOf adjacency x y ≠ none := by
  obtain ⟨hlen, -, edges, hget, rfl⟩ := increment_eq_some.mp h
  have hedge : ∀ x y, edgeOf (adjacency.set a
      (Function.update edges b (some (weightOf adjacency a b + 1)))) x y =
      if x = a ∧ y = b then some (weightOf adjacency a b + 1) else edgeOf adjacency x y := by
    intro x y
    unfold edgeOf
    rw [List.getElem?_set]
    by_cases hx : a = x
    · subst hx
      rw [if_pos rfl, if_pos hlen, hget]
      by_cases hy : y = b
      · simp [hy]
      · simp [hy]
    · rw [if_neg hx, if_neg fun heq => hx heq.1.symm]
  refine ⟨hlen, List.length_set, fun x y => ?_, fun x y hne => ?_⟩
  · rw [weightOf, hedge]
    split_ifs with hxy
    · obtain ⟨rfl, rfl⟩ := hxy
      rfl
    · rfl
  · by_contra hnone
    obtain ⟨hxy, hedges⟩ := not_or.mp hnone
    rw [hedge, if_neg hxy] at hne
    exact hedges hne

/-- What an unordered pair adds to the directed edges. -/
def pairAdds (a b x y : ℕ) : ℕ :=
  (if x = a ∧ y = b then 1 else 0) + if x = b ∧ y = a then 1 else 0

theorem bump_spec {adjacency next : Adjacency} {a b : ℕ} (h : bump adjacency a b = some next) :
    a < adjacency.length ∧ b < adjacency.length ∧ next.length = adjacency.length ∧
    (∀ x y, weightOf next x y = weightOf adjacency x y + pairAdds a b x y) ∧
    ∀ x y, edgeOf next x y ≠ none →
      (x = a ∧ y = b) ∨ (x = b ∧ y = a) ∨ edgeOf adjacency x y ≠ none := by
  obtain ⟨mid, hmid, hnext⟩ := Option.bind_eq_some_iff.mp h
  obtain ⟨ha, hlen, hweight, hedge⟩ := increment_spec hmid
  obtain ⟨hb, hlen', hweight', hedge'⟩ := increment_spec hnext
  refine ⟨ha, by omega, by omega, fun x y => ?_, fun x y hne => ?_⟩
  · rw [hweight', hweight, pairAdds]
    omega
  · rcases hedge' x y hne with h | h
    · exact .inr (.inl h)
    · rcases hedge x y h with h | h
      · exact .inl h
      · exact .inr (.inr h)

theorem bump_isSome {adjacency : Adjacency} {a b : ℕ} (hne : a ≠ b) (ha : a < adjacency.length)
    (hb : b < adjacency.length) (hab : weightOf adjacency a b + 1 ≤ u32Max)
    (hba : weightOf adjacency b a + 1 ≤ u32Max) : ∃ next, bump adjacency a b = some next := by
  have hmid : ∃ mid, increment adjacency a b = some mid :=
    ⟨_, increment_eq_some.mpr ⟨ha, hab, _, List.getElem?_eq_getElem ha, rfl⟩⟩
  obtain ⟨mid, hmid⟩ := hmid
  obtain ⟨-, hlen, hweight, -⟩ := increment_spec hmid
  have hsame : weightOf mid b a = weightOf adjacency b a := by
    rw [hweight, if_neg fun heq => hne heq.1.symm, Nat.add_zero]
  have hnext : ∃ next, increment mid b a = some next :=
    ⟨_, increment_eq_some.mpr ⟨by omega, by omega, _, List.getElem?_eq_getElem (by omega), rfl⟩⟩
  obtain ⟨next, hnext⟩ := hnext
  exact ⟨next, Option.bind_eq_some_iff.mpr ⟨mid, hmid, hnext⟩⟩

/-! ### The pairs of a commit -/

section Pairs

variable {inRecent : Bool} {graph next : CochangeGraph P} {a b : ℕ} {ids : List ℕ}

/-- How the graph `next` differs from `graph`: by `adds` on every long edge and, for a
recent commit, on every recent edge. New edges have their `keys`. -/
structure Added (inRecent : Bool) (adds : ℕ → ℕ → ℕ) (keys : ℕ → ℕ → Prop)
    (graph next : CochangeGraph P) : Prop where
  ids : next.ids = graph.ids
  longLength : next.long.length = graph.long.length
  recentLength : next.recent.length = graph.recent.length
  long : ∀ x y, weightOf next.long x y = weightOf graph.long x y + adds x y
  recent : ∀ x y, weightOf next.recent x y =
    weightOf graph.recent x y + if inRecent then adds x y else 0
  longKeys : ∀ x y, edgeOf next.long x y ≠ none → keys x y ∨ edgeOf graph.long x y ≠ none
  recentKeys : ∀ x y, edgeOf next.recent x y ≠ none → keys x y ∨ edgeOf graph.recent x y ≠ none

/-- Both ends are nodes of the graph. -/
def InRange (n : ℕ) (x y : ℕ) : Prop := x < n ∧ y < n

theorem Added.refl (inRecent : Bool) (keys : ℕ → ℕ → Prop) (graph : CochangeGraph P) :
    Added inRecent (fun _ _ => 0) keys graph graph where
  ids := rfl
  longLength := rfl
  recentLength := rfl
  long := fun _ _ => rfl
  recent := fun _ _ => by split_ifs <;> rfl
  longKeys := fun _ _ h => .inr h
  recentKeys := fun _ _ h => .inr h

theorem Added.trans {adds adds' : ℕ → ℕ → ℕ} {keys : ℕ → ℕ → Prop}
    {graph mid next : CochangeGraph P} (h : Added inRecent adds keys graph mid)
    (h' : Added inRecent adds' keys mid next) :
    Added inRecent (fun x y => adds x y + adds' x y) keys graph next where
  ids := h'.ids.trans h.ids
  longLength := h'.longLength.trans h.longLength
  recentLength := h'.recentLength.trans h.recentLength
  long := fun x y => by rw [h'.long, h.long]; omega
  recent := fun x y => by rw [h'.recent, h.recent]; split_ifs <;> omega
  longKeys := fun x y hne => (h'.longKeys x y hne).elim .inl (h.longKeys x y)
  recentKeys := fun x y hne => (h'.recentKeys x y hne).elim .inl (h.recentKeys x y)

theorem Added.congr {adds adds' : ℕ → ℕ → ℕ} {keys : ℕ → ℕ → Prop}
    (h : Added inRecent adds keys graph next) (heq : ∀ x y, adds x y = adds' x y) :
    Added inRecent adds' keys graph next := by
  have hsame : adds = adds' := by
    funext x y
    exact heq x y
  exact hsame ▸ h

/-- What one turn of the inner loop adds. -/
def turnAdds (a b x y : ℕ) : ℕ := if a = b then 0 else pairAdds a b x y

theorem recordPair_spec (h : graph.recordPair inRecent a b = some next) :
    Added inRecent (turnAdds a b) (InRange graph.long.length) graph next := by
  unfold CochangeGraph.recordPair at h
  by_cases hab : a = b
  · rw [if_pos hab] at h
    cases h
    exact (Added.refl _ _ _).congr fun x y => (if_pos hab).symm
  rw [if_neg hab] at h
  have hadds : ∀ x y, turnAdds a b x y = pairAdds a b x y := fun x y => if_neg hab
  obtain ⟨long, hlong, h⟩ := Option.bind_eq_some_iff.mp h
  obtain ⟨recent, hrecent, rfl⟩ := Option.map_eq_some_iff.mp h
  obtain ⟨ha, hb, hlen, hweight, hkeys⟩ := bump_spec hlong
  have hin : ∀ {adjacency : Adjacency} x y,
      (x = a ∧ y = b) ∨ (x = b ∧ y = a) ∨ edgeOf adjacency x y ≠ none →
      InRange graph.long.length x y ∨ edgeOf adjacency x y ≠ none := by
    rintro adjacency x y (⟨rfl, rfl⟩ | ⟨rfl, rfl⟩ | h)
    · exact .inl ⟨ha, hb⟩
    · exact .inl ⟨hb, ha⟩
    · exact .inr h
  have hlongKeys : ∀ x y, edgeOf long x y ≠ none →
      InRange graph.long.length x y ∨ edgeOf graph.long x y ≠ none :=
    fun x y hne => hin x y (hkeys x y hne)
  cases inRecent with
  | false =>
    cases hrecent
    exact ⟨rfl, hlen, rfl, fun x y => by rw [hweight, hadds], fun x y => rfl, hlongKeys,
      fun x y hne => .inr hne⟩
  | true =>
    obtain ⟨-, -, hlen', hweight', hkeys'⟩ := bump_spec hrecent
    exact ⟨rfl, hlen, hlen', fun x y => by rw [hweight, hadds],
      fun x y => by rw [hweight', hadds, if_pos rfl], hlongKeys,
      fun x y hne => hin x y (hkeys' x y hne)⟩

/-- One entry with every later one. -/
def rowAdds (a : ℕ) (rest : List ℕ) (x y : ℕ) : ℕ := (rest.map fun b => turnAdds a b x y).sum

theorem foldlM_recordPair_spec {rest : List ℕ} : ∀ {graph : CochangeGraph P},
    rest.foldlM (CochangeGraph.recordPair inRecent a) graph = some next →
    Added inRecent (rowAdds a rest) (InRange graph.long.length) graph next := by
  induction rest with
  | nil =>
    intro graph h
    cases h
    exact Added.refl _ _ _
  | cons b rest ih =>
    intro graph h
    rw [List.foldlM_cons] at h
    obtain ⟨mid, hmid, hnext⟩ := Option.bind_eq_some_iff.mp h
    have hstep := recordPair_spec hmid
    have hrest := ih hnext
    rw [hstep.longLength] at hrest
    exact (hstep.trans hrest).congr fun x y => by rw [rowAdds, rowAdds, List.map_cons,
      List.sum_cons]

/-- What a commit adds: between two different nodes, the pairs of their entries. -/
def commitAdds (ids : List ℕ) (x y : ℕ) : ℕ := if x = y then 0 else ids.count x * ids.count y

theorem rowAdds_eq (a : ℕ) (rest : List ℕ) {x y : ℕ} (hxy : x ≠ y) :
    rowAdds a rest x y =
      (if x = a then rest.count y else 0) + if y = a then rest.count x else 0 := by
  induction rest with
  | nil => simp [rowAdds]
  | cons b rest ih =>
    rw [rowAdds, List.map_cons, List.sum_cons]
    rw [rowAdds] at ih
    rw [ih, List.count_cons, List.count_cons, turnAdds, pairAdds]
    simp only [beq_iff_eq]
    split_ifs <;> omega

theorem rowAdds_self (a : ℕ) (rest : List ℕ) (x : ℕ) : rowAdds a rest x x = 0 := by
  induction rest with
  | nil => rfl
  | cons b rest ih =>
    rw [rowAdds] at ih
    rw [rowAdds, List.map_cons, List.sum_cons, ih, turnAdds, pairAdds]
    split_ifs <;> omega

theorem commitAdds_cons (a : ℕ) (rest : List ℕ) (x y : ℕ) :
    commitAdds (a :: rest) x y = rowAdds a rest x y + commitAdds rest x y := by
  by_cases hxy : x = y
  · rw [hxy, rowAdds_self, commitAdds, commitAdds, if_pos rfl, if_pos rfl]
  · rw [commitAdds, commitAdds, if_neg hxy, if_neg hxy, rowAdds_eq a rest hxy, List.count_cons,
      List.count_cons]
    simp only [beq_iff_eq]
    by_cases hx : x = a
    · subst hx
      simp only [if_true, if_neg hxy, if_neg (Ne.symm hxy), Nat.add_zero]
      rw [Nat.add_mul, Nat.one_mul, Nat.add_comm]
    · by_cases hy : y = a
      · subst hy
        simp only [if_true, if_neg hx, if_neg (Ne.symm hx), Nat.add_zero, Nat.zero_add]
        rw [Nat.mul_add, Nat.mul_one, Nat.add_comm]
      · rw [if_neg (Ne.symm hx), if_neg (Ne.symm hy), if_neg hx, if_neg hy, Nat.add_zero,
          Nat.add_zero, Nat.zero_add]

theorem recordPairs_spec : ∀ {graph : CochangeGraph P},
    CochangeGraph.recordPairs inRecent ids graph = some next →
    Added inRecent (commitAdds ids) (InRange graph.long.length) graph next := by
  induction ids with
  | nil =>
    intro graph h
    cases h
    exact (Added.refl _ _ _).congr fun x y => by
      rw [commitAdds]
      split_ifs <;> rfl
  | cons a rest ih =>
    intro graph h
    obtain ⟨mid, hmid, hnext⟩ := Option.bind_eq_some_iff.mp h
    have hrow := foldlM_recordPair_spec hmid
    have hrest := ih hnext
    rw [hrow.longLength] at hrest
    exact (hrow.trans hrest).congr fun x y => (commitAdds_cons a rest x y).symm

/-! ### Pairs that are recorded -/

/-- No recent edge is heavier than the long one. -/
def RecentLe (graph : CochangeGraph P) : Prop :=
  ∀ x y, weightOf graph.recent x y ≤ weightOf graph.long x y

theorem Added.recentLe {adds : ℕ → ℕ → ℕ} {keys : ℕ → ℕ → Prop}
    (h : Added inRecent adds keys graph next) (hle : RecentLe graph) : RecentLe next := by
  intro x y
  have hxy := hle x y
  rw [h.long, h.recent]
  split_ifs <;> omega

theorem recordPair_isSome (hlength : graph.recent.length = graph.long.length)
    (hle : RecentLe graph) (ha : a < graph.long.length) (hb : b < graph.long.length)
    (hbound : ∀ x y, weightOf graph.long x y + turnAdds a b x y ≤ u32Max) :
    ∃ next, graph.recordPair inRecent a b = some next := by
  unfold CochangeGraph.recordPair
  by_cases hab : a = b
  · exact ⟨graph, if_pos hab⟩
  rw [if_neg hab]
  have hadds : ∀ x y, turnAdds a b x y = pairAdds a b x y := fun x y => if_neg hab
  have hforth := hbound a b
  have hback := hbound b a
  rw [hadds, pairAdds, if_pos ⟨rfl, rfl⟩, if_neg fun h => hab h.1] at hforth
  rw [hadds, pairAdds, if_neg fun h => hab h.2, if_pos ⟨rfl, rfl⟩] at hback
  have hforth' := hle a b
  have hback' := hle b a
  obtain ⟨long, hlong⟩ := bump_isSome hab ha hb (by omega) (by omega)
  obtain ⟨recent, hrecent⟩ : ∃ recent, bump graph.recent a b = some recent :=
    bump_isSome hab (by omega) (by omega) (by omega) (by omega)
  rw [hlong, Option.bind_some]
  cases inRecent with
  | false => exact ⟨_, rfl⟩
  | true =>
    rw [if_pos rfl, hrecent]
    exact ⟨_, rfl⟩

theorem foldlM_recordPair_isSome {rest : List ℕ} : ∀ {graph : CochangeGraph P},
    graph.recent.length = graph.long.length → RecentLe graph → a < graph.long.length →
    (∀ b ∈ rest, b < graph.long.length) →
    (∀ x y, weightOf graph.long x y + rowAdds a rest x y ≤ u32Max) →
    ∃ next, rest.foldlM (CochangeGraph.recordPair inRecent a) graph = some next := by
  induction rest with
  | nil => exact fun _ _ _ _ _ => ⟨_, rfl⟩
  | cons b rest ih =>
    intro graph hlength hle ha hrest hbound
    have hcons : ∀ x y, rowAdds a (b :: rest) x y = turnAdds a b x y + rowAdds a rest x y :=
      fun x y => by rw [rowAdds, rowAdds, List.map_cons, List.sum_cons]
    obtain ⟨mid, hmid⟩ : ∃ mid, graph.recordPair inRecent a b = some mid :=
      recordPair_isSome hlength hle ha (hrest b List.mem_cons_self) fun x y => by
        have := hbound x y
        rw [hcons] at this
        omega
    have hstep := recordPair_spec hmid
    have hlen := hstep.longLength
    obtain ⟨next, hnext⟩ := ih (by rw [hstep.recentLength, hlen, hlength]) (hstep.recentLe hle)
      (by omega) (fun c hc => by rw [hlen]; exact hrest c (List.mem_cons_of_mem _ hc))
      fun x y => by
        have := hbound x y
        rw [hcons] at this
        rw [hstep.long]
        omega
    exact ⟨next, by rw [List.foldlM_cons, hmid]; exact hnext⟩

theorem recordPairs_isSome : ∀ {graph : CochangeGraph P},
    graph.recent.length = graph.long.length → RecentLe graph →
    (∀ a ∈ ids, a < graph.long.length) →
    (∀ x y, weightOf graph.long x y + commitAdds ids x y ≤ u32Max) →
    ∃ next, CochangeGraph.recordPairs inRecent ids graph = some next := by
  induction ids with
  | nil => exact fun _ _ _ _ => ⟨_, rfl⟩
  | cons a rest ih =>
    intro graph hlength hle hids hbound
    obtain ⟨mid, hmid⟩ : ∃ mid,
        rest.foldlM (CochangeGraph.recordPair inRecent a) graph = some mid :=
      foldlM_recordPair_isSome hlength hle (hids a List.mem_cons_self)
        (fun b hb => hids b (List.mem_cons_of_mem _ hb)) fun x y => by
          have := hbound x y
          rw [commitAdds_cons] at this
          omega
    have hrow := foldlM_recordPair_spec hmid
    have hlen := hrow.longLength
    obtain ⟨next, hnext⟩ := ih (by rw [hrow.recentLength, hlen, hlength]) (hrow.recentLe hle)
      (fun c hc => by rw [hlen]; exact hids c (List.mem_cons_of_mem _ hc)) fun x y => by
        have := hbound x y
        rw [commitAdds_cons] at this
        rw [hrow.long]
        omega
    exact ⟨next, by rw [CochangeGraph.recordPairs, hmid]; exact hnext⟩

end Pairs

/-! ### Interned paths -/

/-- The invariant of every graph: ids and neighbours are nodes, edges go both ways and never
from a node to itself, and no recent edge is heavier than the long one. -/
structure CochangeGraph.Sound (graph : CochangeGraph P) : Prop where
  length : graph.recent.length = graph.long.length
  valid : ∀ p a, graph.ids p = some a → a < graph.long.length
  longKeys : ∀ x y, edgeOf graph.long x y ≠ none → InRange graph.long.length x y
  recentKeys : ∀ x y, edgeOf graph.recent x y ≠ none → InRange graph.long.length x y
  longSymm : ∀ x y, weightOf graph.long x y = weightOf graph.long y x
  recentSymm : ∀ x y, weightOf graph.recent x y = weightOf graph.recent y x
  irrefl : ∀ x, weightOf graph.long x x = 0
  recentLe : RecentLe graph

/-- The graph `next` has all names of `graph` and the same edges. -/
structure Extends (graph next : CochangeGraph P) : Prop where
  ids : ∀ p a, graph.ids p = some a → next.ids p = some a
  length : graph.long.length ≤ next.long.length
  long : ∀ x y, edgeOf next.long x y = edgeOf graph.long x y
  recent : ∀ x y, edgeOf next.recent x y = edgeOf graph.recent x y

theorem Extends.refl (graph : CochangeGraph P) : Extends graph graph :=
  ⟨fun _ _ h => h, le_rfl, fun _ _ => rfl, fun _ _ => rfl⟩

theorem Extends.trans {graph mid next : CochangeGraph P} (h : Extends graph mid)
    (h' : Extends mid next) : Extends graph next :=
  ⟨fun p a hp => h'.ids p a (h.ids p a hp), h.length.trans h'.length,
    fun x y => (h'.long x y).trans (h.long x y), fun x y => (h'.recent x y).trans (h.recent x y)⟩

theorem edgeOf_append (adjacency : Adjacency) (x y : ℕ) :
    edgeOf (adjacency ++ [fun _ => none]) x y = edgeOf adjacency x y := by
  unfold edgeOf
  rcases lt_trichotomy x adjacency.length with h | h | h
  · rw [List.getElem?_append_left h]
  · rw [h, List.getElem?_concat_length, List.getElem?_eq_none le_rfl]
    rfl
  · rw [List.getElem?_eq_none (by simp; omega), List.getElem?_eq_none (by omega)]

theorem CochangeGraph.Sound.of_extends {graph next : CochangeGraph P} (h : graph.Sound)
    (hext : Extends graph next) (hlength : next.recent.length = next.long.length)
    (hvalid : ∀ p a, next.ids p = some a → a < next.long.length) : next.Sound := by
  have hlong : ∀ x y, weightOf next.long x y = weightOf graph.long x y :=
    fun x y => by rw [weightOf, hext.long, weightOf]
  have hrecent : ∀ x y, weightOf next.recent x y = weightOf graph.recent x y :=
    fun x y => by rw [weightOf, hext.recent, weightOf]
  have hlen := hext.length
  refine ⟨hlength, hvalid, fun x y hne => ?_, fun x y hne => ?_, fun x y => ?_, fun x y => ?_,
    fun x => ?_, fun x y => ?_⟩
  · obtain ⟨hx, hy⟩ := h.longKeys x y (by rwa [hext.long] at hne)
    exact ⟨by omega, by omega⟩
  · obtain ⟨hx, hy⟩ := h.recentKeys x y (by rwa [hext.recent] at hne)
    exact ⟨by omega, by omega⟩
  · rw [hlong, hlong, h.longSymm]
  · rw [hrecent, hrecent, h.recentSymm]
  · rw [hlong, h.irrefl]
  · rw [hlong, hrecent]
    exact h.recentLe x y

section Interning

variable [DecidableEq P] {graph next : CochangeGraph P}

theorem intern_extends (graph : CochangeGraph P) (path : P) :
    Extends graph (graph.intern path).1 := by
  unfold CochangeGraph.intern
  cases hid : graph.ids path with
  | some id => exact Extends.refl graph
  | none =>
    refine ⟨fun p a hp => ?_, by simp, edgeOf_append _, edgeOf_append _⟩
    have hne : p ≠ path := by
      rintro rfl
      rw [hid] at hp
      cases hp
    exact (Function.update_of_ne hne ..).trans hp

theorem intern_sound (h : graph.Sound) (path : P) : (graph.intern path).1.Sound := by
  refine h.of_extends (intern_extends graph path) ?_ ?_
  · unfold CochangeGraph.intern
    cases graph.ids path with
    | some id => exact h.length
    | none => simp [h.length]
  · unfold CochangeGraph.intern
    cases hid : graph.ids path with
    | some id => exact h.valid
    | none =>
      intro p a hp
      dsimp only at hp ⊢
      rw [List.length_append, List.length_singleton]
      by_cases hpath : p = path
      · rw [hpath, Function.update_self] at hp
        cases hp
        omega
      · rw [Function.update_of_ne hpath] at hp
        have := h.valid p a hp
        omega

theorem intern_id (graph : CochangeGraph P) (path : P) :
    (graph.intern path).1.ids path = some (graph.intern path).2 := by
  unfold CochangeGraph.intern
  cases hid : graph.ids path with
  | some id => exact hid
  | none => exact Function.update_self ..

theorem internAll_spec (paths : List P) : ∀ {graph : CochangeGraph P}, graph.Sound →
    (graph.internAll paths).1.Sound ∧ Extends graph (graph.internAll paths).1 ∧
    List.Forall₂ (fun p a => (graph.internAll paths).1.ids p = some a) paths
      (graph.internAll paths).2 := by
  induction paths with
  | nil =>
    intro graph h
    exact ⟨h, Extends.refl graph, .nil⟩
  | cons path paths ih =>
    intro graph h
    obtain ⟨hsound, hext, hids⟩ := ih (intern_sound h path)
    refine ⟨hsound, (intern_extends graph path).trans hext, .cons ?_ hids⟩
    exact hext.ids _ _ (intern_id graph path)

/-- The names of a graph: as many nodes as paths, each of one path. -/
structure Interned (seen : Finset P) (graph : CochangeGraph P) : Prop where
  known : ∀ p, graph.ids p ≠ none ↔ p ∈ seen
  length : graph.long.length = seen.card
  onto : ∀ a < graph.long.length, ∃ p, graph.ids p = some a
  inj : ∀ p q a, graph.ids p = some a → graph.ids q = some a → p = q

theorem intern_interned {seen : Finset P} (hsound : graph.Sound) (h : Interned seen graph)
    {path : P} (hcard : (insert path seen).card ≤ 2 ^ 32) :
    Interned (insert path seen) (graph.intern path).1 := by
  have hlen := h.length
  unfold CochangeGraph.intern
  cases hid : graph.ids path with
  | some id =>
    have hmem : path ∈ seen := (h.known path).mp (by rw [hid]; exact Option.some_ne_none id)
    rwa [Finset.insert_eq_of_mem hmem]
  | none =>
    have hmem : path ∉ seen := fun hmem => (h.known path).mpr hmem hid
    rw [Finset.card_insert_of_notMem hmem] at hcard
    have hfresh : min graph.long.length u32Max = graph.long.length := by
      rw [u32Max]
      omega
    dsimp only
    rw [hfresh]
    have hlt : ∀ p a, graph.ids p = some a → a ≠ graph.long.length := fun p a hp => by
      have := hsound.valid p a hp
      omega
    refine ⟨fun p => ?_, ?_, fun a ha => ?_, fun p q a hp hq => ?_⟩
    · by_cases hp : p = path
      · simp [hp]
      · dsimp only
        rw [Function.update_of_ne hp, h.known, Finset.mem_insert, or_iff_right hp]
    · rw [List.length_append, List.length_singleton, Finset.card_insert_of_notMem hmem, hlen]
    · rw [List.length_append, List.length_singleton] at ha
      by_cases hnew : a = graph.long.length
      · exact ⟨path, hnew ▸ Function.update_self ..⟩
      · obtain ⟨p, hp⟩ := h.onto a (by omega)
        have hne : p ≠ path := by
          rintro rfl
          rw [hid] at hp
          cases hp
        exact ⟨p, (Function.update_of_ne hne ..).trans hp⟩
    · dsimp only at hp hq
      by_cases hpp : p = path
      · by_cases hqp : q = path
        · rw [hpp, hqp]
        · subst hpp
          rw [Function.update_self] at hp
          rw [Function.update_of_ne hqp] at hq
          cases hp
          exact absurd rfl (hlt q _ hq)
      · rw [Function.update_of_ne hpp] at hp
        by_cases hqp : q = path
        · subst hqp
          rw [Function.update_self] at hq
          cases hq
          exact absurd rfl (hlt p _ hp)
        · rw [Function.update_of_ne hqp] at hq
          exact h.inj p q a hp hq

theorem internAll_interned (paths : List P) : ∀ {graph : CochangeGraph P} {seen : Finset P},
    graph.Sound → Interned seen graph → (seen ∪ paths.toFinset).card ≤ 2 ^ 32 →
    Interned (seen ∪ paths.toFinset) (graph.internAll paths).1 := by
  induction paths with
  | nil =>
    intro graph seen _ h _
    rwa [List.toFinset_nil, Finset.union_empty]
  | cons path paths ih =>
    intro graph seen hsound h hcard
    have hunion : seen ∪ (path :: paths).toFinset = insert path seen ∪ paths.toFinset := by
      rw [List.toFinset_cons, Finset.union_insert, Finset.insert_union]
    rw [hunion] at hcard ⊢
    have hone : (insert path seen).card ≤ 2 ^ 32 :=
      (Finset.card_le_card Finset.subset_union_left).trans hcard
    exact ih (intern_sound hsound path) (intern_interned hsound h hone) hcard

end Interning

end BigCodeAnalysis.Vcs
