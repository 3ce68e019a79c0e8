import BigCodeAnalysis.Metrics.Halstead
import BigCodeAnalysis.Spaces.Recursive
import BigCodeAnalysis.Trees.Gather
import Mathlib.Data.Finset.Sum
import Mathlib.Data.List.Dedup

/-! What a node adds to the occurrence maps of its space. The maps tally the keys of the
nodes handed to them, and merging two of them tallies both lists of keys, so the counts read
off them are those of the keys alone. -/

namespace BigCodeAnalysis.Metrics.Halstead

open Spaces Trees

/-! ### Count maps -/

namespace CountMap

variable {K : Type*}

/-- Every key as often as it is counted. -/
def occurrences (m : CountMap K) : List K := m.flatMap fun p => List.replicate p.2 p.1

/-- A map with one positive count for each of some keys. -/
structure Tallies (m : CountMap K) (keys : List K) : Prop where
  nodup : m.keys.Nodup
  pos : ∀ p ∈ m, 0 < p.2
  perm : m.occurrences.Perm keys

theorem tallies_nil : Tallies ([] : CountMap K) [] := ⟨List.nodup_nil, nofun, .refl _⟩

theorem Tallies.congr {m : CountMap K} {keys keys' : List K} (h : m.Tallies keys)
    (hperm : keys.Perm keys') : m.Tallies keys' := ⟨h.nodup, h.pos, h.perm.trans hperm⟩

variable [DecidableEq K]

theorem mem_keys_bump (m : CountMap K) (key : K) (n : ℕ) (k : K) :
    k ∈ (m.bump key n).keys ↔ k = key ∨ k ∈ m.keys := by
  induction m with
  | nil => simp [bump, keys]
  | cons p m ih =>
    obtain ⟨l, v⟩ := p
    unfold keys at ih ⊢
    by_cases h : l = key
    · simp [bump, h]
    · simp [bump, h, ih]
      exact or_left_comm

theorem occurrences_bump (m : CountMap K) (key : K) (n : ℕ) :
    (m.bump key n).occurrences.Perm (List.replicate n key ++ m.occurrences) := by
  induction m with
  | nil => simp [bump, occurrences]
  | cons p m ih =>
    obtain ⟨l, v⟩ := p
    unfold occurrences at ih ⊢
    by_cases h : l = key
    · rw [bump, if_pos h, List.flatMap_cons, List.flatMap_cons, h, ← List.append_assoc,
        List.replicate_append_replicate, Nat.add_comm]
    · rw [bump, if_neg h, List.flatMap_cons, List.flatMap_cons]
      refine (ih.append_left _).trans ?_
      rw [← List.append_assoc, ← List.append_assoc]
      exact List.perm_append_comm.append_right _

theorem Tallies.bump {m : CountMap K} {keys : List K} (h : m.Tallies keys) (key : K) {n : ℕ}
    (hn : 0 < n) : (m.bump key n).Tallies (List.replicate n key ++ keys) := by
  refine ⟨?_, ?_, (occurrences_bump m key n).trans (h.perm.append_left _)⟩
  · have hnodup := h.nodup
    clear h
    induction m with
    | nil => exact List.nodup_singleton key
    | cons p m ih =>
      obtain ⟨l, v⟩ := p
      obtain ⟨hnotin, hrest⟩ := List.nodup_cons.mp hnodup
      by_cases hl : l = key
      · rw [CountMap.bump, if_pos hl]
        exact hnodup
      · rw [CountMap.bump, if_neg hl]
        refine List.nodup_cons.mpr ⟨fun hmem => ?_, ih hrest⟩
        rcases (mem_keys_bump m key n l).mp hmem with heq | hmem
        · exact hl heq
        · exact hnotin hmem
  · have hpos := h.pos
    clear h
    induction m with
    | nil =>
      intro p hp
      rw [List.mem_singleton.mp hp]
      exact hn
    | cons q m ih =>
      obtain ⟨l, v⟩ := q
      have hv : 0 < v := hpos (l, v) List.mem_cons_self
      have hrest := ih fun p hp => hpos p (List.mem_cons_of_mem _ hp)
      rw [CountMap.bump]
      split_ifs
      · exact List.forall_mem_cons.mpr ⟨Nat.add_pos_left hv n,
          fun p hp => hpos p (List.mem_cons_of_mem _ hp)⟩
      · exact List.forall_mem_cons.mpr ⟨hv, hrest⟩

/-- A merged map tallies the keys of both. -/
theorem Tallies.merge {m other : CountMap K} {keys keys' : List K} (h : m.Tallies keys)
    (hother : other.Tallies keys') : (m.merge other).Tallies (keys ++ keys') := by
  refine Tallies.congr ?_ (hother.perm.append_left keys)
  have hpos := hother.pos
  clear hother
  unfold CountMap.merge
  induction other generalizing m keys with
  | nil => rwa [occurrences, List.flatMap_nil, List.append_nil]
  | cons p other ih =>
    have hbumped := h.bump p.1 (hpos p List.mem_cons_self)
    rw [List.foldl_cons]
    refine (ih hbumped fun q hq => hpos q (List.mem_cons_of_mem _ hq)).congr ?_
    have hcons : occurrences (p :: other) = List.replicate p.2 p.1 ++ occurrences other := rfl
    rw [hcons, ← List.append_assoc]
    exact List.perm_append_comm.append_right _

omit [DecidableEq K] in
theorem sum_snd_eq_length (m : CountMap K) : (m.map Prod.snd).sum = m.occurrences.length := by
  simp [occurrences, List.length_flatMap]

/-- The number of entries is that of distinct keys, and the counts add up to all keys. -/
theorem Tallies.sizes {m : CountMap K} {keys : List K} (h : m.Tallies keys) :
    m.length = keys.dedup.length ∧ (m.map Prod.snd).sum = keys.length := by
  have hkeys : m.keys.Perm keys.dedup := by
    refine (List.perm_ext_iff_of_nodup h.nodup (List.nodup_dedup keys)).mpr fun k => ?_
    rw [List.mem_dedup, ← h.perm.mem_iff]
    constructor
    · intro hk
      obtain ⟨p, hp, rfl⟩ := List.mem_map.mp hk
      exact List.mem_flatMap.mpr ⟨p, hp, List.mem_replicate.mpr ⟨(h.pos p hp).ne', rfl⟩⟩
    · intro hk
      obtain ⟨p, hp, hrep⟩ := List.mem_flatMap.mp hk
      exact List.mem_map.mpr ⟨p, hp, (List.mem_replicate.mp hrep).2.symm⟩
  constructor
  · rw [← hkeys.length_eq]
    exact (List.length_map _).symm
  · rw [sum_snd_eq_length, h.perm.length_eq]

end CountMap

/-! ### One node -/

inductive TokenRole where
  | operator | operand | unknown
  deriving DecidableEq, Repr

/-- How a language classifies and keys the nodes of one source text. `getId` gives the bytes a
node spans; they are empty exactly when the node starts where it ends. -/
structure Getter where
  getId : Node → List UInt8
  getOpTypeWithCode : Ancestors → Node → TokenRole
  getOperatorSpelling : Ancestors → Node → Option (List UInt8)
  keysOperatorByText : Ancestors → Node → Bool
  getOperandId : Ancestors → Node → List UInt8

variable (getter : Getter)

/-- A zero-width node spells no token. -/
def computeHalstead (ancestors : Ancestors) (node : Node) (maps : HalsteadMaps) :
    HalsteadMaps :=
  if getter.getId node = [] then maps
  else
    match getter.getOpTypeWithCode ancestors node with
    | .operator =>
      match getter.getOperatorSpelling ancestors node with
      | some spelling =>
        { maps with primitiveOperators := maps.primitiveOperators.bump spelling 1 }
      | none =>
        if getter.keysOperatorByText ancestors node then
          { maps with
            primitiveOperators := maps.primitiveOperators.bump (getter.getId node) 1 }
        else { maps with operators := maps.operators.bump (.ofNat node.label.kindId) 1 }
    | .operand =>
      { maps with operands := maps.operands.bump (getter.getOperandId ancestors node) 1 }
    | .unknown => maps

/-! ### One flat count -/

/-- The role of a node that spells a token. -/
def Getter.role (v : Visited) : TokenRole :=
  if getter.getId v.node = [] then .unknown else getter.getOpTypeWithCode v.ancestors v.node

/-- An operator is keyed by its spelling or its text, or else by its kind. -/
def Getter.operatorKey (v : Visited) : UInt16 ⊕ List UInt8 :=
  match getter.getOperatorSpelling v.ancestors v.node with
  | some spelling => .inr spelling
  | none =>
    if getter.keysOperatorByText v.ancestors v.node then .inr (getter.getId v.node)
    else .inl (.ofNat v.node.label.kindId)

def Getter.operators (nodes : List Visited) : List (UInt16 ⊕ List UInt8) :=
  (nodes.filter fun v => getter.role v = .operator).map getter.operatorKey

def Getter.operands (nodes : List Visited) : List (List UInt8) :=
  (nodes.filter fun v => getter.role v = .operand).map fun v =>
    getter.getOperandId v.ancestors v.node

/-- The counts of some nodes, without spaces. -/
def flatCount (nodes : List Visited) : Stats where
  uOperators := (getter.operators nodes).dedup.length
  operators := (getter.operators nodes).length
  uOperands := (getter.operands nodes).dedup.length
  operands := (getter.operands nodes).length

theorem flatCount_perm {nodes nodes' : List Visited} (h : nodes.Perm nodes') :
    flatCount getter nodes = flatCount getter nodes' := by
  have hoperators : (getter.operators nodes).Perm (getter.operators nodes') :=
    (h.filter _).map _
  have hoperands : (getter.operands nodes).Perm (getter.operands nodes') := (h.filter _).map _
  unfold flatCount
  rw [hoperators.length_eq, hoperators.dedup.length_eq, hoperands.length_eq,
    hoperands.dedup.length_eq]

end BigCodeAnalysis.Metrics.Halstead
