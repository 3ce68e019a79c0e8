import BigCodeAnalysis.Graphs.Condensation
import Mathlib.Data.List.Lex
import Mathlib.Data.Prod.Lex
import Mathlib.Data.String.Basic
import Mathlib.Order.WithBot

/-! The include graph of preprocessed files. Cycles are collapsed to one node each, and a file gets
the paths of all it reaches. An answer is `none` where the program would panic. -/

namespace BigCodeAnalysis.Preproc

open Graphs

variable {π : Type*}

/-- Paths, equal ones spelled alike. `toStr` has no answer where a path is not UTF-8. -/
structure Paths (π : Type*) where
  empty : π
  toStr : π → Option String
  ofStr : String → π
  display : π → String
  ofStr_of_toStr : ∀ p s, toStr p = some s → ofStr s = p

structure PreprocFile where
  directIncludes : List String
  indirectIncludes : List String
  macros : List String
  deriving DecidableEq, Repr

abbrev Files (π : Type*) := List (π × PreprocFile)

inductive PreprocDiagnostic (π : Type*) where
  | selfInclusion (file : π)
  | includeCycle (members : List String)
  | nonUtf8CyclePath (path : String)
  | nonUtf8IndirectInclude (path : String)
  | notPreprocessed (file : π)
  deriving DecidableEq, Repr

/-! ### The graph -/

/-- The nodes that are there, each with its path, and the edges. -/
structure IncludeGraph (π : Type*) where
  weights : List (ℕ × π)
  edges : List (ℕ × ℕ)

namespace IncludeGraph

def nodes (g : IncludeGraph π) : List ℕ := g.weights.map Prod.fst

def nodeWeight (g : IncludeGraph π) (n : ℕ) : Option π := g.weights.lookup n

def successors (g : IncludeGraph π) (n : ℕ) : List ℕ :=
  g.edges.filterMap fun edge => if edge.1 = n then some edge.2 else none

def predecessors (g : IncludeGraph π) (n : ℕ) : List ℕ :=
  g.edges.filterMap fun edge => if edge.2 = n then some edge.1 else none

/-- The node with its edges is gone. -/
def without (g : IncludeGraph π) (n : ℕ) : IncludeGraph π where
  weights := g.weights.filter fun entry => entry.1 ≠ n
  edges := g.edges.filter fun edge => edge.1 ≠ n ∧ edge.2 ≠ n

def removeNode (g : IncludeGraph π) (n : ℕ) : Option (π × IncludeGraph π) :=
  (g.nodeWeight n).map fun path => (path, g.without n)

end IncludeGraph

/-- What the graph library answers. -/
structure Petgraph (π : Type*) where
  freeIndex : IncludeGraph π → ℕ
  kosarajuScc : IncludeGraph π → List (List ℕ)
  toposort : IncludeGraph π → Option (List ℕ)
  dfs : IncludeGraph π → ℕ → List ℕ

structure Petgraph.Documented (lib : Petgraph π) : Prop where
  fresh : ∀ g, lib.freeIndex g ∉ g.nodes
  scc : ∀ g, g.nodes.Nodup → Closed g.nodes g.edges →
    IsScc g.nodes g.edges (lib.kosarajuScc g)
  toposort : ∀ g, g.nodes.Nodup → Closed g.nodes g.edges →
    IsToposort g.nodes g.edges (lib.toposort g)

/-! ### Construction -/

/-- A graph under construction with the nodes of its paths. -/
structure Building (π : Type*) where
  g : IncludeGraph π
  nodes : List (π × ℕ)
  diagnostics : List (PreprocDiagnostic π)

section Construction
variable [LinearOrder π] (lib : Petgraph π) (guessFile : π → String → List π)

def ensureNode (s : Building π) (file : π) : Building π × ℕ :=
  match s.nodes.lookup file with
  | some node => (s, node)
  | none =>
    let node := lib.freeIndex s.g
    (⟨⟨s.g.weights ++ [(node, file)], s.g.edges⟩, s.nodes ++ [(file, node)], s.diagnostics⟩, node)

/-- The least of the candidates. -/
def resolveSingleInclude (file : π) (path : String) : Option π := (guessFile file path).min?

def addInclude (file : π) (node : ℕ) (s : Building π) (path : String) : Building π :=
  match resolveSingleInclude guessFile file path with
  | none => s
  | some included =>
    if included = file then { s with diagnostics := s.diagnostics ++ [.selfInclusion file] }
    else
      let (s, target) := ensureNode lib s included
      { s with g := ⟨s.g.weights, s.g.edges ++ [(node, target)]⟩ }

def addFile (s : Building π) (entry : π × PreprocFile) : Building π :=
  let (s, node) := ensureNode lib s entry.1
  entry.2.directIncludes.foldl (addInclude lib guessFile entry.1 node) s

def buildIncludeGraph (files : Files π) : Building π :=
  files.foldl (addFile lib guessFile) ⟨⟨[], []⟩, [], []⟩

end Construction

/-! ### Cycles -/

section Cycles
variable [DecidableEq π] (paths : Paths π) (lib : Petgraph π)

/-- The neighbours outside of a component, each once. -/
def sccExternalNeighbors (neighbors : ℕ → List ℕ) (component : List ℕ) : List ℕ :=
  (component.flatMap neighbors).foldl
    (fun found n => if n ∈ component ∨ n ∈ found then found else found ++ [n]) []

/-- `*nodes.get_mut(path) = node` -/
def setNode (nodes : List (π × ℕ)) (path : π) (node : ℕ) : Option (List (π × ℕ)) :=
  if path ∈ nodes.map Prod.fst then
    some (nodes.map fun entry => if entry.1 = path then (path, node) else entry)
  else none

/-- A member of a cycle gives way to the replacement. The strings are the members so far. -/
def retireMember (replacement : ℕ) (s : Building π × List String) (member : ℕ) :
    Option (Building π × List String) := do
  let (path, g) ← s.1.g.removeNode member
  let nodes ← setNode s.1.nodes path replacement
  some (match paths.toStr path with
    | some text => (⟨g, nodes, s.1.diagnostics⟩, s.2.insert text)
    | none =>
      (⟨g, nodes, s.1.diagnostics ++ [.nonUtf8CyclePath (paths.display path)]⟩, s.2))

def collapseOneComponent (s : Building π) (component : List ℕ) :
    Option (Building π × ℕ × List String) := do
  let incoming := sccExternalNeighbors s.g.predecessors component
  let outgoing := sccExternalNeighbors s.g.successors component
  let replacement := lib.freeIndex s.g
  let g : IncludeGraph π := ⟨s.g.weights ++ [(replacement, paths.empty)],
    s.g.edges ++ incoming.map (fun n => (n, replacement)) ++
      outgoing.map fun n => (replacement, n)⟩
  let (s, members) ←
    component.foldlM (retireMember paths replacement) (⟨g, s.nodes, s.diagnostics⟩, [])
  some (⟨s.g, s.nodes, s.diagnostics ++ [.includeCycle (members.insertionSort (· ≤ ·))]⟩,
    replacement, members)

abbrev SccMap := List (ℕ × List String)

def collapseIfCycle (s : Building π × SccMap) (component : List ℕ) :
    Option (Building π × SccMap) :=
  if 1 < component.length then do
    let (collapsed, replacement, members) ← collapseOneComponent paths lib s.1 component
    some (collapsed, s.2 ++ [(replacement, members)])
  else some s

def collapseScc (s : Building π) : Option (Building π × SccMap) :=
  (lib.kosarajuScc s.g).foldlM (collapseIfCycle paths lib) (s, [])

end Cycles

/-! ### Closures -/

inductive NodeContribution (π : Type*) where
  | path (text : String)
  | nonUtf8 (path : π)
  deriving DecidableEq, Repr

def mergeSortedIds : List ℕ → List ℕ → List ℕ
  | [], right => right
  | left, [] => left
  | a :: left, b :: right =>
    if a < b then a :: mergeSortedIds left (b :: right)
    else if b < a then b :: mergeSortedIds (a :: left) right
    else a :: mergeSortedIds left right
termination_by left right => left.length + right.length

section Recording
variable [DecidableEq π] (paths : Paths π) (lib : Petgraph π)

def contribution (path : π) : NodeContribution π := (paths.toStr path).elim (.nonUtf8 path) .path

/-- A path for itself, the empty one for the cycle it replaces. -/
def contributions (sccMap : SccMap) (entry : ℕ × π) : List (NodeContribution π) :=
  if entry.2 = paths.empty then ((sccMap.lookup entry.1).getD []).map .path
  else [contribution paths entry.2]

/-- All contributions, and the range of them a node has. -/
def indexNodeContributions (g : IncludeGraph π) (sccMap : SccMap) :
    List (NodeContribution π) × List (ℕ × ℕ × ℕ) :=
  g.weights.foldl (fun (entries, own) entry =>
    let added := contributions paths sccMap entry
    (entries ++ added, own ++ [(entry.1, entries.length, added.length)])) ([], [])

structure IncludeClosures (π : Type*) where
  entries : List (NodeContribution π)
  closures : ℕ → List ℕ

def ownIds (own : List (ℕ × ℕ × ℕ)) (node : ℕ) : List ℕ :=
  (own.lookup node).elim [] fun range => List.range' range.1 range.2

/-- What a node reaches, by way of the finished closures of its successors. -/
def closeNode (g : IncludeGraph π) (own : List (ℕ × ℕ × ℕ)) (closures : ℕ → List ℕ)
    (node : ℕ) : ℕ → List ℕ :=
  Function.update closures node
    ((g.successors node).foldl (fun acc succ => mergeSortedIds acc (closures succ))
      (ownIds own node))

def computeIncludeClosures (g : IncludeGraph π) (sccMap : SccMap) :
    Option (IncludeClosures π) :=
  (lib.toposort g).map fun order =>
    let (entries, own) := indexNodeContributions paths g sccMap
    ⟨entries, order.reverse.foldl (closeNode g own) fun _ => []⟩

/-- The indirect includes of a file and what there is to say about them. -/
abbrev Gathered (π : Type*) := List String × List (PreprocDiagnostic π)

def gather (s : Gathered π) : NodeContribution π → Gathered π
  | .path text => (s.1.insert text, s.2)
  | .nonUtf8 path => (s.1, s.2 ++ [.nonUtf8IndirectInclude (paths.display path)])

def IncludeClosures.materialize (self : IncludeClosures π) (start : ℕ) (s : Gathered π) :
    Gathered π :=
  ((self.closures start).filterMap fun id => self.entries[id]?).foldl (gather paths) s

/-- The walk from one file, for a graph without an order. -/
def accumulateReachableIncludes (g : IncludeGraph π) (start : ℕ) (sccMap : SccMap)
    (s : Gathered π) : Option (Gathered π) :=
  (lib.dfs g start).foldlM (fun s node => (g.nodeWeight node).bind fun path =>
    if path = paths.empty then
      (sccMap.lookup node).map fun members =>
        (members.map NodeContribution.path).foldl (gather paths) s
    else some (gather paths s (contribution paths path))) s

def setIndirect (files : Files π) (path : π) (indirect : List String) : Files π :=
  files.map fun entry =>
    if entry.1 = path then (path, { entry.2 with indirectIncludes := indirect }) else entry

/-- One node of the map gets what it reaches. -/
def recordNode (g : IncludeGraph π) (sccMap : SccMap) (precomputed : Option (IncludeClosures π))
    (s : Files π × List (PreprocDiagnostic π)) (entry : π × ℕ) :
    Option (Files π × List (PreprocDiagnostic π)) :=
  match s.1.lookup entry.1 with
  | none => some (s.1, s.2 ++ [.notPreprocessed entry.1])
  | some pf => do
    let gathered ← match precomputed with
      | some closures => some (closures.materialize paths entry.2 (pf.indirectIncludes, s.2))
      | none => accumulateReachableIncludes paths lib g entry.2 sccMap (pf.indirectIncludes, s.2)
    some (setIndirect s.1 entry.1 gathered.1, gathered.2)

/-- `hashOrder` is the order in which the map of the nodes is walked. -/
def recordIndirectIncludes (hashOrder : List (π × ℕ) → List (π × ℕ)) (files : Files π)
    (s : Building π) (sccMap : SccMap) : Option (Files π × List (PreprocDiagnostic π)) :=
  (hashOrder s.nodes).foldlM
    (recordNode paths lib s.g sccMap (computeIncludeClosures paths lib s.g sccMap))
    (files, s.diagnostics)

end Recording

/-! ### Everything -/

section Fix
variable [LinearOrder π] (paths : Paths π) (lib : Petgraph π)
  (guessFile : π → String → List π) (hashOrder : List (π × ℕ) → List (π × ℕ))

/-- The derived order: by kind, then by field. -/
def PreprocDiagnostic.key : PreprocDiagnostic π → ℕ ×ₗ WithBot π ×ₗ List String ×ₗ String
  | .selfInclusion file => toLex (0, toLex (file, toLex ([], "")))
  | .includeCycle members => toLex (1, toLex (⊥, toLex (members, "")))
  | .nonUtf8CyclePath path => toLex (2, toLex (⊥, toLex ([], path)))
  | .nonUtf8IndirectInclude path => toLex (3, toLex (⊥, toLex ([], path)))
  | .notPreprocessed file => toLex (4, toLex (file, toLex ([], "")))

def fixIncludes (files : Files π) : Option (Files π × List (PreprocDiagnostic π)) := do
  let (s, sccMap) ← collapseScc paths lib (buildIncludeGraph lib guessFile files)
  let (files, diagnostics) ← recordIndirectIncludes paths lib hashOrder files s sccMap
  some (files, diagnostics.insertionSort fun a b => a.key ≤ b.key)

def serializeSortedNames (names : List String) : List String := names.insertionSort (· ≤ ·)

def PreprocFile.serialize (pf : PreprocFile) : PreprocFile :=
  ⟨serializeSortedNames pf.directIncludes, serializeSortedNames pf.indirectIncludes,
    serializeSortedNames pf.macros⟩

/-- The document: the files by path, the names of each in order. -/
def serializeSortedFiles (files : Files π) : Files π :=
  (files.insertionSort fun a b => a.1 ≤ b.1).map fun entry => (entry.1, entry.2.serialize)

/-- The macros of a file and of all it includes. -/
def visibleMacros (files : Files π) (file : π) : List String :=
  match files.lookup file with
  | none => []
  | some pf => pf.macros ++ pf.indirectIncludes.flatMap fun path =>
      ((files.lookup (paths.ofStr path)).elim [] PreprocFile.macros)

end Fix

/-! ### Maps as lists -/

section Lookup
variable {κ α : Type*} [DecidableEq κ] {l : List (κ × α)} {k : κ} {v : α}

theorem lookup_cons_of_ne {e : κ × α} (h : k ≠ e.1) : (e :: l).lookup k = l.lookup k := by
  rw [List.lookup_cons, beq_eq_false_iff_ne.mpr h]

theorem lookup_eq_some (h : (l.map Prod.fst).Nodup) (hmem : (k, v) ∈ l) : l.lookup k = some v := by
  induction l with
  | nil => exact absurd hmem List.not_mem_nil
  | cons e l ih =>
    rw [List.map_cons, List.nodup_cons] at h
    rcases List.mem_cons.mp hmem with rfl | hmem
    · exact List.lookup_cons_self
    · have hne : k ≠ e.1 := fun heq => h.1 (heq ▸ List.mem_map_of_mem (f := Prod.fst) hmem)
      rw [lookup_cons_of_ne hne, ih h.2 hmem]

theorem mem_of_lookup (h : l.lookup k = some v) : (k, v) ∈ l := by
  induction l with
  | nil => cases h
  | cons e l ih =>
    by_cases heq : k = e.1
    · subst heq
      rw [List.lookup_cons, beq_self_eq_true] at h
      obtain rfl := Option.some.inj h
      exact List.mem_cons_self
    · rw [lookup_cons_of_ne heq] at h
      exact List.mem_cons_of_mem _ (ih h)

theorem lookup_eq_none : l.lookup k = none ↔ k ∉ l.map Prod.fst := by
  induction l with
  | nil => exact iff_of_true rfl List.not_mem_nil
  | cons e l ih =>
    rw [List.map_cons, List.mem_cons, not_or, ← ih]
    by_cases heq : k = e.1
    · subst heq
      rw [List.lookup_cons, beq_self_eq_true]
      exact iff_of_false (fun h => nomatch h) fun h => h.1 rfl
    · rw [lookup_cons_of_ne heq, and_iff_right heq]

end Lookup

theorem eq_of_keys_nodup {κ α : Type*} {l : List (κ × α)} (h : (l.map Prod.fst).Nodup) {k : κ}
    {v w : α} (hv : (k, v) ∈ l) (hw : (k, w) ∈ l) : v = w :=
  congrArg Prod.snd (List.inj_on_of_nodup_map h hv hw rfl)

theorem eq_of_values_nodup {κ α : Type*} {l : List (κ × α)} (h : (l.map Prod.snd).Nodup)
    {k k' : κ} {v : α} (hk : (k, v) ∈ l) (hk' : (k', v) ∈ l) : k = k' :=
  congrArg Prod.fst (List.inj_on_of_nodup_map h hk hk' rfl)

/-! ### The graph as it is built -/

/-- A graph over the paths `K` with the edges `R`, each path with a node of its own. -/
structure Built (s : Building π) (K : π → Prop) (R : π → π → Prop) : Prop where
  weights : s.g.weights = s.nodes.map Prod.swap
  keys : (s.nodes.map Prod.fst).Nodup
  indices : (s.nodes.map Prod.snd).Nodup
  known : ∀ p, p ∈ s.nodes.map Prod.fst ↔ K p
  edges : ∀ a b, (a, b) ∈ s.g.edges ↔ ∃ p q, (p, a) ∈ s.nodes ∧ (q, b) ∈ s.nodes ∧ R p q
  ends : ∀ p q, R p q → K p ∧ K q

theorem Built.congr {s : Building π} {K K' : π → Prop} {R R' : π → π → Prop} (h : Built s K R)
    (hK : ∀ p, K p ↔ K' p) (hR : ∀ p q, R p q ↔ R' p q) : Built s K' R' where
  weights := h.weights
  keys := h.keys
  indices := h.indices
  known p := (h.known p).trans (hK p)
  edges a b := by
    rw [h.edges]
    simp only [hR]
  ends p q hpq := by
    rw [← hK, ← hK]
    exact h.ends p q ((hR p q).mpr hpq)

theorem Built.nodes_eq {s : Building π} {K : π → Prop} {R : π → π → Prop} (h : Built s K R) :
    s.g.nodes = s.nodes.map Prod.snd := by
  rw [IncludeGraph.nodes, h.weights, List.map_map]
  rfl

section Construction
variable [LinearOrder π] {lib : Petgraph π} {guessFile : π → String → List π}

/-- A direct include that is not of the file itself. -/
def Includes (guessFile : π → String → List π) (files : Files π) (p q : π) : Prop :=
  ∃ pf, (p, pf) ∈ files ∧ ∃ path ∈ pf.directIncludes,
    resolveSingleInclude guessFile p path = some q ∧ q ≠ p

/-- The node of a path is there, whether it was or not; nothing else changes. -/
theorem ensureNode_built {s : Building π} {K : π → Prop} {R : π → π → Prop}
    (hlib : lib.Documented) (h : Built s K R) (file : π) :
    Built (ensureNode lib s file).1 (fun p => K p ∨ p = file) R ∧
      (file, (ensureNode lib s file).2) ∈ (ensureNode lib s file).1.nodes ∧
      s.nodes ⊆ (ensureNode lib s file).1.nodes ∧
      (ensureNode lib s file).1.diagnostics = s.diagnostics := by
  rw [ensureNode]
  cases hlookup : s.nodes.lookup file with
  | some node =>
    have hmem := mem_of_lookup hlookup
    refine ⟨h.congr (fun p => ?_) fun _ _ => Iff.rfl, hmem, List.Subset.refl _, rfl⟩
    refine ⟨.inl, fun hp => hp.elim id fun heq => ?_⟩
    rw [heq, ← h.known]
    exact List.mem_map_of_mem (f := Prod.fst) hmem
  | none =>
    have hnew : file ∉ s.nodes.map Prod.fst := lookup_eq_none.mp hlookup
    have hfresh : lib.freeIndex s.g ∉ s.nodes.map Prod.snd := h.nodes_eq ▸ hlib.fresh s.g
    have hkeys : ((s.nodes ++ [(file, lib.freeIndex s.g)]).map Prod.fst).Nodup := by
      rw [List.map_append, List.map_singleton]
      exact List.nodup_append.mpr ⟨h.keys, List.nodup_singleton _, fun p hp q hq heq => by
        obtain rfl : p = file := heq.trans (List.mem_singleton.mp hq)
        exact hnew hp⟩
    refine ⟨⟨?_, hkeys, ?_, fun p => ?_, fun a b => ?_, fun p q hpq => ?_⟩,
      List.mem_append_right _ (List.mem_singleton_self _), List.subset_append_left _ _, rfl⟩
    · rw [List.map_append, ← h.weights]
      rfl
    · rw [List.map_append, List.map_singleton]
      exact List.nodup_append.mpr ⟨h.indices, List.nodup_singleton _, fun p hp q hq heq => by
        obtain rfl : p = lib.freeIndex s.g := heq.trans (List.mem_singleton.mp hq)
        exact hfresh hp⟩
    · rw [List.map_append, List.mem_append, h.known, List.map_singleton, List.mem_singleton]
    · rw [h.edges]
      constructor
      · rintro ⟨p, q, hp, hq, hpq⟩
        exact ⟨p, q, List.mem_append_left _ hp, List.mem_append_left _ hq, hpq⟩
      · rintro ⟨p, q, hp, hq, hpq⟩
        have hold {r : π} {c : ℕ} (hr : (r, c) ∈ s.nodes ++ [(file, lib.freeIndex s.g)])
            (hK : K r) : (r, c) ∈ s.nodes := by
          obtain ⟨⟨r', d⟩, hmem, rfl⟩ := List.mem_map.mp ((h.known r).mpr hK)
          rw [eq_of_keys_nodup hkeys hr (List.mem_append_left _ hmem)]
          exact hmem
        exact ⟨p, q, hold hp (h.ends p q hpq).1, hold hq (h.ends p q hpq).2, hpq⟩
    · exact ⟨.inl (h.ends p q hpq).1, .inl (h.ends p q hpq).2⟩

/-- What the includes of a file add to the paths and to the edges. -/
def Resolves (guessFile : π → String → List π) (file : π) (includes : List String) (q : π) : Prop :=
  ∃ path ∈ includes, resolveSingleInclude guessFile file path = some q ∧ q ≠ file

theorem addInclude_built {s : Building π} {K : π → Prop} {R : π → π → Prop}
    (hlib : lib.Documented) (h : Built s K R) {file : π} {node : ℕ}
    (hnode : (file, node) ∈ s.nodes) (path : String) :
    Built (addInclude lib guessFile file node s path)
        (fun p => K p ∨ Resolves guessFile file [path] p)
        (fun p q => R p q ∨ (p = file ∧ Resolves guessFile file [path] q)) ∧
      (file, node) ∈ (addInclude lib guessFile file node s path).nodes := by
  have hresolves (q : π) : Resolves guessFile file [path] q ↔
      resolveSingleInclude guessFile file path = some q ∧ q ≠ file := by
    rw [Resolves]
    simp only [List.mem_singleton, exists_eq_left]
  rw [addInclude]
  cases hresolve : resolveSingleInclude guessFile file path with
  | none =>
    have hno (q : π) : ¬ Resolves guessFile file [path] q := by
      rw [hresolves, hresolve]
      exact fun hq => nomatch hq.1
    exact ⟨h.congr (fun p => (or_iff_left (hno p)).symm)
      fun p q => (or_iff_left fun hpq => hno q hpq.2).symm, hnode⟩
  | some included =>
    have hone (q : π) : Resolves guessFile file [path] q ↔ q = included ∧ included ≠ file := by
      rw [hresolves, hresolve, Option.some_inj]
      constructor
      · rintro ⟨rfl, hne⟩
        exact ⟨rfl, hne⟩
      · rintro ⟨rfl, hne⟩
        exact ⟨rfl, hne⟩
    dsimp only
    split_ifs with hself
    · have hno (q : π) : ¬ Resolves guessFile file [path] q := fun hq => ((hone q).mp hq).2 hself
      refine ⟨?_, hnode⟩
      exact ⟨h.weights, h.keys, h.indices, fun p => (h.known p).trans (or_iff_left (hno p)).symm,
        fun a b => by simp only [h.edges, or_iff_left fun hpq => hno _ (And.right hpq)],
        fun p q hpq => by
          have hR := (or_iff_left fun hpq => hno q (And.right hpq)).mp hpq
          exact ⟨.inl (h.ends p q hR).1, .inl (h.ends p q hR).2⟩⟩
    · obtain ⟨hbuilt, htarget, hsubset, -⟩ := ensureNode_built hlib h included
      refine ⟨⟨hbuilt.weights, hbuilt.keys, hbuilt.indices, fun p => ?_, fun a b => ?_,
        fun p q hpq => ?_⟩, hsubset hnode⟩
      · rw [hbuilt.known, hone]
        exact or_congr_right (and_iff_left hself).symm
      · rw [List.mem_append, hbuilt.edges, List.mem_singleton]
        constructor
        · rintro (⟨p, q, hp, hq, hpq⟩ | heq)
          · exact ⟨p, q, hp, hq, .inl hpq⟩
          · cases heq
            exact ⟨file, included, hsubset hnode, htarget, .inr ⟨rfl, (hone _).mpr ⟨rfl, hself⟩⟩⟩
        · rintro ⟨p, q, hp, hq, hpq | ⟨rfl, hq'⟩⟩
          · exact .inl ⟨p, q, hp, hq, hpq⟩
          · obtain ⟨rfl, -⟩ := (hone q).mp hq'
            rw [eq_of_keys_nodup hbuilt.keys hp (hsubset hnode),
              eq_of_keys_nodup hbuilt.keys hq htarget]
            exact .inr rfl
      · rcases hpq with hpq | ⟨rfl, hq⟩
        · exact ⟨.inl (h.ends p q hpq).1, .inl (h.ends p q hpq).2⟩
        · exact ⟨.inl ((h.known p).mp (List.mem_map_of_mem (f := Prod.fst) hnode)), .inr hq⟩

theorem addIncludes_built {s : Building π} {K : π → Prop} {R : π → π → Prop}
    (hlib : lib.Documented) (h : Built s K R) {file : π} {node : ℕ}
    (hnode : (file, node) ∈ s.nodes) (includes : List String) :
    Built (includes.foldl (addInclude lib guessFile file node) s)
      (fun p => K p ∨ Resolves guessFile file includes p)
      (fun p q => R p q ∨ (p = file ∧ Resolves guessFile file includes q)) := by
  induction includes generalizing s K R with
  | nil =>
    have hno (q : π) : ¬ Resolves guessFile file [] q := fun ⟨_, hmem, _⟩ => List.not_mem_nil hmem
    exact h.congr (fun p => (or_iff_left (hno p)).symm)
      fun p q => (or_iff_left fun hpq => hno q hpq.2).symm
  | cons path includes ih =>
    have hcons (q : π) : Resolves guessFile file (path :: includes) q ↔
        Resolves guessFile file [path] q ∨ Resolves guessFile file includes q := by
      simp only [Resolves, List.exists_mem_cons_iff, List.not_mem_nil, false_and, exists_false,
        or_false]
    obtain ⟨hone, hnode'⟩ := addInclude_built hlib h hnode path
    refine (ih hone hnode').congr (fun p => ?_) fun p q => ?_
    · rw [hcons, or_assoc]
    · rw [hcons, and_or_left, or_assoc]

theorem addFile_built {s : Building π} {K : π → Prop} {R : π → π → Prop}
    (hlib : lib.Documented) (h : Built s K R) (entry : π × PreprocFile) :
    Built (addFile lib guessFile s entry)
      (fun p => K p ∨ p = entry.1 ∨ Resolves guessFile entry.1 entry.2.directIncludes p)
      (fun p q => R p q ∨
        (p = entry.1 ∧ Resolves guessFile entry.1 entry.2.directIncludes q)) := by
  obtain ⟨hbuilt, hmem, -, -⟩ := ensureNode_built hlib h entry.1
  exact (addIncludes_built hlib hbuilt hmem entry.2.directIncludes).congr
    (fun p => or_assoc) fun _ _ => Iff.rfl

/-- A path of the graph: of a file, or one that a file includes. -/
def Known (guessFile : π → String → List π) (files : Files π) (p : π) : Prop :=
  p ∈ files.map Prod.fst ∨ ∃ q, Includes guessFile files q p

theorem includes_cons {entry : π × PreprocFile} {files : Files π} {p q : π} :
    Includes guessFile (entry :: files) p q ↔
      (p = entry.1 ∧ Resolves guessFile entry.1 entry.2.directIncludes q) ∨
        Includes guessFile files p q := by
  constructor
  · rintro ⟨pf, hmem, hpf⟩
    rcases List.mem_cons.mp hmem with rfl | hmem
    · exact .inl ⟨rfl, hpf⟩
    · exact .inr ⟨pf, hmem, hpf⟩
  · rintro (⟨rfl, hpf⟩ | ⟨pf, hmem, hpf⟩)
    · exact ⟨entry.2, List.mem_cons_self, hpf⟩
    · exact ⟨pf, List.mem_cons_of_mem _ hmem, hpf⟩

theorem addFiles_built {s : Building π} {K : π → Prop} {R : π → π → Prop}
    (hlib : lib.Documented) (h : Built s K R) (files : Files π) :
    Built (files.foldl (addFile lib guessFile) s) (fun p => K p ∨ Known guessFile files p)
      (fun p q => R p q ∨ Includes guessFile files p q) := by
  induction files generalizing s K R with
  | nil =>
    have hno (p q : π) : ¬ Includes guessFile [] p q := fun ⟨_, hmem, _⟩ => List.not_mem_nil hmem
    refine h.congr (fun p => (or_iff_left ?_).symm) fun p q => (or_iff_left (hno p q)).symm
    rintro (hmem | ⟨q, hq⟩)
    · exact List.not_mem_nil hmem
    · exact hno q p hq
  | cons entry files ih =>
    refine (ih (addFile_built hlib h entry)).congr (fun p => ?_) fun p q => ?_
    · rw [or_assoc]
      refine or_congr_right ?_
      simp only [Known, List.map_cons, List.mem_cons, includes_cons, exists_or, exists_eq_left]
      tauto
    · rw [includes_cons, or_assoc]

/-- The graph has a node for each path and an edge for each include. -/
theorem buildIncludeGraph_built (hlib : lib.Documented) (files : Files π) :
    Built (buildIncludeGraph lib guessFile files) (Known guessFile files)
      (Includes guessFile files) := by
  have hempty : Built (π := π) ⟨⟨[], []⟩, [], []⟩ (fun _ => False) fun _ _ => False :=
    ⟨rfl, List.nodup_nil, List.nodup_nil, fun _ => iff_of_false List.not_mem_nil id,
      fun _ _ => iff_of_false List.not_mem_nil fun ⟨_, _, _, _, h⟩ => h, fun _ _ h => h.elim⟩
  exact (addFiles_built hlib hempty files).congr (fun _ => iff_of_eq (false_or _))
    fun _ _ => iff_of_eq (false_or _)

/-! ### Self-inclusions -/

theorem diagnostics_ensureNode (s : Building π) (file : π) :
    (ensureNode lib s file).1.diagnostics = s.diagnostics := by
  rw [ensureNode]
  cases s.nodes.lookup file <;> rfl

/-- One for each include that is the file itself. -/
def selfInclusions (guessFile : π → String → List π) (entry : π × PreprocFile) :
    List (PreprocDiagnostic π) :=
  entry.2.directIncludes.filterMap fun path =>
    if resolveSingleInclude guessFile entry.1 path = some entry.1 then
      some (.selfInclusion entry.1)
    else none

theorem diagnostics_addInclude (s : Building π) (file : π) (node : ℕ) (path : String) :
    (addInclude lib guessFile file node s path).diagnostics = s.diagnostics ++
      (if resolveSingleInclude guessFile file path = some file then [.selfInclusion file]
        else []) := by
  rw [addInclude]
  cases hresolve : resolveSingleInclude guessFile file path with
  | none => exact (List.append_nil _).symm
  | some included =>
    dsimp only
    by_cases hself : included = file
    · rw [if_pos hself, if_pos (congrArg some hself)]
    · rw [if_neg hself, if_neg (mt Option.some.inj hself), List.append_nil]
      exact diagnostics_ensureNode s included

theorem diagnostics_addFile (s : Building π) (entry : π × PreprocFile) :
    (addFile lib guessFile s entry).diagnostics =
      s.diagnostics ++ selfInclusions guessFile entry := by
  have hfold : ∀ (includes : List String) (s : Building π) (node : ℕ),
      (includes.foldl (addInclude lib guessFile entry.1 node) s).diagnostics =
        s.diagnostics ++ includes.filterMap fun path =>
          if resolveSingleInclude guessFile entry.1 path = some entry.1 then
            some (.selfInclusion entry.1)
          else none := by
    intro includes
    induction includes with
    | nil => exact fun s _ => (List.append_nil _).symm
    | cons path includes ih =>
      intro s node
      rw [List.foldl_cons, ih, diagnostics_addInclude, List.append_assoc, List.filterMap_cons]
      split_ifs <;> rfl
  exact (hfold _ _ _).trans (congrArg (· ++ _) (diagnostics_ensureNode s entry.1))

theorem diagnostics_buildIncludeGraph (files : Files π) :
    (buildIncludeGraph lib guessFile files).diagnostics =
      files.flatMap (selfInclusions guessFile) := by
  have hfold : ∀ (files : Files π) (s : Building π),
      (files.foldl (addFile lib guessFile) s).diagnostics =
        s.diagnostics ++ files.flatMap (selfInclusions guessFile) := by
    intro files
    induction files with
    | nil => exact fun s => (List.append_nil _).symm
    | cons entry files ih =>
      intro s
      rw [List.foldl_cons, ih, diagnostics_addFile, List.flatMap_cons, List.append_assoc]
  exact hfold files _

end Construction

/-! ### A graph library -/

def firstUnused (nodes : List ℕ) : ℕ := nodes.foldr (fun n m => max (n + 1) m) 0

theorem lt_firstUnused {nodes : List ℕ} {n : ℕ} (h : n ∈ nodes) : n < firstUnused nodes := by
  induction nodes with
  | nil => exact absurd h List.not_mem_nil
  | cons m nodes ih =>
    rw [firstUnused, List.foldr_cons]
    rcases List.mem_cons.mp h with rfl | h
    · exact Nat.lt_of_succ_le (le_max_left _ _)
    · exact (ih h).trans_le (le_max_right _ _)

/-- Answers as documented, computed by comparing all nodes with all others. -/
def Petgraph.computed (π : Type*) : Petgraph π where
  freeIndex g := firstUnused g.nodes
  kosarajuScc g := componentsOf g.nodes g.edges
  toposort g := toposortOf g.nodes g.edges
  dfs g start := g.nodes.filter fun n => reaches g.edges start n

theorem Petgraph.computed_documented : (Petgraph.computed π).Documented where
  fresh _ h := lt_irrefl _ (lt_firstUnused h)
  scc _ hnodup _ := isScc_componentsOf hnodup
  toposort _ _ hclosed := isToposort_toposortOf hclosed

/-- Paths that are texts. -/
def textPaths : Paths String where
  empty := ""
  toStr := some
  ofStr s := s
  display s := s
  ofStr_of_toStr _ _ h := (Option.some.inj h).symm

/-- A source with a header that it and another header include, the two headers each other. -/
def ringFiles : Files String :=
  [("main.c", ⟨["a.h"], [], ["MAIN"]⟩), ("a.h", ⟨["b.h"], [], ["A"]⟩),
    ("b.h", ⟨["a.h", "b.h"], [], ["B"]⟩)]

end BigCodeAnalysis.Preproc
