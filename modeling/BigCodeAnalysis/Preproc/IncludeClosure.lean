import BigCodeAnalysis.Preproc.IncludeCycles

/-! What a file gets from the include graph: the paths of all files it reaches, along the includes
as they were before cycles were collapsed. A node that stands for a cycle contributes the paths of
its members. The pass goes through the collapsed graph in an order in which a node comes behind
all that it reaches, and merges what its successors have; the texts are then looked up and those
that cannot be written are reported. -/

namespace BigCodeAnalysis.Preproc

open Graphs
open Relation (ReflTransGen TransGen)

variable {π : Type*}

/-! ### Closures -/

theorem mem_mergeSortedIds {a b : List ℕ} {x : ℕ} :
    x ∈ mergeSortedIds a b ↔ x ∈ a ∨ x ∈ b := by
  fun_induction mergeSortedIds a b with
  | case1 b => exact (or_iff_right List.not_mem_nil).symm
  | case2 a => exact (or_iff_left List.not_mem_nil).symm
  | case3 a left b right hlt ih => rw [List.mem_cons, ih, ← or_assoc, ← List.mem_cons]
  | case4 a left b right hlt hgt ih =>
    rw [List.mem_cons, ih, List.mem_cons (b := b)]
    exact or_left_comm
  | case5 a left b right hlt hgt ih =>
    obtain rfl : a = b := Nat.le_antisymm (Nat.not_lt.mp hgt) (Nat.not_lt.mp hlt)
    rw [List.mem_cons, ih, List.mem_cons, List.mem_cons]
    tauto

theorem mem_foldl_mergeSortedIds (closures : ℕ → List ℕ) (successors ids : List ℕ) {x : ℕ} :
    x ∈ successors.foldl (fun acc succ => mergeSortedIds acc (closures succ)) ids ↔
      x ∈ ids ∨ ∃ b ∈ successors, x ∈ closures b := by
  induction successors generalizing ids with
  | nil => exact (or_iff_left fun ⟨_, hb, _⟩ => List.not_mem_nil hb).symm
  | cons b successors ih => rw [List.foldl_cons, ih, mem_mergeSortedIds, List.exists_mem_cons_iff,
      or_assoc]

theorem pairwise_mergeSortedIds {a b : List ℕ} (ha : a.Pairwise (· < ·))
    (hb : b.Pairwise (· < ·)) : (mergeSortedIds a b).Pairwise (· < ·) := by
  fun_induction mergeSortedIds a b with
  | case1 b => exact hb
  | case2 a => exact ha
  | case3 a left b right hlt ih =>
    rw [List.pairwise_cons] at ha
    refine List.pairwise_cons.mpr ⟨fun x hx => ?_, ih ha.2 hb⟩
    rcases mem_mergeSortedIds.mp hx with hx | hx
    · exact ha.1 x hx
    · rcases List.mem_cons.mp hx with rfl | hx
      · exact hlt
      · exact hlt.trans (List.rel_of_pairwise_cons hb hx)
  | case4 a left b right hlt hgt ih =>
    rw [List.pairwise_cons] at hb
    refine List.pairwise_cons.mpr ⟨fun x hx => ?_, ih ha hb.2⟩
    rcases mem_mergeSortedIds.mp hx with hx | hx
    · rcases List.mem_cons.mp hx with rfl | hx
      · exact hgt
      · exact hgt.trans (List.rel_of_pairwise_cons ha hx)
    · exact hb.1 x hx
  | case5 a left b right hlt hgt ih =>
    obtain rfl : a = b := Nat.le_antisymm (Nat.not_lt.mp hgt) (Nat.not_lt.mp hlt)
    rw [List.pairwise_cons] at ha hb
    refine List.pairwise_cons.mpr ⟨fun x hx => ?_, ih ha.2 hb.2⟩
    exact (mem_mergeSortedIds.mp hx).elim (ha.1 x) (hb.1 x)

theorem pairwise_ownIds (own : List (ℕ × ℕ × ℕ)) (node : ℕ) :
    (ownIds own node).Pairwise (· < ·) := by
  rw [ownIds]
  cases own.lookup node with
  | none => exact List.Pairwise.nil
  | some range => exact List.pairwise_lt_range'

/-- Closures stay sorted, with each entry once. -/
theorem pairwise_closures {g : IncludeGraph π} (own : List (ℕ × ℕ × ℕ)) (order : List ℕ)
    {closures : ℕ → List ℕ} (h : ∀ n, (closures n).Pairwise (· < ·)) (n : ℕ) :
    (order.foldl (closeNode g own) closures n).Pairwise (· < ·) := by
  have hmerge : ∀ (successors ids : List ℕ) {closures : ℕ → List ℕ},
      (∀ n, (closures n).Pairwise (· < ·)) → ids.Pairwise (· < ·) →
      (successors.foldl (fun acc succ => mergeSortedIds acc (closures succ)) ids).Pairwise
        (· < ·) := by
    intro successors
    induction successors with
    | nil => exact fun _ _ _ hids => hids
    | cons b successors ih =>
      exact fun ids _ h hids => ih _ h (pairwise_mergeSortedIds hids (h b))
  induction order generalizing closures with
  | nil => exact h n
  | cons node order ih =>
    refine ih fun m => ?_
    rw [closeNode]
    by_cases heq : m = node
    · rw [heq, Function.update_self]
      exact hmerge _ _ h (pairwise_ownIds own node)
    · rw [Function.update_of_ne heq]
      exact h m

section Closures
variable [DecidableEq π] {paths : Paths π} {lib : Petgraph π} {sccMap : SccMap}

/-- Every node has its contributions in a range of the entries. -/
theorem foldl_index {l : List (ℕ × π)} (entries : List (NodeContribution π))
    (own : List (ℕ × ℕ × ℕ)) {result : List (NodeContribution π) × List (ℕ × ℕ × ℕ)}
    (hresult : result = l.foldl (fun (entries, own) entry =>
      let added := contributions paths sccMap entry
      (entries ++ added, own ++ [(entry.1, entries.length, added.length)])) (entries, own)) :
    result.1 = entries ++ l.flatMap (contributions paths sccMap) ∧ own ⊆ result.2 ∧
      result.2.map Prod.fst = own.map Prod.fst ++ l.map Prod.fst ∧
      ∀ e ∈ l, ∃ pre post, result.1 = pre ++ contributions paths sccMap e ++ post ∧
        (e.1, pre.length, (contributions paths sccMap e).length) ∈ result.2 := by
  induction l generalizing entries own with
  | nil =>
    subst hresult
    exact ⟨(List.append_nil _).symm, List.Subset.refl _, (List.append_nil _).symm,
      fun _ he => absurd he List.not_mem_nil⟩
  | cons e l ih =>
    rw [List.foldl_cons] at hresult
    obtain ⟨hentries, hsubset, hkeys, hranges⟩ := ih _ _ hresult
    refine ⟨?_, fun x hx => hsubset (List.mem_append_left _ hx), ?_, ?_⟩
    · rw [hentries, List.append_assoc, List.flatMap_cons]
    · rw [hkeys, List.map_append, List.append_assoc]
      rfl
    · rw [List.forall_mem_cons]
      refine ⟨⟨entries, l.flatMap (contributions paths sccMap), hentries, hsubset ?_⟩, hranges⟩
      exact List.mem_append_right _ (List.mem_singleton_self _)

/-- The entries a node has are what it contributes. -/
theorem mem_ownIds {g : IncludeGraph π} (hkeys : g.nodes.Nodup) {entry : ℕ × π}
    (hentry : entry ∈ g.weights) {c : NodeContribution π} :
    (∃ id ∈ ownIds (indexNodeContributions paths g sccMap).2 entry.1,
      (indexNodeContributions paths g sccMap).1[id]? = some c) ↔
      c ∈ contributions paths sccMap entry := by
  obtain ⟨-, -, hown, hranges⟩ := foldl_index [] [] (rfl : indexNodeContributions paths g sccMap = _)
  obtain ⟨pre, post, hentries, hrange⟩ := hranges entry hentry
  have hlookup : (indexNodeContributions paths g sccMap).2.lookup entry.1 =
      some (pre.length, (contributions paths sccMap entry).length) := by
    refine lookup_eq_some ?_ hrange
    rw [hown]
    exact hkeys
  rw [ownIds, hlookup, Option.elim_some, hentries]
  constructor
  · rintro ⟨id, hid, hc⟩
    obtain ⟨k, hk, rfl⟩ := List.mem_range'.mp hid
    rw [Nat.one_mul, List.append_assoc, List.getElem?_append_right (Nat.le_add_right _ _),
      Nat.add_sub_cancel_left, List.getElem?_append_left hk] at hc
    exact List.mem_of_getElem? hc
  · intro hc
    obtain ⟨k, hk, hget⟩ := List.getElem_of_mem hc
    refine ⟨pre.length + k, List.mem_range'.mpr ⟨k, hk, by rw [Nat.one_mul]⟩, ?_⟩
    rw [List.append_assoc, List.getElem?_append_right (Nat.le_add_right _ _),
      Nat.add_sub_cancel_left, List.getElem?_append_left hk, List.getElem?_eq_getElem hk, hget]

def NodeContribution.undecoded : NodeContribution π → Option π
  | .path _ => none
  | .nonUtf8 p => some p

/-- No path that is not UTF-8 is among the entries twice. -/
theorem nodup_undecoded {g : IncludeGraph π}
    (h : ((g.weights.map Prod.snd).filter (· ≠ paths.empty)).Nodup) :
    ((indexNodeContributions paths g sccMap).1.filterMap NodeContribution.undecoded).Nodup := by
  obtain ⟨hentries, -⟩ := foldl_index [] [] (rfl : indexNodeContributions paths g sccMap = _)
  have hsublist : ∀ l : List (ℕ × π),
      ((l.flatMap (contributions paths sccMap)).filterMap NodeContribution.undecoded).Sublist
        ((l.map Prod.snd).filter (· ≠ paths.empty)) := by
    intro l
    induction l with
    | nil => exact List.Sublist.refl _
    | cons e l ih =>
      rw [List.flatMap_cons, List.filterMap_append, List.map_cons]
      by_cases hempty : e.2 = paths.empty
      · have hnone : (((sccMap.lookup e.1).getD []).map NodeContribution.path).filterMap
            (NodeContribution.undecoded (π := π)) = [] := by
          rw [List.filterMap_map]
          exact List.filterMap_eq_nil_iff.mpr fun _ _ => rfl
        rw [List.filter_cons_of_neg (by simpa using hempty), contributions, if_pos hempty, hnone]
        exact ih
      · rw [List.filter_cons_of_pos (by simpa using hempty), contributions, if_neg hempty]
        rw [contribution]
        cases paths.toStr e.2 with
        | some text => exact ih.cons _
        | none => exact ih.cons_cons _
  rw [hentries, List.nil_append]
  exact h.sublist (hsublist g.weights)

/-- Entries picked by distinct indices keep what is there once. -/
theorem nodup_filterMap_getElem {α β : Type*} {entries : List α} {f : α → Option β}
    (h : (entries.filterMap f).Nodup) {ids : List ℕ} (hids : ids.Nodup) :
    ((ids.filterMap (entries[·]?)).filterMap f).Nodup := by
  rw [List.filterMap_filterMap]
  refine List.Pairwise.filterMap _ (fun i j hij b hb b' hb' heq => hij ?_) hids
  obtain ⟨a, ha, hfa⟩ := Option.bind_eq_some_iff.mp hb
  obtain ⟨a', ha', hfa'⟩ := Option.bind_eq_some_iff.mp hb'
  obtain ⟨hi, rfl⟩ := List.getElem?_eq_some_iff.mp ha
  obtain ⟨hj, rfl⟩ := List.getElem?_eq_some_iff.mp ha'
  rw [List.Nodup, List.pairwise_filterMap, List.pairwise_iff_getElem] at h
  by_contra hne
  rcases Nat.lt_or_gt_of_ne hne with hlt | hlt
  · exact h i j hi hj hlt b hfa b' hfa' heq
  · exact h j i hj hi hlt b' hfa' b hfa heq.symm

/-- The contributions in the closure of a node. -/
def IncludeClosures.found (closures : IncludeClosures π) (start : ℕ) :
    List (NodeContribution π) :=
  (closures.closures start).filterMap (closures.entries[·]?)

variable (paths sccMap) in
/-- The pass over a graph without cycles finds, for each node, what the nodes it reaches
contribute, each path that is not UTF-8 once. -/
theorem computeIncludeClosures_spec (hlib : lib.Documented) {g : IncludeGraph π}
    (hkeys : g.nodes.Nodup) (hclosed : Closed g.nodes g.edges) (hacyclic : Acyclic g.edges)
    (hpaths : ((g.weights.map Prod.snd).filter (· ≠ paths.empty)).Nodup) :
    ∃ closures, computeIncludeClosures paths lib g sccMap = some closures ∧
      (∀ start ∈ g.nodes, ∀ c, c ∈ closures.found start ↔
        ∃ m w, Reach g.edges start m ∧ (m, w) ∈ g.weights ∧
          c ∈ contributions paths sccMap (m, w)) ∧
      ∀ start, ((closures.found start).filterMap NodeContribution.undecoded).Nodup := by
  have htopo := hlib.toposort g hkeys hclosed
  obtain ⟨order, horder⟩ : ∃ order, lib.toposort g = some order :=
    Option.ne_none_iff_exists'.mp fun hnone => htopo.cyclic hnone hacyclic
  have honward := onward_of_toposort htopo horder hkeys
  refine ⟨⟨(indexNodeContributions paths g sccMap).1,
    order.reverse.foldl (closeNode g (indexNodeContributions paths g sccMap).2) fun _ => []⟩, ?_,
    fun start hstart c => ?_, fun start => ?_⟩
  · rw [computeIncludeClosures, horder]
    rfl
  · have hgather (closures : ℕ → List ℕ) (a x : ℕ) :
        x ∈ (g.successors a).foldl (fun acc succ => mergeSortedIds acc (closures succ))
          (ownIds (indexNodeContributions paths g sccMap).2 a) ↔
        x ∈ ownIds (indexNodeContributions paths g sccMap).2 a ∨
          ∃ b, Edge g.edges a b ∧ x ∈ closures b := by
      rw [mem_foldl_mergeSortedIds]
      exact or_congr_right (exists_congr fun b => and_congr_left fun _ => mem_successors)
    have hmem {id : ℕ} := mem_closures (x := id) hgather honward
      (List.foldl_reverse) ((htopo.perm order horder).symm.subset hstart)
    rw [IncludeClosures.found, List.mem_filterMap]
    constructor
    · rintro ⟨id, hid, hc⟩
      obtain ⟨m, hreach, hown⟩ := hmem.mp hid
      obtain ⟨w, hw⟩ := exists_weight (mem_of_reach hclosed hstart hreach)
      exact ⟨m, w, hreach, hw, (mem_ownIds hkeys hw).mp ⟨id, hown, hc⟩⟩
    · rintro ⟨m, w, hreach, hw, hc⟩
      obtain ⟨id, hown, hget⟩ := (mem_ownIds hkeys hw).mpr hc
      exact ⟨id, hmem.mpr ⟨m, hreach, hown⟩, hget⟩
  · refine nodup_filterMap_getElem (nodup_undecoded hpaths) ?_
    exact (pairwise_closures _ _ (fun _ => List.Pairwise.nil) start).imp Nat.ne_of_lt

end Closures

/-! ### What the files get -/

section Recording
variable {paths : Paths π} {lib : Petgraph π}

theorem mem_foldl_gather (l : List (NodeContribution π)) (s : Gathered π) {t : String} :
    t ∈ (l.foldl (gather paths) s).1 ↔ t ∈ s.1 ∨ .path t ∈ l := by
  induction l generalizing s with
  | nil => exact (or_iff_left List.not_mem_nil).symm
  | cons c l ih =>
    rw [List.foldl_cons, ih, List.mem_cons]
    cases c with
    | path text =>
      rw [gather, List.mem_insert_iff, NodeContribution.path.injEq, or_left_comm, or_assoc,
        or_left_comm]
    | nonUtf8 path => simp [gather]

/-- What is gathered does not depend on what was said before. -/
theorem foldl_gather_fst (l : List (NodeContribution π)) (texts : List String)
    (d d' : List (PreprocDiagnostic π)) :
    (l.foldl (gather paths) (texts, d)).1 = (l.foldl (gather paths) (texts, d')).1 := by
  induction l generalizing texts d d' with
  | nil => rfl
  | cons c l ih =>
    rw [List.foldl_cons, List.foldl_cons]
    cases c with
    | path text => exact ih _ _ _
    | nonUtf8 path => exact ih _ _ _

theorem nodup_foldl_gather (l : List (NodeContribution π)) {s : Gathered π} (h : s.1.Nodup) :
    (l.foldl (gather paths) s).1.Nodup := by
  induction l generalizing s with
  | nil => exact h
  | cons c l ih =>
    refine ih ?_
    cases c with
    | path text => exact h.insert
    | nonUtf8 path => exact h

theorem foldl_gather_snd (l : List (NodeContribution π)) (s : Gathered π) :
    (l.foldl (gather paths) s).2 = s.2 ++ (l.filterMap NodeContribution.undecoded).map
      fun path => .nonUtf8IndirectInclude (paths.display path) := by
  induction l generalizing s with
  | nil => exact (List.append_nil _).symm
  | cons c l ih =>
    rw [List.foldl_cons, ih]
    cases c with
    | path text => rfl
    | nonUtf8 path => exact List.append_assoc _ _ _

variable [DecidableEq π]

/-- The files once the nodes `l` are recorded. -/
def recorded (paths : Paths π) (closures : IncludeClosures π) (l : List (π × ℕ))
    (files : Files π) : Files π :=
  files.map fun e => (l.lookup e.1).elim e fun start =>
    (e.1, { e.2 with
      indirectIncludes := (closures.materialize paths start (e.2.indirectIncludes, [])).1 })

/-- What is said when a node is recorded. -/
def nodeDiagnostics (paths : Paths π) (closures : IncludeClosures π) (keys : List π)
    (entry : π × ℕ) : List (PreprocDiagnostic π) :=
  if entry.1 ∈ keys then
    ((closures.found entry.2).filterMap NodeContribution.undecoded).map
      fun path => .nonUtf8IndirectInclude (paths.display path)
  else [.notPreprocessed entry.1]

theorem keys_setIndirect (files : Files π) (path : π) (indirect : List String) :
    (setIndirect files path indirect).map Prod.fst = files.map Prod.fst := by
  rw [setIndirect, List.map_map]
  refine List.map_congr_left fun e _ => ?_
  rw [Function.comp]
  split_ifs with heq
  · exact heq.symm
  · rfl

theorem foldlM_recordNode {g : IncludeGraph π} {sccMap : SccMap} {closures : IncludeClosures π}
    {l : List (π × ℕ)} (hl : (l.map Prod.fst).Nodup) {files : Files π}
    (hfiles : (files.map Prod.fst).Nodup) (diagnostics : List (PreprocDiagnostic π)) :
    l.foldlM (recordNode paths lib g sccMap (some closures)) (files, diagnostics) =
      some (recorded paths closures l files,
        diagnostics ++ l.flatMap (nodeDiagnostics paths closures (files.map Prod.fst))) := by
  induction l generalizing files diagnostics with
  | nil =>
    have hsame : recorded paths closures [] files = files := List.map_id _
    rw [hsame, List.flatMap_nil, List.append_nil]
    rfl
  | cons entry l ih =>
    rw [List.map_cons, List.nodup_cons] at hl
    rw [List.foldlM_cons, recordNode]
    cases hlookup : files.lookup entry.1 with
    | none =>
      refine (ih hl.2 hfiles (diagnostics ++ [.notPreprocessed entry.1])).trans ?_
      have hnot := lookup_eq_none.mp hlookup
      refine congrArg some (Prod.ext (List.map_congr_left fun e he => ?_) ?_)
      · have hne : e.1 ≠ entry.1 := fun heq => hnot (heq ▸ List.mem_map_of_mem (f := Prod.fst) he)
        rw [lookup_cons_of_ne hne]
      · rw [List.flatMap_cons, nodeDiagnostics, if_neg hnot, List.append_assoc]
    | some pf =>
      have hmem := mem_of_lookup hlookup
      have hkeys := keys_setIndirect files entry.1
        (closures.materialize paths entry.2 (pf.indirectIncludes, diagnostics)).1
      refine (ih hl.2 (hkeys.symm ▸ hfiles)
        (closures.materialize paths entry.2 (pf.indirectIncludes, diagnostics)).2).trans ?_
      refine congrArg some (Prod.ext ?_ ?_)
      · rw [recorded, setIndirect, List.map_map]
        refine List.map_congr_left fun e he => ?_
        rw [Function.comp]
        by_cases heq : e.1 = entry.1
        · have hpf : e.2 = pf := eq_of_keys_nodup hfiles he (heq ▸ hmem)
          rw [if_pos heq, lookup_eq_none.mpr hl.1, Option.elim_none, heq, List.lookup_cons_self,
            Option.elim_some, hpf]
          refine congrArg (fun indirect => (entry.1, { pf with indirectIncludes := indirect })) ?_
          exact foldl_gather_fst _ _ _ _
        · rw [if_neg heq, lookup_cons_of_ne heq]
      · have hkey : entry.1 ∈ files.map Prod.fst := List.mem_map_of_mem (f := Prod.fst) hmem
        rw [hkeys, List.flatMap_cons, nodeDiagnostics, if_pos hkey, ← List.append_assoc,
          IncludeClosures.materialize, foldl_gather_snd]
        rfl

end Recording

/-! ### In terms of paths -/

section PathTerms
variable {paths : Paths π} {lib : Petgraph π} {K : π → Prop} {R : π → π → Prop}
  {origin : Building π}

theorem Built.mem_weights (h : Built origin K R) {i : ℕ} {p : π} :
    (i, p) ∈ origin.g.weights ↔ (p, i) ∈ origin.nodes := by
  rw [h.weights, List.mem_map]
  constructor
  · rintro ⟨⟨q, j⟩, hmem, heq⟩
    cases heq
    exact hmem
  · exact fun hmem => ⟨(p, i), hmem, rfl⟩

theorem Built.exists_node (h : Built origin K R) {p : π} (hp : K p) : ∃ i, (p, i) ∈ origin.nodes := by
  obtain ⟨⟨q, i⟩, hmem, rfl⟩ := List.mem_map.mp ((h.known p).mpr hp)
  exact ⟨i, hmem⟩

/-- What a node reaches is what its path reaches. -/
theorem Built.reach_iff (h : Built origin K R) {p q : π} {i j : ℕ} (hp : (p, i) ∈ origin.nodes)
    (hq : (q, j) ∈ origin.nodes) : Reach origin.g.edges i j ↔ ReflTransGen R p q := by
  constructor
  · intro hreach
    induction hreach generalizing q with
    | refl => rw [eq_of_values_nodup h.indices hp hq]
    | tail _ hedge ih =>
      obtain ⟨r, q', hr, hq', hrq⟩ := (h.edges _ _).mp hedge
      rw [← eq_of_values_nodup h.indices hq' hq]
      exact (ih hr).tail hrq
  · intro hreach
    induction hreach generalizing j with
    | refl => rw [eq_of_keys_nodup h.keys hp hq]
    | tail _ hrq ih =>
      obtain ⟨k, hk⟩ := h.exists_node (h.ends _ _ hrq).1
      exact (ih hk).tail ((h.edges _ _).mpr ⟨_, _, hk, hq, hrq⟩)

/-- The nodes of cycles are those whose paths lead back to themselves. -/
theorem Built.mem_cycles (h : Built origin K R) (hR : ∀ p q, R p q → p ≠ q)
    (hscc : IsScc origin.g.nodes origin.g.edges (lib.kosarajuScc origin.g)) {q : π} {j : ℕ}
    (hq : (q, j) ∈ origin.nodes) : (∃ c ∈ cycles lib origin.g, j ∈ c) ↔ TransGen R q q := by
  have hnodes {r : π} {k : ℕ} (hr : (r, k) ∈ origin.nodes) : k ∈ origin.g.nodes := by
    rw [h.nodes_eq]
    exact List.mem_map_of_mem (f := Prod.snd) hr
  constructor
  · rintro ⟨c, hc, hjc⟩
    obtain ⟨hc, hlong⟩ := List.mem_filter.mp hc
    have hnodup : c.Nodup := (List.nodup_flatten.mp
      (hscc.perm.nodup_iff.mpr (h.nodes_eq ▸ h.indices))).1 c hc
    obtain ⟨k, hkc, hne⟩ : ∃ k ∈ c, k ≠ j := by
      by_contra hall
      push Not at hall
      have hle := List.Nodup.length_le_of_subset hnodup
        (fun k hk => List.mem_singleton.mpr (hall k hk) : c ⊆ [j])
      have hlong := of_decide_eq_true hlong
      rw [List.length_singleton] at hle
      omega
    have hk : k ∈ origin.g.nodes := hscc.perm.subset (List.mem_flatten.mpr ⟨c, hc, hkc⟩)
    obtain ⟨r, hr⟩ := exists_weight hk
    rw [h.mem_weights] at hr
    obtain ⟨hjk, hkj⟩ := (hscc.linked c hc j hjc k hk).mp hkc
    rw [h.reach_iff hq hr] at hjk
    rw [h.reach_iff hr hq] at hkj
    rcases Relation.reflTransGen_iff_eq_or_transGen.mp hjk with rfl | htrans
    · exact absurd (eq_of_keys_nodup h.keys hr hq) hne
    · exact htrans.trans_left hkj
  · intro hcycle
    obtain ⟨r, hfirst, hrest⟩ := TransGen.head'_iff.mp hcycle
    obtain ⟨k, hk⟩ := h.exists_node (h.ends q r hfirst).2
    obtain ⟨c, hc, hjc⟩ := List.mem_flatten.mp (hscc.perm.symm.subset (hnodes hq))
    have hkc : k ∈ c := (hscc.linked c hc j hjc k (hnodes hk)).mpr
      ⟨(h.reach_iff hq hk).mpr (.single hfirst), (h.reach_iff hk hq).mpr hrest⟩
    have hne : j ≠ k := by
      rintro rfl
      exact hR q r hfirst (eq_of_values_nodup h.indices hq hk)
    refine ⟨c, List.mem_filter.mpr ⟨hc, decide_eq_true ?_⟩, hjc⟩
    by_contra hshort
    obtain ⟨l, rfl⟩ := List.length_eq_one_iff.mp
      (Nat.le_antisymm (Nat.not_lt.mp hshort) (List.length_pos_of_mem hjc))
    exact hne ((List.mem_singleton.mp hjc).trans (List.mem_singleton.mp hkc).symm)

end PathTerms

section Contributions
variable [DecidableEq π] {paths : Paths π} {lib : Petgraph π} {K : π → Prop} {R : π → π → Prop}
  {origin s : Building π} {done : List (List ℕ)} {rep : ℕ → ℕ} {sccMap : SccMap}

/-- The node a node went to contributes its path, or those of its cycle. -/
theorem Condensed.contributions_iff (hb : Built origin K R)
    (h : Condensed paths origin done rep s sccMap) {j : ℕ} (hj : j ∈ origin.g.nodes) {w : π}
    (hw : (rep j, w) ∈ s.g.weights) {e : NodeContribution π} :
    e ∈ contributions paths sccMap (rep j, w) ↔
      (∃ c ∈ done, j ∈ c ∧ ∃ k ∈ c, ∃ p t, (k, p) ∈ origin.g.weights ∧ paths.toStr p = some t ∧
        .path t = e) ∨
      ((∀ c ∈ done, j ∉ c) ∧ ∃ p, (j, p) ∈ origin.g.weights ∧ p ≠ paths.empty ∧
        contribution paths p = e) := by
  by_cases hdone : ∀ c ∈ done, j ∉ c
  · have hfixed := h.fixed j hj hdone
    rw [hfixed] at hw ⊢
    have hnot : ∀ c ∈ done, ∀ i ∈ c, rep i ≠ j := fun c hc i hi heq => by
      rcases h.apart i (h.subset c hc i hi) j hj (heq.trans hfixed.symm) with rfl | ⟨d, hd, -, hjd⟩
      · exact hdone c hc hi
      · exact hdone d hd hjd
    have horigin : (j, w) ∈ origin.g.weights := by
      rcases (h.weights j w).mp hw with ⟨hw, -⟩ | ⟨-, c, hc, i, hi, heq⟩
      · exact hw
      · exact absurd heq (hnot c hc i hi)
    have hunique {p : π} (hp : (j, p) ∈ origin.g.weights) : p = w :=
      eq_of_values_nodup hb.indices (hb.mem_weights.mp hp) (hb.mem_weights.mp horigin)
    rw [or_iff_right fun ⟨c, hc, hjc, _⟩ => hdone c hc hjc, and_iff_right hdone, contributions]
    split_ifs with hempty
    · have hnone : sccMap.lookup j = none := lookup_eq_none.mpr fun hmem => by
        obtain ⟨entry, hentry, hkey⟩ := List.mem_map.mp hmem
        obtain ⟨c, hc, i, hi, heq⟩ := h.replacements entry hentry
        exact hnot c hc i hi (heq.trans hkey)
      rw [hnone]
      refine iff_of_false List.not_mem_nil ?_
      rintro ⟨p, hp, hne, -⟩
      exact hne ((hunique hp).trans hempty)
    · rw [List.mem_singleton]
      constructor
      · rintro rfl
        exact ⟨w, horigin, hempty, rfl⟩
      · rintro ⟨p, hp, -, rfl⟩
        rw [hunique hp]
  · push Not at hdone
    obtain ⟨c, hc, hjc⟩ := hdone
    obtain ⟨texts, hmem, htexts⟩ := h.members c hc j hjc
    have hempty : w = paths.empty := by
      rcases (h.weights (rep j) w).mp hw with ⟨hw', hout⟩ | ⟨hempty, -⟩
      · have hrep : rep j ∈ origin.g.nodes := mem_nodes_of_weight hw'
        rcases h.apart (rep j) hrep j hj (h.fixed _ hrep hout) with heq | ⟨d, hd, hrd, -⟩
        · rw [← heq] at hjc
          exact absurd hjc (hout c hc)
        · exact absurd hrd (hout d hd)
      · exact hempty
    have hsame : ∀ d ∈ done, j ∈ d → ∀ t, (∃ k ∈ d, ∃ p, (k, p) ∈ origin.g.weights ∧
        paths.toStr p = some t) ↔ t ∈ texts := by
      intro d hd hjd t
      obtain ⟨texts', hmem', htexts'⟩ := h.members d hd j hjd
      rw [← htexts' t, eq_of_keys_nodup h.sccKeys hmem' hmem]
    rw [contributions, if_pos hempty, lookup_eq_some h.sccKeys hmem, Option.getD_some,
      List.mem_map]
    constructor
    · rintro ⟨t, ht, rfl⟩
      obtain ⟨k, hk, p, hp, htext⟩ := (hsame c hc hjc t).mpr ht
      exact .inl ⟨c, hc, hjc, k, hk, p, t, hp, htext, rfl⟩
    · rintro (⟨d, hd, hjd, k, hk, p, t, hp, htext, rfl⟩ | ⟨hnot, -⟩)
      · exact ⟨t, (hsame d hd hjd t).mp ⟨k, hk, p, hp, htext⟩, rfl⟩
      · exact absurd hjc (hnot c hc)

/-- Only the path of a replacement can be there twice. -/
theorem Condensed.nodup_paths (hb : Built origin K R)
    (h : Condensed paths origin done rep s sccMap) :
    ((s.g.weights.map Prod.snd).filter (· ≠ paths.empty)).Nodup := by
  have horigin {e : ℕ × π} (he : e ∈ s.g.weights) (hne : e.2 ≠ paths.empty) :
      (e.2, e.1) ∈ origin.nodes := by
    rcases (h.weights e.1 e.2).mp he with ⟨hw, -⟩ | ⟨hempty, -⟩
    · exact hb.mem_weights.mp hw
    · exact absurd hempty hne
  rw [List.filter_map]
  refine List.Nodup.map_on (fun e he e' he' heq => ?_) (h.keys.of_map.filter _)
  obtain ⟨he, hne⟩ := List.mem_filter.mp he
  obtain ⟨he', hne'⟩ := List.mem_filter.mp he'
  have hmem := horigin he (by simpa using hne)
  have hmem' := horigin he' (by simpa using hne')
  rw [← heq] at hmem'
  exact Prod.ext (eq_of_keys_nodup hb.keys hmem hmem') heq

end Contributions

/-! ### Everything -/

section Fix
variable [LinearOrder π] {paths : Paths π} {lib : Petgraph π}
  {guessFile : π → String → List π} {hashOrder : List (π × ℕ) → List (π × ℕ)}

abbrev Reaches (guessFile : π → String → List π) (files : Files π) : π → π → Prop :=
  ReflTransGen (Includes guessFile files)

/-- The texts a file gets: of the paths it reaches, the empty one only as the member of a cycle. -/
def Gets (paths : Paths π) (guessFile : π → String → List π) (files : Files π) (p : π)
    (t : String) : Prop :=
  ∃ q, Reaches guessFile files p q ∧ paths.toStr q = some t ∧
    (q = paths.empty → TransGen (Includes guessFile files) q q)

/-- The paths a file reaches and does not get, for they are not UTF-8. Those in cycles are not
among them, they are spoken of once. -/
def Misses (paths : Paths π) (guessFile : π → String → List π) (files : Files π) (p q : π) : Prop :=
  Reaches guessFile files p q ∧ paths.toStr q = none ∧ q ≠ paths.empty ∧
    ¬ TransGen (Includes guessFile files) q q

/-- What a path adds to the closure of one that reaches it. -/
def Contributes (paths : Paths π) (guessFile : π → String → List π) (files : Files π) (q : π)
    (e : NodeContribution π) : Prop :=
  (TransGen (Includes guessFile files) q q ∧ ∃ t, paths.toStr q = some t ∧ .path t = e) ∨
    (¬ TransGen (Includes guessFile files) q q ∧ q ≠ paths.empty ∧ contribution paths q = e)

theorem gets_iff {files : Files π} {p : π} {t : String} :
    (∃ q, Reaches guessFile files p q ∧ Contributes paths guessFile files q (.path t)) ↔
      Gets paths guessFile files p t := by
  refine exists_congr fun q => and_congr_right fun _ => ?_
  constructor
  · rintro (⟨hcycle, t', htext, heq⟩ | ⟨-, hne, heq⟩)
    · cases heq
      exact ⟨htext, fun _ => hcycle⟩
    · rw [contribution] at heq
      cases htext : paths.toStr q with
      | none => rw [htext] at heq; cases heq
      | some text =>
        rw [htext] at heq
        cases heq
        exact ⟨rfl, fun hempty => absurd hempty hne⟩
  · rintro ⟨htext, hempty⟩
    by_cases hcycle : TransGen (Includes guessFile files) q q
    · exact .inl ⟨hcycle, t, htext, rfl⟩
    · exact .inr ⟨hcycle, mt hempty hcycle, by rw [contribution, htext, Option.elim_some]⟩

theorem misses_iff {files : Files π} {p q : π} :
    (∃ r, Reaches guessFile files p r ∧ Contributes paths guessFile files r (.nonUtf8 q)) ↔
      Misses paths guessFile files p q := by
  constructor
  · rintro ⟨r, hreach, ⟨-, t, -, heq⟩ | ⟨hcycle, hne, heq⟩⟩
    · cases heq
    · rw [contribution] at heq
      cases htext : paths.toStr r with
      | none =>
        rw [htext] at heq
        cases heq
        exact ⟨hreach, htext, hne, hcycle⟩
      | some text => rw [htext] at heq; cases heq
  · rintro ⟨hreach, htext, hne, hcycle⟩
    exact ⟨q, hreach, .inr ⟨hcycle, hne, by rw [contribution, htext, Option.elim_none]⟩⟩

theorem includes_ne {files : Files π} (p q : π) (h : Includes guessFile files p q) : p ≠ q := by
  obtain ⟨-, -, -, -, -, hne⟩ := h
  exact hne.symm

section Collapsed
variable {files : Files π} {origin s : Building π} {rep : ℕ → ℕ} {sccMap : SccMap}
  (hb : Built origin (Known guessFile files) (Includes guessFile files))
  (hscc : IsScc origin.g.nodes origin.g.edges (lib.kosarajuScc origin.g))

include hb hscc in
/-- What the nodes reached from the one of a file contribute is what the paths the file reaches
add. -/
theorem contributed_iff (h : Condensed paths origin (cycles lib origin.g) rep s sccMap) {p : π}
    {i : ℕ} (hp : (p, i) ∈ origin.nodes) {e : NodeContribution π} :
    (∃ m w, Reach s.g.edges (rep i) m ∧ (m, w) ∈ s.g.weights ∧
      e ∈ contributions paths sccMap (m, w)) ↔
      ∃ q, Reaches guessFile files p q ∧ Contributes paths guessFile files q e := by
  have hi : i ∈ origin.g.nodes := mem_nodes_of_weight (hb.mem_weights.mpr hp)
  have hcycle {q : π} {j : ℕ} (hq : (q, j) ∈ origin.nodes) :=
    hb.mem_cycles includes_ne hscc hq
  constructor
  · rintro ⟨m, w, hreach, hw, he⟩
    obtain ⟨j, hj, rfl⟩ : ∃ j ∈ origin.g.nodes, rep j = m := by
      rcases (h.weights m w).mp hw with ⟨hw, hout⟩ | ⟨-, c, hc, j, hj, heq⟩
      · exact ⟨m, mem_nodes_of_weight hw, h.fixed m (mem_nodes_of_weight hw) hout⟩
      · exact ⟨j, h.subset c hc j hj, heq⟩
    have hij := (h.reach_iff hscc hb.closed hi hj).mp hreach
    rcases (h.contributions_iff hb hj hw).mp he with
      ⟨c, hcycles, hjc, k, hkc, q, t, hq, htext, heq⟩ | ⟨hout, q, hq, hne, heq⟩
    · rw [hb.mem_weights] at hq
      have hjk := ((hscc.linked c (List.mem_of_mem_filter hcycles) j hjc k
        (h.subset c hcycles k hkc)).mp hkc).1
      exact ⟨q, (hb.reach_iff hp hq).mp (hij.trans hjk),
        .inl ⟨(hcycle hq).mp ⟨c, hcycles, hkc⟩, t, htext, heq⟩⟩
    · rw [hb.mem_weights] at hq
      refine ⟨q, (hb.reach_iff hp hq).mp hij, .inr ⟨fun hloop => ?_, hne, heq⟩⟩
      obtain ⟨c, hc, hjc⟩ := (hcycle hq).mpr hloop
      exact hout c hc hjc
  · rintro ⟨q, hreach, hadds⟩
    have hknown : Known guessFile files q := by
      rcases ReflTransGen.cases_tail hreach with rfl | ⟨r, -, hrq⟩
      · exact (hb.known _).mp (List.mem_map_of_mem (f := Prod.fst) hp)
      · exact .inr ⟨r, hrq⟩
    obtain ⟨j, hq⟩ := hb.exists_node hknown
    have hj : j ∈ origin.g.nodes := mem_nodes_of_weight (hb.mem_weights.mpr hq)
    obtain ⟨w, hw⟩ := exists_weight (h.rep_mem hj)
    refine ⟨rep j, w, (h.reach_iff hscc hb.closed hi hj).mpr ((hb.reach_iff hp hq).mpr hreach), hw,
      (h.contributions_iff hb hj hw).mpr ?_⟩
    rcases hadds with ⟨hloop, t, htext, heq⟩ | ⟨hloop, hne, heq⟩
    · obtain ⟨c, hc, hjc⟩ := (hcycle hq).mpr hloop
      exact .inl ⟨c, hc, hjc, j, hjc, q, t, hb.mem_weights.mpr hq, htext, heq⟩
    · exact .inr ⟨fun c hc hjc => hloop ((hcycle hq).mp ⟨c, hc, hjc⟩), q, hb.mem_weights.mpr hq,
        hne, heq⟩

include hb hscc in
/-- The collapsed components are the classes of paths that reach one another, of those in cycles. -/
theorem classes_cycles : IsClasses (fun q => TransGen (Includes guessFile files) q q)
    (fun q r => Reaches guessFile files q r ∧ Reaches guessFile files r q)
    ((cycles lib origin.g).map fun c => c.filterMap origin.g.nodeWeight) := by
  have hkeys : origin.g.nodes.Nodup := hb.nodes_eq ▸ hb.indices
  have hsubset {c : List ℕ} (hc : c ∈ cycles lib origin.g) {i : ℕ} (hi : i ∈ c) :
      i ∈ origin.g.nodes :=
    hscc.perm.subset (List.mem_flatten.mpr ⟨c, List.mem_of_mem_filter hc, hi⟩)
  have hweight {i : ℕ} {q : π} : origin.g.nodeWeight i = some q ↔ (q, i) ∈ origin.nodes := by
    rw [← hb.mem_weights]
    exact ⟨mem_of_lookup, lookup_eq_some hkeys⟩
  have hflatten : ((cycles lib origin.g).map fun c => c.filterMap origin.g.nodeWeight).flatten =
      (cycles lib origin.g).flatten.filterMap origin.g.nodeWeight :=
    (List.filterMap_flatten ..).symm
  refine ⟨?_, ?_, fun q => ?_, ?_⟩
  · rw [hflatten]
    refine List.Nodup.filterMap (fun i j q hi hj => ?_) ?_
    · exact eq_of_keys_nodup hb.keys (hweight.mp hi) (hweight.mp hj)
    · obtain ⟨hnodup, hdisjoint⟩ := List.nodup_flatten.mp (hscc.perm.nodup_iff.mpr hkeys)
      exact List.nodup_flatten.mpr ⟨fun c hc => hnodup c (List.mem_of_mem_filter hc),
        hdisjoint.sublist List.filter_sublist⟩
  · rw [List.forall_mem_map]
    intro c hc
    obtain ⟨i, hi⟩ := List.exists_mem_of_length_pos
      (Nat.zero_lt_of_lt (of_decide_eq_true (List.mem_filter.mp hc).2))
    obtain ⟨q, hq⟩ := exists_weight (hsubset hc hi)
    exact List.ne_nil_of_mem
      (List.mem_filterMap.mpr ⟨i, hi, hweight.mpr (hb.mem_weights.mp hq)⟩)
  · rw [hflatten, List.mem_filterMap]
    constructor
    · rintro ⟨i, hi, hq⟩
      obtain ⟨c, hc, hic⟩ := List.mem_flatten.mp hi
      exact (hb.mem_cycles includes_ne hscc (hweight.mp hq)).mp ⟨c, hc, hic⟩
    · intro hloop
      obtain ⟨r, hfirst, -⟩ := TransGen.head'_iff.mp hloop
      obtain ⟨i, hi⟩ := hb.exists_node (hb.ends q r hfirst).1
      obtain ⟨c, hc, hic⟩ := (hb.mem_cycles includes_ne hscc hi).mpr hloop
      exact ⟨i, List.mem_flatten.mpr ⟨c, hc, hic⟩, hweight.mpr hi⟩
  · rw [List.forall_mem_map]
    intro c hc q hq r
    obtain ⟨i, hi, hq⟩ := List.mem_filterMap.mp hq
    rw [hweight] at hq
    have hlinked {j : ℕ} (hr : (r, j) ∈ origin.nodes) :
        j ∈ c ↔ Reaches guessFile files q r ∧ Reaches guessFile files r q :=
      (hscc.linked c (List.mem_of_mem_filter hc) i hi j
        (mem_nodes_of_weight (hb.mem_weights.mpr hr))).trans
          (and_congr (hb.reach_iff hq hr) (hb.reach_iff hr hq))
    constructor
    · intro hr
      obtain ⟨j, hj, hr⟩ := List.mem_filterMap.mp hr
      exact (hlinked (hweight.mp hr)).mp hj
    · intro hreach
      have hknown : Known guessFile files r := by
        rcases ReflTransGen.cases_tail hreach.1 with rfl | ⟨q', -, hlast⟩
        · exact (hb.known _).mp (List.mem_map_of_mem (f := Prod.fst) hq)
        · exact .inr ⟨q', hlast⟩
      obtain ⟨j, hr⟩ := hb.exists_node hknown
      exact List.mem_filterMap.mpr ⟨j, (hlinked hr).mpr hreach, hweight.mpr hr⟩

end Collapsed

/-- A file before and after: its own includes and macros stay, and it gets what it reaches. -/
structure Fixed (paths : Paths π) (guessFile : π → String → List π) (files : Files π)
    (before after : π × PreprocFile) : Prop where
  path : after.1 = before.1
  direct : after.2.directIncludes = before.2.directIncludes
  macros : after.2.macros = before.2.macros
  indirect : ∀ t, t ∈ after.2.indirectIncludes ↔
    t ∈ before.2.indirectIncludes ∨ Gets paths guessFile files before.1 t
  nodup : before.2.indirectIncludes.Nodup → after.2.indirectIncludes.Nodup

/-- What a run leaves: the files, the cycles it found, all paths of the graph, and those each of
them misses. -/
structure Outcome (paths : Paths π) (guessFile : π → String → List π) (files : Files π) where
  fixed : Files π
  cycles : List (List π)
  known : List π
  missed : π → List π
  forall₂_fixed : List.Forall₂ (Fixed paths guessFile files) files fixed
  classes : IsClasses (fun q => TransGen (Includes guessFile files) q q)
    (fun q r => Reaches guessFile files q r ∧ Reaches guessFile files r q) cycles
  nodup_known : known.Nodup
  mem_known : ∀ p, p ∈ known ↔ Known guessFile files p
  nodup_missed : ∀ p ∈ known, (missed p).Nodup
  mem_missed : ∀ p ∈ known, ∀ q, q ∈ missed p ↔ Misses paths guessFile files p q

/-- What is said of a path of the graph. -/
def pathDiagnostics (paths : Paths π) (files : Files π) (missed : π → List π) (p : π) :
    List (PreprocDiagnostic π) :=
  if p ∈ files.map Prod.fst then
    (missed p).map fun q => .nonUtf8IndirectInclude (paths.display q)
  else [.notPreprocessed p]

def Outcome.diagnostics {files : Files π} (o : Outcome paths guessFile files) :
    List (PreprocDiagnostic π) :=
  files.flatMap (selfInclusions guessFile) ++ o.cycles.flatMap (cycleDiagnostics paths) ++
    o.known.flatMap (pathDiagnostics paths files o.missed)

variable (paths guessFile) in
/-- Whatever the maps and the library do, a run ends without a panic and with such an outcome. -/
theorem fixIncludes_outcome (hlib : lib.Documented) (horder : ∀ l, (hashOrder l).Perm l)
    {files : Files π} (hfiles : (files.map Prod.fst).Nodup) :
    ∃ o : Outcome paths guessFile files, fixIncludes paths lib guessFile hashOrder files =
      some (o.fixed, o.diagnostics.insertionSort fun a b => a.key ≤ b.key) := by
  have hb : Built (buildIncludeGraph lib guessFile files) (Known guessFile files)
      (Includes guessFile files) := buildIncludeGraph_built hlib files
  obtain ⟨rep, s, sccMap, hcollapse, h⟩ :=
    collapseScc_condensed paths hb includes_ne hlib
  have hscc := hlib.scc _ (hb.nodes_eq ▸ hb.indices) hb.closed
  have hclosed : Closed s.g.nodes s.g.edges := by
    rintro ⟨x, y⟩ hedge
    obtain ⟨-, i, j, hij, rfl, rfl⟩ := h.lift x y hedge
    obtain ⟨hi, hj⟩ := hb.closed (i, j) hij
    exact ⟨h.rep_mem hi, h.rep_mem hj⟩
  obtain ⟨closures, hclosures, hspec, honce⟩ := computeIncludeClosures_spec paths sccMap
    hlib h.keys hclosed (h.acyclic hscc hb.closed) (h.nodup_paths hb)
  have hperm := horder s.nodes
  have hnodes : s.nodes.map Prod.fst =
      (buildIncludeGraph lib guessFile files).nodes.map Prod.fst := by
    rw [h.nodes, List.map_map]
    rfl
  have hnodup : ((hashOrder s.nodes).map Prod.fst).Nodup :=
    (hperm.map Prod.fst).nodup_iff.mpr (hnodes ▸ hb.keys)
  -- Where the path of the node `i` is found among the nodes.
  have hstart {p : π} {i : ℕ} (hi : (p, i) ∈ (buildIncludeGraph lib guessFile files).nodes) :
      (hashOrder s.nodes).lookup p = some (rep i) := by
    refine lookup_eq_some hnodup (hperm.symm.subset ?_)
    rw [h.nodes]
    exact List.mem_map.mpr ⟨(p, i), hi, rfl⟩
  have hfound {p : π} {i : ℕ} (hi : (p, i) ∈ (buildIncludeGraph lib guessFile files).nodes)
      {e : NodeContribution π} : e ∈ closures.found (rep i) ↔
        ∃ q, Reaches guessFile files p q ∧ Contributes paths guessFile files q e := by
    rw [hspec _ (h.rep_mem (mem_nodes_of_weight (hb.mem_weights.mpr hi))),
      contributed_iff hb hscc h hi]
  have hknown (p : π) : p ∈ (hashOrder s.nodes).map Prod.fst ↔ Known guessFile files p := by
    rw [(hperm.map Prod.fst).mem_iff, hnodes, hb.known]
  refine ⟨⟨recorded paths closures (hashOrder s.nodes) files,
    (cycles lib (buildIncludeGraph lib guessFile files).g).map fun c =>
      c.filterMap (buildIncludeGraph lib guessFile files).g.nodeWeight,
    (hashOrder s.nodes).map Prod.fst,
    fun p => (closures.found (((hashOrder s.nodes).lookup p).getD 0)).filterMap
      NodeContribution.undecoded, ?_, classes_cycles hb hscc, hnodup, hknown,
    fun p _ => honce _, fun p hp q => ?_⟩, ?_⟩
  · rw [recorded, List.forall₂_map_right_iff, List.forall₂_same]
    intro e he
    obtain ⟨i, hi⟩ := hb.exists_node (.inl (List.mem_map_of_mem (f := Prod.fst) he))
    rw [hstart hi, Option.elim_some]
    refine ⟨rfl, rfl, rfl, fun t => ?_, fun hset => nodup_foldl_gather _ hset⟩
    rw [← gets_iff, ← hfound hi]
    exact mem_foldl_gather _ _
  · obtain ⟨i, hi⟩ := hb.exists_node ((hknown p).mp hp)
    rw [hstart hi, Option.getD_some, ← misses_iff, ← hfound hi, List.mem_filterMap]
    constructor
    · rintro ⟨e, he, hq⟩
      cases e with
      | path t => cases hq
      | nonUtf8 r =>
        cases hq
        exact he
    · exact fun he => ⟨_, he, rfl⟩
  · rw [fixIncludes, hcollapse, Option.bind_eq_bind, Option.bind_some]
    dsimp only
    rw [recordIndirectIncludes, hclosures, foldlM_recordNode hnodup hfiles, Option.bind_eq_bind,
      Option.bind_some, Outcome.diagnostics, h.diagnostics, diagnostics_buildIncludeGraph]
    refine congrArg (fun said : List (PreprocDiagnostic π) =>
      some (_, said.insertionSort fun a b => a.key ≤ b.key)) ?_
    rw [List.flatMap_map, List.flatMap_map]
    refine congrArg _ (List.flatMap_congr fun entry hentry => ?_)
    rw [nodeDiagnostics, pathDiagnostics]
    dsimp only
    rw [lookup_eq_some hnodup hentry, Option.getD_some]

/-- Whatever cycles the includes make and in whatever order the maps are walked, each file gets
the paths it reaches by its includes as they are, and no invariant of the graph panics. -/
theorem fixIncludes_exact (hlib : lib.Documented) (horder : ∀ l, (hashOrder l).Perm l)
    {files : Files π} (hfiles : (files.map Prod.fst).Nodup) :
    ∃ files' diagnostics, fixIncludes paths lib guessFile hashOrder files =
        some (files', diagnostics) ∧ List.Forall₂ (Fixed paths guessFile files) files files' := by
  obtain ⟨o, ho⟩ := fixIncludes_outcome paths guessFile hlib horder hfiles
  exact ⟨o.fixed, _, ho, o.forall₂_fixed⟩

theorem fixIncludes_exact_ring : ∃ files' diagnostics,
    fixIncludes textPaths (Petgraph.computed String) (fun _ path => [path]) List.reverse ringFiles =
        some (files', diagnostics) ∧
      List.Forall₂ (Fixed textPaths (fun _ path => [path]) ringFiles) ringFiles files' :=
  fixIncludes_exact Petgraph.computed_documented List.reverse_perm (by decide)

end Fix

end BigCodeAnalysis.Preproc
