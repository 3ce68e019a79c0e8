import BigCodeAnalysis.Preproc.IncludeGraph

/-! The cycles of the include graph become one node each. What is reachable stays, and no cycle is
left. -/

namespace BigCodeAnalysis.Preproc

open Graphs

variable {π : Type*}

/-! ### Cycles become nodes -/

section Cycles
variable {paths : Paths π} {lib : Petgraph π}

theorem mem_sccExternalNeighbors {neighbors : ℕ → List ℕ} {component : List ℕ} {n : ℕ} :
    n ∈ sccExternalNeighbors neighbors component ↔
      n ∉ component ∧ ∃ c ∈ component, n ∈ neighbors c := by
  have hfold : ∀ l found : List ℕ,
      n ∈ l.foldl (fun found n => if n ∈ component ∨ n ∈ found then found else found ++ [n])
        found ↔ n ∈ found ∨ (n ∉ component ∧ n ∈ l) := by
    intro l
    induction l with
    | nil => exact fun found => (or_iff_left fun h => List.not_mem_nil h.2).symm
    | cons m l ih =>
      intro found
      rw [List.foldl_cons, ih, List.mem_cons]
      split_ifs with hskip
      · constructor
        · exact Or.imp_right fun h => ⟨h.1, .inr h.2⟩
        · rintro (h | ⟨hout, rfl | h⟩)
          · exact .inl h
          · exact .inl (hskip.resolve_left hout)
          · exact .inr ⟨hout, h⟩
      · rw [List.mem_append, List.mem_singleton]
        constructor
        · rintro ((h | rfl) | h)
          · exact .inl h
          · exact .inr ⟨fun hmem => hskip (.inl hmem), .inl rfl⟩
          · exact .inr ⟨h.1, .inr h.2⟩
        · rintro (h | ⟨hout, h | h⟩)
          · exact .inl (.inl h)
          · exact .inl (.inr h)
          · exact .inr ⟨hout, h⟩
  rw [sccExternalNeighbors, hfold, List.mem_flatMap]
  exact or_iff_right List.not_mem_nil

theorem mem_successors {g : IncludeGraph π} {a b : ℕ} :
    b ∈ g.successors a ↔ (a, b) ∈ g.edges := by
  rw [IncludeGraph.successors, List.mem_filterMap]
  constructor
  · rintro ⟨⟨x, y⟩, hmem, h⟩
    dsimp only at h
    split_ifs at h with hx
    cases h
    exact hx ▸ hmem
  · exact fun h => ⟨(a, b), h, if_pos rfl⟩

theorem mem_predecessors {g : IncludeGraph π} {a b : ℕ} :
    a ∈ g.predecessors b ↔ (a, b) ∈ g.edges := by
  rw [IncludeGraph.predecessors, List.mem_filterMap]
  constructor
  · rintro ⟨⟨x, y⟩, hmem, h⟩
    dsimp only at h
    split_ifs at h with hy
    cases h
    exact hy ▸ hmem
  · exact fun h => ⟨(a, b), h, if_pos rfl⟩

/-- The graph without some nodes. -/
def IncludeGraph.withoutAll (g : IncludeGraph π) (component : List ℕ) : IncludeGraph π where
  weights := g.weights.filter fun entry => entry.1 ∉ component
  edges := g.edges.filter fun edge => edge.1 ∉ component ∧ edge.2 ∉ component

theorem nodeWeight_without {g : IncludeGraph π} {c d : ℕ} (h : d ≠ c) :
    (g.without c).nodeWeight d = g.nodeWeight d := by
  have hfilter : ∀ l : List (ℕ × π),
      (l.filter fun entry => entry.1 ≠ c).lookup d = l.lookup d := by
    intro l
    induction l with
    | nil => rfl
    | cons e l ih =>
      by_cases hc : e.1 = c
      · rw [List.filter_cons_of_neg (by simpa using hc), ih, lookup_cons_of_ne (hc ▸ h)]
      · rw [List.filter_cons_of_pos (by simpa using hc), List.lookup_cons, List.lookup_cons, ih]
  exact hfilter g.weights

theorem withoutAll_without (g : IncludeGraph π) (c : ℕ) (component : List ℕ) :
    (g.without c).withoutAll component = g.withoutAll (c :: component) := by
  simp only [IncludeGraph.withoutAll, IncludeGraph.without, List.filter_filter, List.mem_cons,
    not_or, IncludeGraph.mk.injEq]
  refine ⟨List.filter_congr fun e _ => ?_, List.filter_congr fun e _ => ?_⟩
  · rw [← Bool.decide_and, decide_eq_decide]
    exact and_comm
  · rw [← Bool.decide_and, decide_eq_decide]
    tauto

variable [DecidableEq π]

/-- The paths of some nodes, now with the replacement as their node. -/
def retarget (g : IncludeGraph π) (component : List ℕ) (replacement : ℕ)
    (nodes : List (π × ℕ)) : List (π × ℕ) :=
  nodes.map fun entry =>
    if entry.1 ∈ component.filterMap g.nodeWeight then (entry.1, replacement) else entry

theorem retireMember_eq {g : IncludeGraph π} {nodes : List (π × ℕ)} {c replacement : ℕ} {path : π}
    (hlookup : g.nodeWeight c = some path) (hpath : path ∈ nodes.map Prod.fst)
    (diagnostics : List (PreprocDiagnostic π)) (members : List String) :
    retireMember paths replacement (⟨g, nodes, diagnostics⟩, members) c =
      some (⟨g.without c, nodes.map fun e => if e.1 = path then (path, replacement) else e,
        match paths.toStr path with
        | some _ => diagnostics
        | none => diagnostics ++ [.nonUtf8CyclePath (paths.display path)]⟩,
        match paths.toStr path with
        | some text => members.insert text
        | none => members) := by
  have hremove : g.removeNode c = some (path, g.without c) := by
    rw [IncludeGraph.removeNode, hlookup]
    rfl
  have hset : setNode nodes path replacement =
      some (nodes.map fun e => if e.1 = path then (path, replacement) else e) := if_pos hpath
  simp only [retireMember, hremove, hset, Option.bind_eq_bind, Option.bind_some]
  cases paths.toStr path <;> rfl

/-- What is said of a path in a cycle that is not UTF-8. -/
def undecoded (paths : Paths π) (path : π) : Option (PreprocDiagnostic π) :=
  match paths.toStr path with
  | some _ => none
  | none => some (.nonUtf8CyclePath (paths.display path))

variable (paths) in
/-- The members of a cycle go, one after the other, without a panic. -/
theorem foldlM_retireMember {g : IncludeGraph π} {nodes : List (π × ℕ)} {component : List ℕ}
    (replacement : ℕ) (hnodup : component.Nodup)
    (hmem : ∀ c ∈ component, ∃ path, g.nodeWeight c = some path ∧
      path ∈ nodes.map Prod.fst) (diagnostics : List (PreprocDiagnostic π))
    (members : List String) :
    ∃ members', component.foldlM (retireMember paths replacement)
          (⟨g, nodes, diagnostics⟩, members) =
        some (⟨g.withoutAll component, retarget g component replacement nodes,
          diagnostics ++ (component.filterMap g.nodeWeight).filterMap (undecoded paths)⟩,
          members') ∧
      (members.Nodup → members'.Nodup) ∧ ∀ t, t ∈ members' ↔ t ∈ members ∨
        ∃ c ∈ component, ∃ path, g.nodeWeight c = some path ∧ paths.toStr path = some t := by
  induction component generalizing g nodes diagnostics members with
  | nil =>
    refine ⟨members, ?_, id, fun t => ?_⟩
    · have hweights : g.withoutAll [] = g := by
        simp [IncludeGraph.withoutAll]
      have hnodes : retarget g [] replacement nodes = nodes := by
        simp [retarget]
      rw [hweights, hnodes, List.filterMap_nil, List.filterMap_nil, List.append_nil]
      rfl
    · exact (or_iff_left fun ⟨_, hc, _⟩ => List.not_mem_nil hc).symm
  | cons c component ih =>
    obtain ⟨path, hlookup, hpath⟩ := hmem c List.mem_cons_self
    obtain ⟨hc, hnodup'⟩ := List.nodup_cons.mp hnodup
    have hne : ∀ d ∈ component, d ≠ c := fun d hd heq => hc (heq ▸ hd)
    have hkeys : (nodes.map fun e => if e.1 = path then (path, replacement) else e).map Prod.fst =
        nodes.map Prod.fst := by
      rw [List.map_map]
      refine List.map_congr_left fun e _ => ?_
      rw [Function.comp]
      split_ifs with heq
      · exact heq.symm
      · rfl
    have hmem' : ∀ d ∈ component, ∃ p, (g.without c).nodeWeight d = some p ∧
        p ∈ (nodes.map fun e => if e.1 = path then (path, replacement) else e).map Prod.fst := by
      intro d hd
      rw [hkeys, nodeWeight_without (hne d hd)]
      exact hmem d (List.mem_cons_of_mem _ hd)
    have hpaths : component.filterMap (g.without c).nodeWeight =
        component.filterMap g.nodeWeight :=
      List.filterMap_congr fun d hd => nodeWeight_without (hne d hd)
    have hretarget : retarget (g.without c) component replacement
        (nodes.map fun e => if e.1 = path then (path, replacement) else e) =
        retarget g (c :: component) replacement nodes := by
      rw [retarget, retarget, List.map_map, hpaths, List.filterMap_cons, hlookup]
      refine List.map_congr_left fun e _ => ?_
      rw [Function.comp]
      by_cases heq : e.1 = path
      · simp [heq]
      · simp [heq]
    obtain ⟨members', hfold, hnodups, hmembers⟩ := ih hnodup' hmem'
      (match paths.toStr path with
        | some _ => diagnostics
        | none => diagnostics ++ [.nonUtf8CyclePath (paths.display path)])
      (match paths.toStr path with
        | some text => members.insert text
        | none => members)
    refine ⟨members', ?_, fun hmembers => hnodups ?_, fun t => ?_⟩
    · rw [hretarget, withoutAll_without, hpaths] at hfold
      rw [List.foldlM_cons, retireMember_eq hlookup hpath, Option.bind_eq_bind, Option.bind_some,
        hfold, List.filterMap_cons, hlookup, List.filterMap_cons, undecoded]
      cases htext : paths.toStr path with
      | some text => rfl
      | none => rw [List.append_assoc, List.singleton_append]
    · cases paths.toStr path with
      | some text => exact hmembers.insert
      | none => exact hmembers
    · have hrest : (∃ d ∈ component, ∃ p, (g.without c).nodeWeight d = some p ∧
          paths.toStr p = some t) ↔ ∃ d ∈ component, ∃ p, g.nodeWeight d = some p ∧
          paths.toStr p = some t := by
        refine exists_congr fun d => and_congr_right fun hd => ?_
        rw [nodeWeight_without (hne d hd)]
      rw [hmembers, hrest, List.exists_mem_cons_iff, ← or_assoc]
      refine or_congr_left ?_
      rw [hlookup]
      simp only [Option.some_inj, exists_eq_left']
      cases htext : paths.toStr path with
      | none => simp
      | some text => simp [or_comm, eq_comm]

end Cycles

section Condensation
variable {paths : Paths π} {lib : Petgraph π} {K : π → Prop} {R : π → π → Prop}
  {origin s : Building π} {done : List (List ℕ)} {rep : ℕ → ℕ} {sccMap : SccMap}

/-- What is said of a cycle. -/
def cycleDiagnostics (paths : Paths π) (cycle : List π) : List (PreprocDiagnostic π) :=
  cycle.filterMap (undecoded paths) ++
    [.includeCycle ((cycle.filterMap paths.toStr).dedup.insertionSort (· ≤ ·))]

/-- The graph once the components `done` are one node each; `rep` says where a node went. -/
structure Condensed (paths : Paths π) (origin : Building π) (done : List (List ℕ))
    (rep : ℕ → ℕ) (s : Building π) (sccMap : SccMap) : Prop where
  subset : ∀ c ∈ done, ∀ i ∈ c, i ∈ origin.g.nodes
  nodes : s.nodes = origin.nodes.map fun entry => (entry.1, rep entry.2)
  keys : s.g.nodes.Nodup
  weights : ∀ x w, (x, w) ∈ s.g.weights ↔
    ((x, w) ∈ origin.g.weights ∧ ∀ c ∈ done, x ∉ c) ∨
      (w = paths.empty ∧ ∃ c ∈ done, ∃ i ∈ c, rep i = x)
  fixed : ∀ i ∈ origin.g.nodes, (∀ c ∈ done, i ∉ c) → rep i = i
  together : ∀ c ∈ done, ∀ i ∈ c, ∀ j ∈ c, rep i = rep j
  apart : ∀ i ∈ origin.g.nodes, ∀ j ∈ origin.g.nodes, rep i = rep j →
    i = j ∨ ∃ c ∈ done, i ∈ c ∧ j ∈ c
  step : ∀ i j, (i, j) ∈ origin.g.edges → rep i = rep j ∨ (rep i, rep j) ∈ s.g.edges
  lift : ∀ x y, (x, y) ∈ s.g.edges → x ≠ y ∧
    ∃ i j, (i, j) ∈ origin.g.edges ∧ rep i = x ∧ rep j = y
  members : ∀ c ∈ done, ∀ i ∈ c, ∃ texts, (rep i, texts) ∈ sccMap ∧ ∀ t, t ∈ texts ↔
    ∃ j ∈ c, ∃ path, (j, path) ∈ origin.g.weights ∧ paths.toStr path = some t
  replacements : ∀ entry ∈ sccMap, ∃ c ∈ done, ∃ i ∈ c, rep i = entry.1
  sccKeys : (sccMap.map Prod.fst).Nodup
  diagnostics : s.diagnostics = origin.diagnostics ++
    done.flatMap fun c => cycleDiagnostics paths (c.filterMap origin.g.nodeWeight)

theorem condensed_nil (h : Built origin K R) (hR : ∀ p q, R p q → p ≠ q) :
    Condensed paths origin [] id origin [] where
  subset _ hc := absurd hc List.not_mem_nil
  nodes := (List.map_id _).symm
  keys := h.nodes_eq ▸ h.indices
  weights x w := by simp
  fixed _ _ _ := rfl
  together _ hc := absurd hc List.not_mem_nil
  apart _ _ _ _ heq := .inl heq
  step _ _ hedge := .inr hedge
  lift x y hedge := by
    refine ⟨fun heq => ?_, x, y, hedge, rfl, rfl⟩
    obtain ⟨p, q, hp, hq, hpq⟩ := (h.edges x y).mp hedge
    exact hR p q hpq (eq_of_values_nodup h.indices (heq ▸ hp) hq)
  members _ hc := absurd hc List.not_mem_nil
  replacements _ hentry := absurd hentry List.not_mem_nil
  sccKeys := List.nodup_nil
  diagnostics := (List.append_nil _).symm

theorem mem_nodes_of_weight {g : IncludeGraph π} {x : ℕ} {w : π} (h : (x, w) ∈ g.weights) :
    x ∈ g.nodes :=
  List.mem_map_of_mem (f := Prod.fst) h

theorem exists_weight {g : IncludeGraph π} {x : ℕ} (h : x ∈ g.nodes) : ∃ w, (x, w) ∈ g.weights := by
  obtain ⟨⟨y, w⟩, hmem, rfl⟩ := List.mem_map.mp h
  exact ⟨w, hmem⟩

/-- Where a node went is a node. -/
theorem Condensed.rep_mem (h : Condensed paths origin done rep s sccMap) {i : ℕ}
    (hi : i ∈ origin.g.nodes) : rep i ∈ s.g.nodes := by
  by_cases hdone : ∀ c ∈ done, i ∉ c
  · obtain ⟨w, hw⟩ := exists_weight hi
    rw [h.fixed i hi hdone]
    exact mem_nodes_of_weight ((h.weights i w).mpr (.inl ⟨hw, hdone⟩))
  · push Not at hdone
    obtain ⟨c, hc, hic⟩ := hdone
    exact mem_nodes_of_weight ((h.weights _ _).mpr (.inr ⟨rfl, c, hc, i, hic, rfl⟩))

/-- A component that is still as it was: its nodes are where they were. -/
structure Fresh (origin : Building π) (done : List (List ℕ)) (component : List ℕ) : Prop where
  nodup : component.Nodup
  nonempty : component ≠ []
  subset : ∀ i ∈ component, i ∈ origin.g.nodes
  disjoint : ∀ i ∈ component, ∀ c ∈ done, i ∉ c

theorem Condensed.eq_of_rep_eq (h : Condensed paths origin done rep s sccMap)
    {component : List ℕ} (hfresh : Fresh origin done component) {i k : ℕ}
    (hi : i ∈ origin.g.nodes) (hk : k ∈ component) (heq : rep i = k) : i = k := by
  have hrep : rep i = rep k :=
    heq.trans (h.fixed k (hfresh.subset k hk) (hfresh.disjoint k hk)).symm
  rcases h.apart i hi k (hfresh.subset k hk) hrep with heq | ⟨c, hc, -, hkc⟩
  · exact heq
  · exact absurd hkc (hfresh.disjoint k hk c hc)

/-- The nodes of a fresh component are among those there are, the others are elsewhere. -/
theorem Condensed.rep_notMem (h : Condensed paths origin done rep s sccMap) {component : List ℕ}
    (hfresh : Fresh origin done component) {i : ℕ} (hi : i ∈ origin.g.nodes)
    (hout : i ∉ component) : rep i ∉ component :=
  fun hmem => hout (h.eq_of_rep_eq hfresh hi hmem rfl ▸ hmem)

theorem Condensed.weight_iff (h : Condensed paths origin done rep s sccMap) {component : List ℕ}
    (hfresh : Fresh origin done component) {i : ℕ} (hi : i ∈ component) (w : π) :
    (i, w) ∈ s.g.weights ↔ (i, w) ∈ origin.g.weights := by
  rw [h.weights]
  constructor
  · rintro (⟨hw, -⟩ | ⟨-, c, hc, j, hj, hrep⟩)
    · exact hw
    · have heq := h.eq_of_rep_eq hfresh (h.subset c hc j hj) hi hrep
      exact absurd (heq ▸ hj) (hfresh.disjoint i hi c hc)
  · exact fun hw => .inl ⟨hw, hfresh.disjoint i hi⟩

/-- With a node for the component and its outer edges, before its members go. -/
def withReplacement (paths : Paths π) (g : IncludeGraph π) (component : List ℕ) (r : ℕ) :
    IncludeGraph π :=
  ⟨g.weights ++ [(r, paths.empty)],
    g.edges ++ (sccExternalNeighbors g.predecessors component).map (fun n => (n, r)) ++
      (sccExternalNeighbors g.successors component).map fun n => (r, n)⟩

def repAfter (component : List ℕ) (r : ℕ) (rep : ℕ → ℕ) (i : ℕ) : ℕ :=
  if i ∈ component then r else rep i

variable (paths) in
theorem nodup_withReplacement {g : IncludeGraph π} (component : List ℕ) {r : ℕ}
    (h : g.nodes.Nodup) (hr : r ∉ g.nodes) : (withReplacement paths g component r).nodes.Nodup := by
  rw [IncludeGraph.nodes, withReplacement, List.map_append]
  refine List.nodup_append.mpr ⟨h, List.nodup_singleton _, fun x hx y hy heq => ?_⟩
  obtain rfl : x = r := heq.trans (List.mem_singleton.mp hy)
  exact hr hx

theorem Condensed.nodeWeight_iff (h : Condensed paths origin done rep s sccMap)
    {component : List ℕ} (hfresh : Fresh origin done component) {r : ℕ} (hr : r ∉ s.g.nodes)
    {i : ℕ} (hi : i ∈ component) {w : π} :
    (withReplacement paths s.g component r).nodeWeight i = some w ↔
      (i, w) ∈ origin.g.weights := by
  have hkeys := nodup_withReplacement paths component h.keys hr
  have hne : i ≠ r := by
    rintro rfl
    obtain ⟨v, hv⟩ := exists_weight (hfresh.subset i hi)
    exact hr (mem_nodes_of_weight ((h.weight_iff hfresh hi v).mpr hv))
  rw [← h.weight_iff hfresh hi]
  constructor
  · intro hlookup
    rcases List.mem_append.mp (mem_of_lookup hlookup) with hmem | hmem
    · exact hmem
    · cases List.mem_singleton.mp hmem
      exact absurd rfl hne
  · exact fun hmem => lookup_eq_some hkeys (List.mem_append_left _ hmem)

theorem mem_withReplacement {g : IncludeGraph π} {component : List ℕ} {r x y : ℕ} :
    (x, y) ∈ (withReplacement paths g component r).edges ↔ (x, y) ∈ g.edges ∨
      (y = r ∧ x ∉ component ∧ ∃ c ∈ component, (x, c) ∈ g.edges) ∨
      (x = r ∧ y ∉ component ∧ ∃ c ∈ component, (c, y) ∈ g.edges) := by
  rw [withReplacement, List.mem_append, List.mem_append, or_assoc, List.mem_map, List.mem_map]
  refine or_congr_right (or_congr ?_ ?_)
  · constructor
    · rintro ⟨n, hn, heq⟩
      cases heq
      obtain ⟨hout, c, hc, hpred⟩ := mem_sccExternalNeighbors.mp hn
      exact ⟨rfl, hout, c, hc, mem_predecessors.mp hpred⟩
    · rintro ⟨rfl, hout, c, hc, hedge⟩
      exact ⟨x, mem_sccExternalNeighbors.mpr ⟨hout, c, hc, mem_predecessors.mpr hedge⟩, rfl⟩
  · constructor
    · rintro ⟨n, hn, heq⟩
      cases heq
      obtain ⟨hout, c, hc, hsucc⟩ := mem_sccExternalNeighbors.mp hn
      exact ⟨rfl, hout, c, hc, mem_successors.mp hsucc⟩
    · rintro ⟨rfl, hout, c, hc, hedge⟩
      exact ⟨y, mem_sccExternalNeighbors.mpr ⟨hout, c, hc, mem_successors.mpr hedge⟩, rfl⟩

/-- The edges of a graph whose component `component` has become the node `r`. -/
def collapsedEdges (paths : Paths π) (g : IncludeGraph π) (component : List ℕ) (r : ℕ) :
    List (ℕ × ℕ) :=
  ((withReplacement paths g component r).withoutAll component).edges

theorem mem_collapsedEdges {g : IncludeGraph π} {component : List ℕ} {r x y : ℕ} :
    (x, y) ∈ collapsedEdges paths g component r ↔
      (x, y) ∈ (withReplacement paths g component r).edges ∧ x ∉ component ∧ y ∉ component := by
  rw [collapsedEdges, IncludeGraph.withoutAll, List.mem_filter, decide_eq_true_iff]

section Step
variable (h : Condensed paths origin done rep s sccMap) {component : List ℕ}
  (hfresh : Fresh origin done component) (hclosed : Closed origin.g.nodes origin.g.edges) {r : ℕ}
  (hr : r ∉ s.g.nodes)

include h hfresh hr in
theorem Condensed.replacement_notMem : r ∉ component := fun hmem => by
  have hrep := h.rep_mem (hfresh.subset r hmem)
  rw [h.fixed r (hfresh.subset r hmem) (hfresh.disjoint r hmem)] at hrep
  exact hr hrep

include h hfresh hclosed hr in
/-- An edge leads somewhere still, or inside of one node. -/
theorem Condensed.step_collapse (i j : ℕ) (hedge : (i, j) ∈ origin.g.edges) :
    repAfter component r rep i = repAfter component r rep j ∨
      (repAfter component r rep i, repAfter component r rep j) ∈
        collapsedEdges paths s.g component r := by
  obtain ⟨hi, hj⟩ := hclosed (i, j) hedge
  have hrc := h.replacement_notMem hfresh hr
  rw [mem_collapsedEdges, mem_withReplacement, repAfter, repAfter]
  by_cases hic : i ∈ component
  · rw [if_pos hic]
    have hfixed : rep i = i := h.fixed i hi (hfresh.disjoint i hic)
    by_cases hjc : j ∈ component
    · exact .inl (if_pos hjc).symm
    · have hout := h.rep_notMem hfresh hj hjc
      rw [if_neg hjc]
      rcases h.step i j hedge with heq | hnext
      · have hji : j = i := h.eq_of_rep_eq hfresh hj hic (heq.symm.trans hfixed)
        exact absurd (hji ▸ hic) hjc
      · rw [hfixed] at hnext
        exact .inr ⟨.inr (.inr ⟨rfl, hout, i, hic, hnext⟩), hrc, hout⟩
  · have hout := h.rep_notMem hfresh hi hic
    rw [if_neg hic]
    by_cases hjc : j ∈ component
    · have hfixed : rep j = j := h.fixed j hj (hfresh.disjoint j hjc)
      rw [if_pos hjc]
      rcases h.step i j hedge with heq | hnext
      · have hij : i = j := h.eq_of_rep_eq hfresh hi hjc (heq.trans hfixed)
        exact absurd (hij ▸ hjc) hic
      · rw [hfixed] at hnext
        exact .inr ⟨.inr (.inl ⟨rfl, hout, j, hjc, hnext⟩), hout, hrc⟩
    · rw [if_neg hjc]
      exact (h.step i j hedge).imp_right fun hnext =>
        ⟨.inl hnext, hout, h.rep_notMem hfresh hj hjc⟩

include h hfresh hclosed hr in
/-- An edge comes from one that was there. -/
theorem Condensed.lift_collapse (x y : ℕ) (hedge : (x, y) ∈ collapsedEdges paths s.g component r) :
    x ≠ y ∧ ∃ i j, (i, j) ∈ origin.g.edges ∧ repAfter component r rep i = x ∧
      repAfter component r rep j = y := by
  have hlive {i : ℕ} (hi : i ∈ origin.g.nodes) : rep i ≠ r := fun heq => hr (heq ▸ h.rep_mem hi)
  have hinside {i k : ℕ} (hi : i ∈ origin.g.nodes) (hk : k ∈ component) (heq : rep i = k) :
      repAfter component r rep i = r :=
    if_pos (h.eq_of_rep_eq hfresh hi hk heq ▸ hk)
  have houtside {i : ℕ} (hi : i ∈ origin.g.nodes) (hout : rep i ∉ component) :
      repAfter component r rep i = rep i := by
    refine if_neg fun hic => hout ?_
    rw [h.fixed i hi (hfresh.disjoint i hic)]
    exact hic
  rw [mem_collapsedEdges, mem_withReplacement] at hedge
  obtain ⟨hedge | ⟨rfl, hx, c, hc, hedge⟩ | ⟨rfl, hy, c, hc, hedge⟩, hxout, hyout⟩ := hedge
  · obtain ⟨hne, i, j, hij, rfl, rfl⟩ := h.lift x y hedge
    obtain ⟨hi, hj⟩ := hclosed (i, j) hij
    exact ⟨hne, i, j, hij, houtside hi hxout, houtside hj hyout⟩
  · obtain ⟨-, i, j, hij, rfl, hjc⟩ := h.lift x c hedge
    obtain ⟨hi, hj⟩ := hclosed (i, j) hij
    exact ⟨hlive hi, i, j, hij, houtside hi hx, hinside hj hc hjc⟩
  · obtain ⟨-, i, j, hij, hic, rfl⟩ := h.lift c y hedge
    obtain ⟨hi, hj⟩ := hclosed (i, j) hij
    exact ⟨(hlive hj).symm, i, j, hij, hinside hi hc hic, houtside hj hy⟩

end Step

/-- The edges aside, what the new graph holds once the members have gone. -/
theorem Condensed.collapse (hlib : lib.Documented)
    (h : Condensed paths origin done rep s sccMap) {component : List ℕ}
    (hfresh : Fresh origin done component) (hclosed : Closed origin.g.nodes origin.g.edges)
    {members : List String}
    (hmembers : ∀ t, t ∈ members ↔
      ∃ j ∈ component, ∃ path, (j, path) ∈ origin.g.weights ∧ paths.toStr path = some t) :
    Condensed paths origin (done ++ [component])
      (repAfter component (lib.freeIndex s.g) rep)
      ⟨(withReplacement paths s.g component (lib.freeIndex s.g)).withoutAll component,
        origin.nodes.map fun e => (e.1, repAfter component (lib.freeIndex s.g) rep e.2),
        s.diagnostics ++ cycleDiagnostics paths (component.filterMap origin.g.nodeWeight)⟩
      (sccMap ++ [(lib.freeIndex s.g, members)]) := by
  have hr := hlib.fresh s.g
  have hrc := h.replacement_notMem hfresh hr
  have hold {c : List ℕ} (hc : c ∈ done) {i : ℕ} (hi : i ∈ c) :
      repAfter component (lib.freeIndex s.g) rep i = rep i :=
    if_neg fun hic => hfresh.disjoint i hic c hc hi
  have hnew {i : ℕ} (hi : i ∈ component) :
      repAfter component (lib.freeIndex s.g) rep i = lib.freeIndex s.g := if_pos hi
  have hlive {i : ℕ} (hi : i ∈ origin.g.nodes) : rep i ≠ lib.freeIndex s.g :=
    fun heq => hr (heq ▸ h.rep_mem hi)
  have hlast : component ∈ done ++ [component] :=
    List.mem_append_right _ (List.mem_singleton_self _)
  refine ⟨?_, rfl, ?_, fun x w => ?_, fun i hi hout => ?_, ?_, fun i hi j hj heq => ?_,
    h.step_collapse hfresh hclosed hr, h.lift_collapse hfresh hclosed hr, ?_, ?_, ?_, ?_⟩
  · rw [List.forall_mem_append, List.forall_mem_singleton]
    exact ⟨h.subset, hfresh.subset⟩
  · exact (nodup_withReplacement paths component h.keys hr).sublist
      (List.Sublist.map _ (List.filter_sublist ..))
  · have hmem : (x, w) ∈ ((withReplacement paths s.g component
        (lib.freeIndex s.g)).withoutAll component).weights ↔
        ((x, w) ∈ s.g.weights ∨ (x = lib.freeIndex s.g ∧ w = paths.empty)) ∧ x ∉ component := by
      rw [IncludeGraph.withoutAll, withReplacement, List.mem_filter, List.mem_append,
        List.mem_singleton, Prod.mk.injEq, decide_eq_true_iff]
    rw [hmem, h.weights, List.forall_mem_append, List.forall_mem_singleton]
    constructor
    · rintro ⟨(⟨hw, hdone⟩ | ⟨rfl, c, hc, i, hi, rfl⟩) | ⟨rfl, rfl⟩, hx⟩
      · exact .inl ⟨hw, hdone, hx⟩
      · exact .inr ⟨rfl, c, List.mem_append_left _ hc, i, hi, hold hc hi⟩
      · obtain ⟨i, hi⟩ := List.exists_mem_of_ne_nil _ hfresh.nonempty
        exact .inr ⟨rfl, component, hlast, i, hi, hnew hi⟩
    · rintro (⟨hw, hdone, hx⟩ | ⟨rfl, c, hc, i, hi, rfl⟩)
      · exact ⟨.inl (.inl ⟨hw, hdone⟩), hx⟩
      · rcases List.mem_append.mp hc with hc | hc
        · rw [hold hc hi]
          exact ⟨.inl (.inr ⟨rfl, c, hc, i, hi, rfl⟩), h.rep_notMem hfresh (h.subset c hc i hi)
            fun hic => hfresh.disjoint i hic c hc hi⟩
        · rw [hnew (List.mem_singleton.mp hc ▸ hi)]
          exact ⟨.inr ⟨rfl, rfl⟩, hrc⟩
  · rw [List.forall_mem_append, List.forall_mem_singleton] at hout
    rw [repAfter, if_neg hout.2]
    exact h.fixed i hi hout.1
  · rw [List.forall_mem_append, List.forall_mem_singleton]
    refine ⟨fun c hc i hi j hj => ?_, fun i hi j hj => ?_⟩
    · rw [hold hc hi, hold hc hj]
      exact h.together c hc i hi j hj
    · rw [hnew hi, hnew hj]
  · rw [repAfter, repAfter] at heq
    split_ifs at heq with hic hjc hjc
    · exact .inr ⟨component, hlast, hic, hjc⟩
    · exact absurd heq.symm (hlive hj)
    · exact absurd heq (hlive hi)
    · exact (h.apart i hi j hj heq).imp_right fun ⟨c, hc, hboth⟩ =>
        ⟨c, List.mem_append_left _ hc, hboth⟩
  · rw [List.forall_mem_append, List.forall_mem_singleton]
    refine ⟨fun c hc i hi => ?_, fun i hi => ?_⟩
    · obtain ⟨texts, hmem, htexts⟩ := h.members c hc i hi
      rw [hold hc hi]
      exact ⟨texts, List.mem_append_left _ hmem, htexts⟩
    · rw [hnew hi]
      exact ⟨members, List.mem_append_right _ (List.mem_singleton_self _), hmembers⟩
  · rw [List.forall_mem_append, List.forall_mem_singleton]
    refine ⟨fun entry hentry => ?_, ?_⟩
    · obtain ⟨c, hc, i, hi, heq⟩ := h.replacements entry hentry
      exact ⟨c, List.mem_append_left _ hc, i, hi, (hold hc hi).trans heq⟩
    · obtain ⟨i, hi⟩ := List.exists_mem_of_ne_nil _ hfresh.nonempty
      exact ⟨component, hlast, i, hi, hnew hi⟩
  · rw [List.map_append, List.map_singleton]
    refine List.nodup_append.mpr ⟨h.sccKeys, List.nodup_singleton _, fun x hx y hy heq => ?_⟩
    obtain rfl : x = lib.freeIndex s.g := heq.trans (List.mem_singleton.mp hy)
    obtain ⟨entry, hentry, hkey⟩ := List.mem_map.mp hx
    obtain ⟨c, hc, i, hi, hrep⟩ := h.replacements entry hentry
    exact hlive (h.subset c hc i hi) (hrep.trans hkey)
  · rw [h.diagnostics, List.append_assoc, List.flatMap_append, List.flatMap_singleton]

variable [DecidableEq π]

theorem insertionSort_eq_of_perm {l l' : List String} (h : l.Perm l') :
    l.insertionSort (· ≤ ·) = l'.insertionSort (· ≤ ·) :=
  List.Perm.eq_of_pairwise' (List.pairwise_insertionSort _ _) (List.pairwise_insertionSort _ _)
    (((List.perm_insertionSort _ l).trans h).trans (List.perm_insertionSort _ l').symm)

/-- One component becomes one node, and nothing panics. -/
theorem collapseOneComponent_condensed (hb : Built origin K R) (hlib : lib.Documented)
    (h : Condensed paths origin done rep s sccMap) {component : List ℕ}
    (hfresh : Fresh origin done component) (hclosed : Closed origin.g.nodes origin.g.edges) :
    ∃ s' members, collapseOneComponent paths lib s component =
        some (s', lib.freeIndex s.g, members) ∧
      Condensed paths origin (done ++ [component]) (repAfter component (lib.freeIndex s.g) rep) s'
        (sccMap ++ [(lib.freeIndex s.g, members)]) := by
  have hr := hlib.fresh s.g
  have hweight {i : ℕ} (hi : i ∈ component) {w : π} :=
    h.nodeWeight_iff hfresh hr hi (w := w)
  have hswap {i : ℕ} {w : π} : (i, w) ∈ origin.g.weights ↔ (w, i) ∈ origin.nodes := by
    rw [hb.weights, List.mem_map]
    constructor
    · rintro ⟨⟨p, j⟩, hmem, heq⟩
      cases heq
      exact hmem
    · exact fun hmem => ⟨(w, i), hmem, rfl⟩
  have hpaths : ∀ c ∈ component, ∃ path,
      (withReplacement paths s.g component (lib.freeIndex s.g)).nodeWeight c = some path ∧
        path ∈ s.nodes.map Prod.fst := by
    intro c hc
    obtain ⟨path, hpath⟩ := exists_weight (hfresh.subset c hc)
    refine ⟨path, (hweight hc).mpr hpath, ?_⟩
    rw [h.nodes, List.map_map]
    exact List.mem_map.mpr ⟨(path, c), hswap.mp hpath, rfl⟩
  obtain ⟨members, hfold, hnodup, hmembers⟩ :=
    foldlM_retireMember paths (lib.freeIndex s.g) hfresh.nodup hpaths s.diagnostics []
  have horigin : component.filterMap
      (withReplacement paths s.g component (lib.freeIndex s.g)).nodeWeight =
        component.filterMap origin.g.nodeWeight := by
    refine List.filterMap_congr fun c hc => Option.ext fun w => ?_
    rw [hweight hc]
    have hkeys : origin.g.nodes.Nodup := hb.nodes_eq ▸ hb.indices
    exact ⟨lookup_eq_some hkeys, mem_of_lookup⟩
  have hsorted : members.insertionSort (· ≤ ·) =
      ((component.filterMap origin.g.nodeWeight).filterMap paths.toStr).dedup.insertionSort
        (· ≤ ·) := by
    refine insertionSort_eq_of_perm ?_
    refine (List.perm_ext_iff_of_nodup (hnodup List.nodup_nil) (List.nodup_dedup _)).mpr fun t => ?_
    rw [hmembers, List.mem_dedup, ← horigin]
    simp only [List.not_mem_nil, false_or, List.mem_filterMap]
    constructor
    · rintro ⟨c, hc, path, hpath, htext⟩
      exact ⟨path, ⟨c, hc, hpath⟩, htext⟩
    · rintro ⟨path, ⟨c, hc, hpath⟩, htext⟩
      exact ⟨c, hc, path, hpath, htext⟩
  have hnodes : retarget (withReplacement paths s.g component (lib.freeIndex s.g)) component
      (lib.freeIndex s.g) s.nodes =
        origin.nodes.map fun e => (e.1, repAfter component (lib.freeIndex s.g) rep e.2) := by
    rw [retarget, h.nodes, List.map_map]
    refine List.map_congr_left fun e he => ?_
    have hiff : e.1 ∈ component.filterMap
        (withReplacement paths s.g component (lib.freeIndex s.g)).nodeWeight ↔
        e.2 ∈ component := by
      rw [List.mem_filterMap]
      constructor
      · rintro ⟨c, hc, hlookup⟩
        rw [hweight hc, hswap] at hlookup
        rwa [eq_of_keys_nodup hb.keys he hlookup]
      · exact fun hmem => ⟨e.2, hmem, (hweight hmem).mpr (hswap.mpr he)⟩
    rw [Function.comp, repAfter]
    simp only [hiff]
    split_ifs <;> rfl
  refine ⟨_, members, ?_, h.collapse hlib hfresh hclosed fun t => ?_⟩
  · rw [hnodes, horigin] at hfold
    have hdef : collapseOneComponent paths lib s component =
        (component.foldlM (retireMember paths (lib.freeIndex s.g))
          (⟨withReplacement paths s.g component (lib.freeIndex s.g), s.nodes, s.diagnostics⟩,
            [])).bind fun r => some (⟨r.1.g, r.1.nodes, r.1.diagnostics ++
              [.includeCycle (r.2.insertionSort (· ≤ ·))]⟩, lib.freeIndex s.g, r.2) := rfl
    rw [hdef, hfold, cycleDiagnostics, ← hsorted, ← List.append_assoc]
    rfl
  · rw [hmembers]
    refine (or_iff_right List.not_mem_nil).trans (exists_congr fun c => and_congr_right fun hc => ?_)
    exact exists_congr fun path => and_congr_left fun _ => hweight hc

end Condensation

section Components
variable {paths : Paths π} {lib : Petgraph π} {K : π → Prop} {R : π → π → Prop}
  {origin : Building π}

theorem Built.closed (h : Built origin K R) : Closed origin.g.nodes origin.g.edges := by
  rintro ⟨a, b⟩ hedge
  obtain ⟨p, q, hp, hq, -⟩ := (h.edges a b).mp hedge
  rw [h.nodes_eq]
  exact ⟨List.mem_map_of_mem (f := Prod.snd) hp, List.mem_map_of_mem (f := Prod.snd) hq⟩

section Collapse
variable [DecidableEq π]

theorem foldlM_collapseIfCycle (hb : Built origin K R) (hlib : lib.Documented)
    {components done : List (List ℕ)} {rep : ℕ → ℕ} {s : Building π} {sccMap : SccMap}
    (h : Condensed paths origin done rep s sccMap) (hnodup : components.flatten.Nodup)
    (hsubset : ∀ c ∈ components, ∀ i ∈ c, i ∈ origin.g.nodes)
    (hdisjoint : ∀ c ∈ components, ∀ i ∈ c, ∀ d ∈ done, i ∉ d) :
    ∃ rep' s' sccMap', components.foldlM (collapseIfCycle paths lib) (s, sccMap) =
        some (s', sccMap') ∧
      Condensed paths origin (done ++ components.filter fun c => 1 < c.length) rep' s' sccMap' := by
  induction components generalizing done rep s sccMap with
  | nil => exact ⟨rep, s, sccMap, rfl, (List.append_nil done).symm ▸ h⟩
  | cons c components ih =>
    rw [List.flatten_cons, List.nodup_append] at hnodup
    have hsubset' := fun d hd => hsubset d (List.mem_cons_of_mem c hd)
    rw [List.foldlM_cons, collapseIfCycle]
    by_cases hlong : 1 < c.length
    · have hfresh : Fresh origin done c :=
        ⟨hnodup.1, List.ne_nil_of_length_pos (by omega), hsubset c List.mem_cons_self,
          hdisjoint c List.mem_cons_self⟩
      obtain ⟨s', members, hone, h'⟩ := collapseOneComponent_condensed hb hlib h hfresh hb.closed
      have hdisjoint' : ∀ d ∈ components, ∀ i ∈ d, ∀ e ∈ done ++ [c], i ∉ e := by
        intro d hd i hi e he
        rcases List.mem_append.mp he with he | he
        · exact hdisjoint d (List.mem_cons_of_mem _ hd) i hi e he
        · rw [List.mem_singleton.mp he]
          exact fun hic => hnodup.2.2 i hic i (List.mem_flatten.mpr ⟨d, hd, hi⟩) rfl
      obtain ⟨rep', t, sccMap', hfold, hdone⟩ := ih h' hnodup.2.1 hsubset' hdisjoint'
      refine ⟨rep', t, sccMap', ?_, ?_⟩
      · rw [if_pos hlong, hone]
        exact hfold
      · rw [List.filter_cons_of_pos (by simpa using hlong), List.append_cons]
        exact hdone
    · obtain ⟨rep', t, sccMap', hfold, hdone⟩ := ih h hnodup.2.1 hsubset'
        fun d hd => hdisjoint d (List.mem_cons_of_mem _ hd)
      refine ⟨rep', t, sccMap', ?_, ?_⟩
      · rw [if_neg hlong]
        exact hfold
      · rw [List.filter_cons_of_neg (by simpa using hlong)]
        exact hdone

end Collapse

/-- The cycles of a graph: the components with more than one node. -/
def cycles (lib : Petgraph π) (g : IncludeGraph π) : List (List ℕ) :=
  (lib.kosarajuScc g).filter fun c => 1 < c.length

variable (paths) in
/-- All cycles are collapsed, and nothing panics. -/
theorem collapseScc_condensed [DecidableEq π] (hb : Built origin K R) (hR : ∀ p q, R p q → p ≠ q)
    (hlib : lib.Documented) : ∃ rep s sccMap, collapseScc paths lib origin = some (s, sccMap) ∧
      Condensed paths origin (cycles lib origin.g) rep s sccMap := by
  have hkeys : origin.g.nodes.Nodup := hb.nodes_eq ▸ hb.indices
  have hscc := hlib.scc origin.g hkeys hb.closed
  have hsubset : ∀ c ∈ lib.kosarajuScc origin.g, ∀ i ∈ c, i ∈ origin.g.nodes :=
    fun c hc i hi => hscc.perm.subset (List.mem_flatten.mpr ⟨c, hc, hi⟩)
  exact foldlM_collapseIfCycle hb hlib (condensed_nil hb hR) (hscc.perm.nodup_iff.mpr hkeys)
    hsubset fun _ _ _ _ _ hd => absurd hd List.not_mem_nil

section Collapsed
variable {rep : ℕ → ℕ} {s : Building π} {sccMap : SccMap}
  (h : Condensed paths origin (cycles lib origin.g) rep s sccMap)
  (hscc : IsScc origin.g.nodes origin.g.edges (lib.kosarajuScc origin.g))

include h hscc in
/-- Nodes are one exactly if each reaches the other. -/
theorem Condensed.rep_eq_iff {i j : ℕ} (hi : i ∈ origin.g.nodes) (hj : j ∈ origin.g.nodes) :
    rep i = rep j ↔ Reach origin.g.edges i j ∧ Reach origin.g.edges j i := by
  constructor
  · intro heq
    rcases h.apart i hi j hj heq with rfl | ⟨c, hc, hic, hjc⟩
    · exact ⟨.refl, .refl⟩
    · exact (hscc.linked c (List.mem_of_mem_filter hc) i hic j hj).mp hjc
  · intro hreach
    obtain ⟨c, hc, hic⟩ := List.mem_flatten.mp (hscc.perm.symm.subset hi)
    have hjc := (hscc.linked c hc i hic j hj).mpr hreach
    by_cases hlong : 1 < c.length
    · exact h.together c (List.mem_filter.mpr ⟨hc, decide_eq_true hlong⟩) i hic j hjc
    · obtain ⟨k, rfl⟩ := List.length_eq_one_iff.mp
        (Nat.le_antisymm (Nat.not_lt.mp hlong) (List.length_pos_of_mem hic))
      rw [List.mem_singleton.mp hic, List.mem_singleton.mp hjc]

include h hscc in
theorem Condensed.reach_iff (hclosed : Closed origin.g.nodes origin.g.edges) {i j : ℕ}
    (hi : i ∈ origin.g.nodes) (hj : j ∈ origin.g.nodes) :
    Reach s.g.edges (rep i) (rep j) ↔ Reach origin.g.edges i j :=
  reach_quotient (fun a b hedge => hclosed (a, b) hedge) h.step
    (fun x y hedge => (h.lift x y hedge).2)
    (fun _ _ ha hb heq => ((h.rep_eq_iff hscc ha hb).mp heq).1) hi hj

include h hscc in
/-- No cycle is left. -/
theorem Condensed.acyclic (hclosed : Closed origin.g.nodes origin.g.edges) : Acyclic s.g.edges :=
  acyclic_quotient (fun a b hedge => hclosed (a, b) hedge) h.step
    (fun x y hedge => (h.lift x y hedge).2) (fun x y hedge => (h.lift x y hedge).1)
    (fun _ _ ha hb heq => ((h.rep_eq_iff hscc ha hb).mp heq).1)
    fun _ _ ha hb hab hba => (h.rep_eq_iff hscc ha hb).mpr ⟨hab, hba⟩

end Collapsed

end Components

end BigCodeAnalysis.Preproc
