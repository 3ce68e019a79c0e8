import BigCodeAnalysis.Trees.Rose
import Mathlib.Data.List.Chain
import Mathlib.Data.List.Nodup

/-! Paths from the root of a tree, and its positions in pre-order: each node with its ancestors,
nearest first. Where no two nodes of a tree share a key, the key of the last node fixes the whole
path, so a node has one ancestry and one position. A walk that visits some nodes is a fold over a
list of positions. -/

namespace BigCodeAnalysis.Trees

section

variable {α κ : Type*}

/-- A path down from `root`, each node a child of the one before it. -/
def IsPath (root : Rose α) (p : List (Rose α)) : Prop :=
  p.head? = some root ∧ p.IsChain fun a b => b ∈ a.children

theorem IsPath.take {root : Rose α} {p : List (Rose α)} (h : IsPath root p) {n : ℕ}
    (hn : 0 < n) : IsPath root (p.take n) := by
  obtain ⟨hhead, hchain⟩ := h
  refine ⟨?_, hchain.take n⟩
  rw [List.head?_take, if_neg (by omega), hhead]

theorem IsPath.cons {root c : Rose α} {p : List (Rose α)} (h : IsPath root (root :: c :: p)) :
    c ∈ root.children ∧ IsPath c (c :: p) := by
  have hchain := List.isChain_cons_cons.mp h.2
  exact ⟨hchain.1, rfl, hchain.2⟩

theorem IsPath.of_child {root c : Rose α} {p : List (Rose α)} (hc : c ∈ root.children)
    (h : IsPath c p) : IsPath root (root :: p) := by
  obtain ⟨hhead, hchain⟩ := h
  obtain ⟨q, rfl⟩ := List.head?_eq_some_iff.mp hhead
  exact ⟨rfl, List.isChain_cons_cons.mpr ⟨hc, hchain⟩⟩

theorem IsPath.snoc {root a c : Rose α} {p : List (Rose α)} (h : IsPath root (p ++ [a]))
    (hc : c ∈ a.children) : IsPath root (p ++ [a] ++ [c]) := by
  obtain ⟨hhead, hchain⟩ := h
  refine ⟨?_, ?_⟩
  · rw [List.head?_append, hhead]
    rfl
  · refine hchain.append (List.isChain_singleton c) fun x hx y hy => ?_
    rw [List.getLast?_concat, Option.mem_some_iff] at hx
    rw [List.head?_cons, Option.mem_some_iff] at hy
    subst hx hy
    exact hc

/-- A path through `a` and its child `c`, split between the two. -/
theorem isPath_append_iff {root a c : Rose α} {p q : List (Rose α)} :
    IsPath root (p ++ a :: c :: q) ↔
      IsPath root (p ++ [a]) ∧ c ∈ a.children ∧ IsPath c (c :: q) := by
  have hhead : (p ++ a :: c :: q).head? = (p ++ [a]).head? := by cases p <;> rfl
  have hsplit : p ++ a :: c :: q = p ++ [a] ++ c :: q := by simp
  rw [IsPath, hhead, hsplit, List.isChain_append, List.getLast?_concat, List.head?_cons]
  constructor
  · rintro ⟨hroot, habove, hbelow, hstep⟩
    exact ⟨⟨hroot, habove⟩, hstep a rfl c rfl, rfl, hbelow⟩
  · rintro ⟨⟨hroot, habove⟩, hc, -, hbelow⟩
    refine ⟨hroot, habove, hbelow, fun x hx y hy => ?_⟩
    obtain rfl := Option.some_inj.mp hx
    obtain rfl := Option.some_inj.mp hy
    exact hc

theorem IsPath.last_mem_nodes {root u : Rose α} {p : List (Rose α)}
    (h : IsPath root (p ++ [u])) : u ∈ root.nodes := by
  induction p generalizing root with
  | nil =>
    obtain rfl : u = root := Option.some_inj.mp h.1
    rw [Rose.nodes_eq]
    exact List.mem_cons_self
  | cons a p ih =>
    obtain rfl : a = root := Option.some_inj.mp h.1
    obtain ⟨c, q, hq⟩ : ∃ c q, p ++ [u] = c :: q := List.exists_cons_of_ne_nil (by simp)
    rw [List.cons_append, hq] at h
    obtain ⟨hc, hpath⟩ := h.cons
    rw [← hq] at hpath
    rw [Rose.nodes_eq]
    exact List.mem_cons_of_mem _ ((Rose.nodes_sublist_of_mem hc).subset (ih hpath))

theorem sublist_forestNodes (ts : List (Rose α)) : ts.Sublist (Rose.forestNodes ts) := by
  induction ts with
  | nil => exact List.Sublist.refl _
  | cons t ts ih =>
    rw [Rose.forestNodes, Rose.nodes_eq, List.cons_append]
    exact (ih.trans (List.sublist_append_right _ _)).cons_cons _

/-- Children of a node have different keys. -/
theorem IsPath.nodup_children {key : Rose α → κ} {root a : Rose α}
    (hnodup : (root.nodes.map key).Nodup) {p : List (Rose α)} (h : IsPath root (p ++ [a])) :
    (a.children.map key).Nodup := by
  have hnodes := hnodup.sublist ((Rose.nodes_sublist_nodes h.last_mem_nodes).map key)
  rw [Rose.nodes_eq, List.map_cons, List.nodup_cons] at hnodes
  exact hnodes.2.sublist ((sublist_forestNodes _).map key)

/-- Two nodes of different children of a node have different keys. -/
theorem child_of_key_eq {key : Rose α → κ} {ts : List (Rose α)}
    (hnodup : ((Rose.forestNodes ts).map key).Nodup) {s t u v : Rose α} (hs : s ∈ ts)
    (ht : t ∈ ts) (hu : u ∈ s.nodes) (hv : v ∈ t.nodes) (hkey : key u = key v) : s = t := by
  rw [Rose.forestNodes_eq_flatMap, List.map_flatMap, List.nodup_flatMap] at hnodup
  by_contra hne
  have : Std.Symm (Function.onFun List.Disjoint fun a : Rose α => a.nodes.map key) :=
    ⟨fun _ _ h _ hb ha => h ha hb⟩
  have hdisjoint : List.Disjoint (s.nodes.map key) (t.nodes.map key) :=
    hnodup.2.forall hs ht hne
  exact hdisjoint (List.mem_map_of_mem hu) (hkey ▸ List.mem_map_of_mem hv)

/-- The key of the last node fixes the path. -/
theorem IsPath.unique {key : Rose α → κ} {root : Rose α} (hnodup : (root.nodes.map key).Nodup)
    {p q : List (Rose α)} {u v : Rose α} (hp : IsPath root (p ++ [u]))
    (hq : IsPath root (q ++ [v])) (hkey : key u = key v) : p ++ [u] = q ++ [v] := by
  induction p generalizing root q with
  | nil =>
    obtain rfl : u = root := Option.some_inj.mp hp.1
    cases q with
    | nil => rw [Option.some_inj.mp hq.1]
    | cons b q =>
      exfalso
      obtain rfl : b = u := Option.some_inj.mp hq.1
      obtain ⟨c, r, hr⟩ : ∃ c r, q ++ [v] = c :: r := List.exists_cons_of_ne_nil (by simp)
      rw [List.cons_append, hr] at hq
      obtain ⟨hc, hpath⟩ := hq.cons
      rw [← hr] at hpath
      have hv := (Rose.nodes_sublist_of_mem hc).subset hpath.last_mem_nodes
      rw [Rose.nodes_eq, List.map_cons, List.nodup_cons] at hnodup
      exact hnodup.1 (hkey ▸ List.mem_map_of_mem hv)
  | cons a p ih =>
    obtain rfl : a = root := Option.some_inj.mp hp.1
    obtain ⟨c, r, hr⟩ : ∃ c r, p ++ [u] = c :: r := List.exists_cons_of_ne_nil (by simp)
    have hnodup' := hnodup
    rw [Rose.nodes_eq, List.map_cons, List.nodup_cons] at hnodup'
    rw [List.cons_append, hr] at hp
    obtain ⟨hc, hpc⟩ := hp.cons
    rw [← hr] at hpc
    cases q with
    | nil =>
      exfalso
      obtain rfl : v = a := Option.some_inj.mp hq.1
      have hu := (Rose.nodes_sublist_of_mem hc).subset hpc.last_mem_nodes
      exact hnodup'.1 (hkey ▸ List.mem_map_of_mem hu)
    | cons b q =>
      obtain rfl : b = a := Option.some_inj.mp hq.1
      obtain ⟨d, s, hs⟩ : ∃ d s, q ++ [v] = d :: s := List.exists_cons_of_ne_nil (by simp)
      rw [List.cons_append, hs] at hq
      obtain ⟨hd, hpd⟩ := hq.cons
      rw [← hs] at hpd
      obtain rfl : c = d :=
        child_of_key_eq hnodup'.2 hc hd hpc.last_mem_nodes hpd.last_mem_nodes hkey
      have hsub := (Rose.nodes_sublist_of_mem hc).map key
      have htail := ih (hnodup'.2.sublist hsub) hpc hpd
      rw [List.cons_append, List.cons_append, htail]

end

/-! ### Positions -/

section

variable {α κ : Type*}

structure Position (α : Type*) where
  node : Rose α
  up : List (Rose α)

namespace Rose

mutual
def positions (up : List (Rose α)) : Rose α → List (Position α)
  | .node a cs => ⟨.node a cs, up⟩ :: positionsOf (.node a cs :: up) cs

def positionsOf (up : List (Rose α)) : List (Rose α) → List (Position α)
  | [] => []
  | t :: ts => positions up t ++ positionsOf up ts
end

theorem positions_eq (up : List (Rose α)) (t : Rose α) :
    t.positions up = ⟨t, up⟩ :: positionsOf (t :: up) t.children := by
  cases t
  rfl

theorem positionsOf_eq_flatMap (up : List (Rose α)) (ts : List (Rose α)) :
    positionsOf up ts = ts.flatMap (positions up) := by
  induction ts with
  | nil => rfl
  | cons t ts ih =>
    rw [List.flatMap_cons, ← ih]
    rfl

/-- Every position of a tree is a path down from the root below what was above it. -/
theorem exists_path_of_mem_positions {p : Position α} (t : Rose α) :
    ∀ up, p ∈ t.positions up → ∃ q, p.up = q.reverse ++ up ∧ IsPath t (q ++ [p.node]) := by
  refine (tree_forest_induction
    (P := fun t => ∀ up, p ∈ t.positions up →
      ∃ q, p.up = q.reverse ++ up ∧ IsPath t (q ++ [p.node]))
    (Q := fun ts => ∀ t ∈ ts, ∀ up, p ∈ t.positions up →
      ∃ q, p.up = q.reverse ++ up ∧ IsPath t (q ++ [p.node]))
    (fun a cs ih up hp => ?_) (fun t ht => absurd ht List.not_mem_nil)
    (fun t ts iht ihts u hu => ?_)).1 t
  · rw [positions_eq] at hp
    rcases List.mem_cons.mp hp with rfl | hbelow
    · exact ⟨[], rfl, rfl, List.isChain_singleton _⟩
    · rw [positionsOf_eq_flatMap, List.mem_flatMap] at hbelow
      obtain ⟨c, hc, hmem⟩ := hbelow
      obtain ⟨q, hup, hpath⟩ := ih c hc _ hmem
      refine ⟨.node a cs :: q, ?_, hpath.of_child hc⟩
      rw [hup]
      simp
  · rcases List.mem_cons.mp hu with rfl | hu
    · exact iht
    · exact ihts u hu

/-- Every path is a position. -/
theorem mem_positions_of_path {x t : Rose α} {q : List (Rose α)} (h : IsPath t (q ++ [x]))
    (up : List (Rose α)) :
    ⟨x, q.reverse ++ up⟩ ∈ t.positions up := by
  rw [positions_eq]
  induction q generalizing t up with
  | nil =>
    obtain rfl : x = t := Option.some_inj.mp h.1
    exact List.mem_cons_self
  | cons a q ih =>
    obtain rfl : a = t := Option.some_inj.mp h.1
    obtain ⟨c, r, hr⟩ : ∃ c r, q ++ [x] = c :: r := List.exists_cons_of_ne_nil (by simp)
    rw [List.cons_append, hr] at h
    obtain ⟨hc, hbelow⟩ := h.cons
    rw [← hr] at hbelow
    have hmem := ih hbelow (a :: up)
    rw [← positions_eq] at hmem
    refine List.mem_cons_of_mem _ ?_
    rw [positionsOf_eq_flatMap, List.mem_flatMap, List.reverse_cons, List.append_assoc]
    exact ⟨c, hc, hmem⟩

/-- The parent of a position is one. -/
theorem mem_positions_parent {root x parent : Rose α} {up : List (Rose α)}
    (h : ⟨x, parent :: up⟩ ∈ root.positions []) : ⟨parent, up⟩ ∈ root.positions [] := by
  obtain ⟨q, hup, hpath⟩ := exists_path_of_mem_positions root [] h
  have hq : q = up.reverse ++ [parent] := by
    rw [List.append_nil] at hup
    rw [← List.reverse_reverse q, ← hup, List.reverse_cons]
  subst hq
  have hparent : IsPath root (up.reverse ++ [parent]) := by
    rw [List.append_assoc] at hpath
    exact (isPath_append_iff.mp hpath).1
  have hmem := mem_positions_of_path hparent []
  rwa [List.reverse_reverse, List.append_nil] at hmem

/-- Every ancestor of a position is one. -/
theorem mem_positions_of_suffix {root x node : Rose α} {up above : List (Rose α)}
    (h : ⟨x, up⟩ ∈ root.positions []) (hsuffix : node :: above <:+ up) :
    ⟨node, above⟩ ∈ root.positions [] := by
  induction up generalizing x with
  | nil => exact absurd (List.suffix_nil.mp hsuffix) (List.cons_ne_nil _ _)
  | cons parent up ih =>
    have hparent := mem_positions_parent h
    rcases List.suffix_cons_iff.mp hsuffix with heq | hsuffix
    · obtain ⟨rfl, rfl⟩ := List.cons_eq_cons.mp heq
      exact hparent
    · exact ih hparent hsuffix

/-- The key of a node fixes its position. -/
theorem position_unique {key : Rose α → κ} {root : Rose α} (hnodup : (root.nodes.map key).Nodup)
    {p q : Position α} (hp : p ∈ root.positions []) (hq : q ∈ root.positions [])
    (hkey : key p.node = key q.node) : p = q := by
  obtain ⟨above, hup, habove⟩ := exists_path_of_mem_positions root [] hp
  obtain ⟨above', hup', habove'⟩ := exists_path_of_mem_positions root [] hq
  obtain ⟨hpath, hnode⟩ := List.append_inj' (habove.unique hnodup habove' hkey) rfl
  obtain ⟨node, up⟩ := p
  obtain ⟨node', up'⟩ := q
  obtain rfl : node = node' := List.singleton_injective hnode
  obtain rfl : up = up' := hup.trans (hpath ▸ hup'.symm)
  rfl

theorem map_node_positions :
    (∀ (t : Rose α) up, (t.positions up).map Position.node = t.nodes) ∧
    ∀ (ts : List (Rose α)) up, (positionsOf up ts).map Position.node = forestNodes ts := by
  refine tree_forest_induction (fun a cs ih up => ?_) (fun up => rfl)
    (fun t ts iht ihts up => ?_)
  · rw [positions, List.map_cons, ih, nodes]
  · rw [positionsOf, List.map_append, iht, ihts, forestNodes]

theorem exists_path_of_mem_nodes {root t : Rose α} (h : t ∈ root.nodes) :
    ∃ p, IsPath root (p ++ [t]) := by
  rw [← map_node_positions.1 root []] at h
  obtain ⟨position, hmem, rfl⟩ := List.mem_map.mp h
  obtain ⟨p, -, hpath⟩ := exists_path_of_mem_positions root [] hmem
  exact ⟨p, hpath⟩

/-- Every node has a position. -/
theorem exists_position {root t : Rose α} (h : t ∈ root.nodes) :
    ∃ up, ⟨t, up⟩ ∈ root.positions [] := by
  rw [← map_node_positions.1 root []] at h
  obtain ⟨⟨node, up⟩, hmem, rfl⟩ := List.mem_map.mp h
  exact ⟨up, hmem⟩

/-- What is above a child is its parent, and what is above that. -/
theorem up_of_child {key : Rose α → κ} {root parent c : Rose α}
    (hnodup : (root.nodes.map key).Nodup) {above up : List (Rose α)}
    (hparent : ⟨parent, above⟩ ∈ root.positions []) (hc : ⟨c, up⟩ ∈ root.positions [])
    (hchild : c ∈ parent.children) : up = parent :: above := by
  obtain ⟨p, hup, hpath⟩ := exists_path_of_mem_positions root [] hparent
  have hmem := mem_positions_of_path (hpath.snoc hchild) []
  cases position_unique hnodup hc hmem rfl
  rw [List.append_nil] at hup ⊢
  rw [List.reverse_append, ← hup]
  rfl

/-- A node is the child of one node only. -/
theorem parent_unique {key : Rose α → κ} {root a b c : Rose α}
    (hnodup : (root.nodes.map key).Nodup) (ha : a ∈ root.nodes) (hb : b ∈ root.nodes)
    (hca : c ∈ a.children) (hcb : c ∈ b.children) : a = b := by
  obtain ⟨p, hp⟩ := exists_path_of_mem_nodes ha
  obtain ⟨q, hq⟩ := exists_path_of_mem_nodes hb
  have hsame := (hp.snoc hca).unique hnodup (hq.snoc hcb) rfl
  have hlast := congrArg List.getLast? (List.append_cancel_right hsame)
  rw [List.getLast?_concat, List.getLast?_concat] at hlast
  exact Option.some_inj.mp hlast

end Rose

/-- A node is told apart from its ancestors, where keys tell nodes apart. -/
theorem IsPath.nodup_keys {key : Rose α → κ} {root : Rose α}
    (hnodup : (root.nodes.map key).Nodup) {p : List (Rose α)} (h : IsPath root p) :
    (p.map key).Nodup := by
  induction p generalizing root with
  | nil => exact List.nodup_nil
  | cons a p ih =>
    obtain rfl : a = root := Option.some_inj.mp h.1
    cases p with
    | nil => exact List.nodup_singleton _
    | cons c p =>
      obtain ⟨hc, hbelow⟩ := h.cons
      have hsub := Rose.nodes_sublist_of_mem hc
      rw [Rose.nodes_eq, List.map_cons, List.nodup_cons] at hnodup
      rw [List.map_cons, List.nodup_cons]
      refine ⟨fun hmem => hnodup.1 ?_, ih (hnodup.2.sublist (hsub.map _)) hbelow⟩
      obtain ⟨x, hx, hkey⟩ := List.mem_map.mp hmem
      obtain ⟨i, hi, hget⟩ := List.mem_iff_getElem.mp hx
      have hprefix := hbelow.take (Nat.succ_pos i)
      rw [List.take_succ_eq_append_getElem hi, hget] at hprefix
      exact hkey ▸ List.mem_map_of_mem (hsub.subset hprefix.last_mem_nodes)

end

end BigCodeAnalysis.Trees
