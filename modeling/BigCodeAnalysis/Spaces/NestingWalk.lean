import BigCodeAnalysis.Spaces.FoldCache
import BigCodeAnalysis.Spaces.SpaceTree
import BigCodeAnalysis.Trees.StackSteps

/-! The nesting map over a whole metrics walk. A parent seeds its children as it is left, and a
slot goes when its node is visited or pruned, so the map never holds more than the stack. One
visit writes to the slots of the node and of its children only, and while a child is pending no
other visit does; the child therefore finds what its parent left for it, and the map is empty in
the end. -/

namespace BigCodeAnalysis.Spaces

open Trees Trees.StackWalk

variable {R : Type*}

/-- A suite whose cognitive computation touches only the slots of the node and of its
children. -/
structure LocalSuite (R : Type*) where
  suite : MetricSuite R
  writes : ∀ (ancestors : Ancestors) (node : Node) (rest : R) (map : NestingMap) (id : ℕ),
    id ≠ node.id → (∀ c : Node, c ∈ node.children → id ≠ c.id) →
      (suite.computeCognitive ancestors node (rest, map)).2 id = map id

/-- A node is one condition deeper than what it finds in its slot, and its first child one lambda
deeper than it. -/
def guardedNesting (node : Node) (map : NestingMap) : NestingMap :=
  let inherited := (map node.id).getD ⟨0, 0, 0⟩
  let own := { inherited with conditional := inherited.conditional + 1 }
  node.children.head?.elim (Function.update map node.id (some own)) fun (child : Node) =>
    Function.update (Function.update map node.id (some own)) child.id
      (some { own with lambda := own.lambda + 1 })

/-- The symbols' suite with that nesting. -/
def guardedSuite : LocalSuite Unit where
  suite := { symbolSuite with
    computeCognitive := fun _ node p => (p.1, guardedNesting node p.2) }
  writes _ node _ map id hid hchildren := by
    show guardedNesting node map id = map id
    unfold guardedNesting
    cases hhead : node.children.head? with
    | none => exact Function.update_of_ne hid _ _
    | some child =>
      have hchild := hchildren child (List.mem_of_mem_head? hhead)
      rw [Option.elim_some, Function.update_of_ne hchild, Function.update_of_ne hid]

section
variable (lang : Language) (suite : LocalSuite R) (options : MetricsOptions)

/-- The map right after the node's own computation. -/
def computedNesting (s : WalkState R) (node : Node) (walk : Walk) : NestingMap :=
  let s := closeDeeper suite.suite options walk.level { s with chain := s.chain.take walk.depth }
  match applyCommentSuppression lang (openNode lang suite.suite options s node walk.level).1
    node with
  | [] => s.nestingMap
  | state :: _ =>
    (computePerNode suite.suite options ⟨lang.promotesToFuncSpaceWithCode s.chain node,
      walk.inComment || lang.isComment node⟩ s.chain node state s.nestingMap).2

theorem closeDeeper_nestingMap (level : ℕ) (s : WalkState R) :
    (closeDeeper suite.suite options level s).nestingMap = s.nestingMap := by
  rw [closeDeeper]
  split <;> rfl

/-- What a visit makes of the map, when it skips the node and when it enters it. -/
theorem metricsVisit_nestingMap (s : WalkState R) (node : Node) (walk : Walk) :
    let (s', next) := metricsVisit lang suite.suite options s node walk
    match next with
    | none => s'.nestingMap =
      if .cognitive ∈ options.selected then Function.update s.nestingMap node.id none
      else s.nestingMap
    | some _ => s'.nestingMap =
      if .cognitive ∈ options.selected then
        propagateNestingToChildren node (computedNesting lang suite options s node walk)
      else computedNesting lang suite options s node walk := by
  have hclosed :=
    closeDeeper_nestingMap suite options walk.level { s with chain := s.chain.take walk.depth }
  rw [metricsVisit, computedNesting]
  generalize closeDeeper suite.suite options walk.level { s with chain := s.chain.take walk.depth } =
    closed at *
  dsimp only at hclosed ⊢
  unfold visitNode
  rcases skipVerdict lang options closed.chain node closed.runVerdict with ⟨_ | _, verdict⟩
  · rcases openNode lang suite.suite options closed node walk.level with ⟨stack, last, level⟩
    dsimp only
    cases applyCommentSuppression lang stack node <;> rfl
  · dsimp only
    rw [if_pos rfl, pruneNode, hclosed]

theorem nestingMap_of_skip {s : WalkState R} {node : Node} {walk : Walk}
    (h : (metricsVisit lang suite.suite options s node walk).2 = none) :
    (metricsVisit lang suite.suite options s node walk).1.nestingMap =
      if .cognitive ∈ options.selected then Function.update s.nestingMap node.id none
      else s.nestingMap := by
  have hvisit := metricsVisit_nestingMap lang suite options s node walk
  dsimp only at hvisit
  rwa [h] at hvisit

theorem nestingMap_of_enter {s : WalkState R} {node : Node} {walk next : Walk}
    (h : (metricsVisit lang suite.suite options s node walk).2 = some next) :
    (metricsVisit lang suite.suite options s node walk).1.nestingMap =
      if .cognitive ∈ options.selected then
        propagateNestingToChildren node (computedNesting lang suite options s node walk)
      else computedNesting lang suite options s node walk := by
  have hvisit := metricsVisit_nestingMap lang suite options s node walk
  dsimp only at hvisit
  rwa [h] at hvisit

/-- The computation is cognitive's where that is selected, or there is none. -/
theorem computedNesting_eq (s : WalkState R) (node : Node) (walk : Walk) :
    computedNesting lang suite options s node walk = s.nestingMap ∨
      .cognitive ∈ options.selected ∧ ∃ ancestors rest,
        computedNesting lang suite options s node walk =
          (suite.suite.computeCognitive ancestors node (rest, s.nestingMap)).2 := by
  have hclosed :=
    closeDeeper_nestingMap suite options walk.level { s with chain := s.chain.take walk.depth }
  rw [computedNesting]
  generalize closeDeeper suite.suite options walk.level { s with chain := s.chain.take walk.depth } =
    closed at *
  dsimp only at hclosed ⊢
  cases applyCommentSuppression lang
      (openNode lang suite.suite options closed node walk.level).1 node with
  | nil => exact Or.inl hclosed
  | cons state below =>
    rw [← hclosed]
    simp only [computePerNode]
    split_ifs with hselected
    · exact Or.inr ⟨hselected, _, _, rfl⟩
    · exact Or.inl rfl

theorem computedNesting_of_ne (s : WalkState R) (node : Node) (walk : Walk) {id : ℕ}
    (hid : id ≠ node.id) (hchildren : ∀ c : Node, c ∈ node.children → id ≠ c.id) :
    computedNesting lang suite options s node walk id = s.nestingMap id := by
  rcases computedNesting_eq lang suite options s node walk with hnone | ⟨-, ancestors, rest, hrest⟩
  · rw [hnone]
  · rw [hrest, suite.writes _ _ _ _ _ hid hchildren]

theorem computedNesting_gated (hselected : .cognitive ∉ options.selected) (s : WalkState R)
    (node : Node) (walk : Walk) :
    computedNesting lang suite options s node walk = s.nestingMap := by
  rcases computedNesting_eq lang suite options s node walk with hnone | ⟨hin, -⟩
  · exact hnone
  · exact absurd hin hselected

/-! ### Seeding the children -/

omit suite in
theorem seed_apply (inherited : Nesting) (id : ℕ) (children : List Node) (map : NestingMap) :
    children.foldl (fun map (child : Node) => if (map child.id).isSome then map
        else Function.update map child.id (some inherited)) map id =
      if id ∈ children.map Node.id then (map id).or (some inherited) else map id := by
  induction children generalizing map with
  | nil => rfl
  | cons child children ih =>
    rw [List.foldl_cons, ih, List.map_cons]
    by_cases hid : id = child.id
    · subst hid
      rw [if_pos List.mem_cons_self]
      cases hslot : map child.id with
      | none => simp
      | some held => simp [hslot]
    · have hslot : (if (map child.id).isSome = true then map
          else Function.update map child.id (some inherited)) id = map id := by
        split
        · rfl
        · exact Function.update_of_ne hid _ _
      rw [hslot]
      simp [hid]

omit suite in
/-- The map after a node is left: its own slot is gone, and its children have theirs or its
own. -/
theorem propagate_apply {node : Node} (map : NestingMap)
    (hfresh : ∀ c : Node, c ∈ node.children → c.id ≠ node.id) (id : ℕ) :
    propagateNestingToChildren node map id =
      if id = node.id then none
      else if id ∈ node.children.map Node.id then (map id).or (map node.id)
      else map id := by
  rw [propagateNestingToChildren]
  cases hslot : map node.id with
  | none =>
    by_cases hid : id = node.id
    · rw [if_pos hid, hid]
      exact hslot
    · rw [if_neg hid, Option.or_none, ite_self]
  | some inherited =>
    have hown : node.id ∉ node.children.map Node.id := by
      intro hmem
      obtain ⟨c, hc, hid⟩ := List.mem_map.mp hmem
      exact hfresh c hc hid
    dsimp only
    rw [seed_apply]
    by_cases hid : id = node.id
    · subst hid
      rw [if_neg hown, if_pos rfl, Function.update_self]
    · rw [if_neg hid, Function.update_of_ne hid]

/-! ### The run -/

variable (tree : SyntaxTree)

/-- The walk before its first pop. -/
def nestingStart : Config NodeInfo Walk (WalkState R) :=
  ⟨[(tree.root, .root)], WalkState.initial lang suite.suite tree.root⟩

abbrev Run (c d : Config NodeInfo Walk (WalkState R)) : Prop :=
  Reaches .leftmostOnTop (metricsVisit lang suite.suite options) c d

/-- Every live slot is that of a node on the stack. -/
def LiveOnStack (c : Config NodeInfo Walk (WalkState R)) : Prop :=
  ∀ id, (c.state.nestingMap id).isSome = true → id ∈ c.stack.map fun p => Node.id p.1

structure Sound (c : Config NodeInfo Walk (WalkState R)) : Prop where
  forest : c.forest.Sublist tree.root.nodes
  live : LiveOnStack c
  gated : .cognitive ∉ options.selected → ∀ id, c.state.nestingMap id = none

variable {lang suite options tree}

theorem sound_start : Sound options tree (nestingStart lang suite tree) where
  forest := by
    rw [nestingStart, Config.forest_cons, Rose.nodes_eq]
    simp [Rose.forestNodes]
  live id h := by
    rw [nestingStart, WalkState.initial] at h
    cases h
  gated _ _ := rfl

/-- The nodes below a node have other ids than it. -/
theorem id_ne_of_mem_forestNodes {t x : Node} (ht : t ∈ tree.root.nodes)
    (hx : x ∈ Rose.forestNodes t.children) : x.id ≠ t.id := by
  have hnodes := tree.distinct.sublist ((Rose.nodes_sublist_nodes ht).map Node.id)
  rw [Rose.nodes_eq, List.map_cons, List.nodup_cons] at hnodes
  exact fun hid => hnodes.1 (hid ▸ List.mem_map_of_mem hx)

theorem nestingMap_enter_apply (hselected : .cognitive ∈ options.selected) {s : WalkState R}
    {t : Node} {k next : Walk} (ht : t ∈ tree.root.nodes)
    (h : (metricsVisit lang suite.suite options s t k).2 = some next) (id : ℕ) :
    (metricsVisit lang suite.suite options s t k).1.nestingMap id =
      if id = t.id then none
      else if id ∈ t.children.map Node.id then
        (computedNesting lang suite options s t k id).or
          (computedNesting lang suite options s t k t.id)
      else computedNesting lang suite options s t k id := by
  rw [nestingMap_of_enter lang suite options h, if_pos hselected]
  exact propagate_apply _ (fun c hc => id_ne_of_mem_forestNodes ht (Rose.mem_forestNodes hc)) id

theorem Sound.step {c d : Config NodeInfo Walk (WalkState R)} (h : Sound options tree c)
    (hstep : Step .leftmostOnTop (metricsVisit lang suite.suite options) c d) :
    Sound options tree d := by
  have hsub : d.forest.Sublist tree.root.nodes :=
    (Reaches.forest_sublist (Relation.ReflTransGen.single hstep)).trans h.forest
  cases hstep with
  | @skip t k rest s hvisit =>
    have hmap := nestingMap_of_skip lang suite options hvisit
    by_cases hselected : .cognitive ∈ options.selected
    · rw [if_pos hselected] at hmap
      refine ⟨hsub, fun id hid => ?_, fun hnot => absurd hselected hnot⟩
      dsimp only at hid ⊢
      rw [hmap] at hid
      by_cases hown : id = Node.id t
      · rw [hown, Function.update_self] at hid
        cases hid
      · rw [Function.update_of_ne hown] at hid
        exact (List.mem_cons.mp (h.live id hid)).resolve_left hown
    · rw [if_neg hselected] at hmap
      have hnone := h.gated hselected
      refine ⟨hsub, fun id hid => ?_, fun _ id => ?_⟩
      · dsimp only at hid
        rw [hmap, hnone id] at hid
        cases hid
      · dsimp only
        rw [hmap, hnone id]
  | @enter t k rest s next hvisit =>
    have ht : t ∈ tree.root.nodes := h.forest.subset (by
      rw [Config.forest_cons]
      exact List.mem_cons_self)
    by_cases hselected : .cognitive ∈ options.selected
    · have hmap := nestingMap_enter_apply hselected ht hvisit
      refine ⟨hsub, fun id hid => ?_, fun hnot => absurd hselected hnot⟩
      dsimp only at hid ⊢
      rw [hmap] at hid
      rw [List.map_append, List.map_map, List.mem_append]
      split at hid
      · cases hid
      · next hown =>
        split at hid
        · next hchild => exact Or.inl hchild
        · next hchild =>
          have hne : ∀ c : Node, c ∈ t.children → id ≠ c.id :=
            fun c hc hsame => hchild (hsame ▸ List.mem_map_of_mem hc)
          rw [computedNesting_of_ne lang suite options s t k hown hne] at hid
          exact Or.inr ((List.mem_cons.mp (h.live id hid)).resolve_left hown)
    · have hmap := nestingMap_of_enter lang suite options hvisit
      rw [if_neg hselected, computedNesting_gated lang suite options hselected] at hmap
      have hnone := h.gated hselected
      refine ⟨hsub, fun id hid => ?_, fun _ id => ?_⟩
      · dsimp only at hid
        rw [hmap, hnone id] at hid
        cases hid
      · dsimp only
        rw [hmap, hnone id]

theorem sound_of_run {c : Config NodeInfo Walk (WalkState R)}
    (h : Run lang suite options (nestingStart lang suite tree) c) : Sound options tree c := by
  induction h with
  | refl => exact sound_start
  | tail _ hstep ih => exact ih.step hstep

/-- Right after a node's computation the live slots are those of nodes on the stack, of the
node, or of the children that go on the stack next. -/
theorem live_computed {t : Node} {k : Walk} {rest : List (Node × Walk)} {s : WalkState R}
    (h : Run lang suite options (nestingStart lang suite tree) ⟨(t, k) :: rest, s⟩) (id : ℕ)
    (hid : (computedNesting lang suite options s t k id).isSome = true) :
    id = t.id ∨ id ∈ t.children.map Node.id ∨ id ∈ rest.map fun p => Node.id p.1 := by
  by_cases hown : id = t.id
  · exact Or.inl hown
  by_cases hchild : id ∈ t.children.map Node.id
  · exact Or.inr (Or.inl hchild)
  have hne : ∀ c : Node, c ∈ t.children → id ≠ c.id :=
    fun c hc hsame => hchild (hsame ▸ List.mem_map_of_mem hc)
  rw [computedNesting_of_ne lang suite options s t k hown hne] at hid
  exact Or.inr (Or.inr ((List.mem_cons.mp ((sound_of_run h).live id hid)).resolve_left hown))

variable (tree) in
/-- While a child is pending, its slot is as its parent left it. -/
structure Pending (t : Node) (left : NestingMap) (c : Config NodeInfo Walk (WalkState R)) :
    Prop where
  forest : c.forest.Sublist tree.root.nodes
  gone : t ∉ c.forest
  slots : ∀ p ∈ c.stack, p.1 ∈ t.children → c.state.nestingMap (Node.id p.1) = left (Node.id p.1)

/-- A node that stays on the stack is neither visited nor a child of the node visited. -/
theorem nestingMap_of_stays {t : Node} {k : Walk} {rest : List (Node × Walk)} {s : WalkState R}
    (hforest : (Config.mk ((t, k) :: rest) s).forest.Sublist tree.root.nodes) {p : Node × Walk}
    (hp : p ∈ rest) :
    (metricsVisit lang suite.suite options s t k).1.nestingMap (Node.id p.1) =
      s.nestingMap (Node.id p.1) := by
  have hnodup := tree.distinct.sublist (hforest.map Node.id)
  rw [Config.forest_cons, List.map_cons, List.nodup_cons, List.map_append, List.nodup_append]
    at hnodup
  have hmem : Node.id p.1 ∈ (Rose.forestNodes (rest.map Prod.fst)).map Node.id :=
    List.mem_map_of_mem (Rose.mem_forestNodes (List.mem_map_of_mem hp))
  have hown : Node.id p.1 ≠ Node.id t := fun hid =>
    hnodup.1 (List.mem_append_right _ (hid ▸ hmem))
  have hchild : ∀ c : Node, c ∈ t.children → Node.id p.1 ≠ c.id := fun c hc hid =>
    hnodup.2.2.2 _ (List.mem_map_of_mem (Rose.mem_forestNodes hc)) _ hmem hid.symm
  have ht : t ∈ tree.root.nodes := hforest.subset (by
    rw [Config.forest_cons]
    exact List.mem_cons_self)
  have hcomputed := computedNesting_of_ne lang suite options s t k hown hchild
  cases hnext : (metricsVisit lang suite.suite options s t k).2 with
  | none =>
    rw [nestingMap_of_skip lang suite options hnext]
    split
    · exact Function.update_of_ne hown _ _
    · rfl
  | some next =>
    by_cases hselected : .cognitive ∈ options.selected
    · rw [nestingMap_enter_apply hselected ht hnext, if_neg hown, if_neg, hcomputed]
      intro hin
      obtain ⟨c, hc, hid⟩ := List.mem_map.mp hin
      exact hchild c hc hid.symm
    · rw [nestingMap_of_enter lang suite options hnext, if_neg hselected, hcomputed]

theorem Pending.step {t : Node} {left : NestingMap} {c d : Config NodeInfo Walk (WalkState R)}
    (ht : t ∈ tree.root.nodes) (h : Pending tree t left c)
    (hstep : Step .leftmostOnTop (metricsVisit lang suite.suite options) c d) :
    Pending tree t left d := by
  have hsub : d.forest.Sublist c.forest :=
    Reaches.forest_sublist (Relation.ReflTransGen.single hstep)
  refine ⟨hsub.trans h.forest, fun hin => h.gone (hsub.subset hin), ?_⟩
  cases hstep with
  | @skip u k rest s hvisit =>
    intro p hp hchild
    dsimp only at hp ⊢
    rw [nestingMap_of_stays h.forest hp]
    exact h.slots p (List.mem_cons_of_mem _ hp) hchild
  | @enter u k rest s next hvisit =>
    intro p hp hchild
    dsimp only at hp ⊢
    rcases List.mem_append.mp hp with hp | hp
    · obtain ⟨c, hc, rfl⟩ := List.mem_map.mp hp
      have hu : u ∈ (Config.mk ((u, k) :: rest) s).forest := by
        rw [Config.forest_cons]
        exact List.mem_cons_self
      have hsame : t = u := Rose.parent_unique tree.distinct ht (h.forest.subset hu) hchild hc
      exact absurd (hsame ▸ hu) h.gone
    · rw [nestingMap_of_stays h.forest hp]
      exact h.slots p (List.mem_cons_of_mem _ hp) hchild

/-- What a node finds in its slot when it is popped: what its parent's computation left in it,
or else in the parent's own slot. -/
theorem slot_of_child {t c : Node} {k next k' : Walk} {rest rest' : List (Node × Walk)}
    {s s' : WalkState R}
    (hrun : Run lang suite options (nestingStart lang suite tree) ⟨(t, k) :: rest, s⟩)
    (henter : (metricsVisit lang suite.suite options s t k).2 = some next)
    (hafter : Run lang suite options ⟨t.children.map (·, next) ++ rest,
      (metricsVisit lang suite.suite options s t k).1⟩ ⟨(c, k') :: rest', s'⟩)
    (hc : c ∈ t.children) :
    s'.nestingMap c.id =
      (computedNesting lang suite options s t k c.id).or
        (computedNesting lang suite options s t k t.id) := by
  have hsound := sound_of_run hrun
  have hforest := hsound.forest
  have ht : t ∈ tree.root.nodes := hforest.subset (by
    rw [Config.forest_cons]
    exact List.mem_cons_self)
  have hstep : Step .leftmostOnTop (metricsVisit lang suite.suite options) ⟨(t, k) :: rest, s⟩
      ⟨t.children.map (·, next) ++ rest, (metricsVisit lang suite.suite options s t k).1⟩ :=
    Step.enter henter
  have hslot : ∀ c : Node, c ∈ t.children →
      (metricsVisit lang suite.suite options s t k).1.nestingMap c.id =
        (computedNesting lang suite options s t k c.id).or
          (computedNesting lang suite options s t k t.id) := by
    intro c hc
    have hne := id_ne_of_mem_forestNodes ht (Rose.mem_forestNodes hc)
    by_cases hselected : .cognitive ∈ options.selected
    · rw [nestingMap_enter_apply hselected ht henter, if_neg hne, if_pos (List.mem_map_of_mem hc)]
    · have hnone := hsound.gated hselected
      dsimp only at hnone
      rw [nestingMap_of_enter lang suite options henter, if_neg hselected,
        computedNesting_gated lang suite options hselected, hnone, hnone, Option.or_none]
  have hsub : (Config.mk (t.children.map (·, next) ++ rest)
      (metricsVisit lang suite.suite options s t k).1).forest.Sublist
        (Rose.forestNodes t.children ++ Rose.forestNodes (rest.map Prod.fst)) := by
    obtain ⟨t', k', rest', hstack, hsub⟩ := hstep.forest_sublist
    obtain ⟨hhead, rfl⟩ := List.cons.inj hstack
    obtain ⟨rfl, rfl⟩ := Prod.mk.inj hhead
    exact hsub
  have hpending : Pending tree t (fun id =>
      (computedNesting lang suite options s t k id).or
        (computedNesting lang suite options s t k t.id))
      ⟨t.children.map (·, next) ++ rest, (metricsVisit lang suite.suite options s t k).1⟩ := by
    rw [Config.forest_cons] at hforest
    refine ⟨(hsub.trans (List.sublist_cons_self _ _)).trans hforest, fun hin => ?_,
      fun p _ hchild => hslot p.1 hchild⟩
    have hnodup := tree.distinct.sublist (hforest.map Node.id)
    rw [List.map_cons, List.nodup_cons] at hnodup
    exact hnodup.1 (List.mem_map_of_mem (hsub.subset hin))
  have hall : ∀ d, Run lang suite options ⟨t.children.map (·, next) ++ rest,
      (metricsVisit lang suite.suite options s t k).1⟩ d → Pending tree t (fun id =>
        (computedNesting lang suite options s t k id).or
          (computedNesting lang suite options s t k t.id)) d := by
    intro d hd
    induction hd with
    | refl => exact hpending
    | tail _ hnext ih => exact ih.step ht hnext
  exact (hall _ hafter).slots (c, k') List.mem_cons_self hc

variable (lang suite options tree)

/-- The nesting map along a walk: at each pop, and within each visit, its slots are those of
the stack and of the node visited; a child finds what its parent's computation left; and at the
end the map is empty. -/
theorem nestingMap_follows_stack :
    (∀ c, Run lang suite options (nestingStart lang suite tree) c → LiveOnStack c) ∧
    (∀ (t : Node) (k : Walk) (rest : List (Node × Walk)) (s : WalkState R),
      Run lang suite options (nestingStart lang suite tree) ⟨(t, k) :: rest, s⟩ →
        ∀ id, (computedNesting lang suite options s t k id).isSome = true →
          id = t.id ∨ id ∈ t.children.map Node.id ∨ id ∈ rest.map fun p => Node.id p.1) ∧
    (∀ (t c : Node) (k next k' : Walk) (rest rest' : List (Node × Walk)) (s s' : WalkState R),
      Run lang suite options (nestingStart lang suite tree) ⟨(t, k) :: rest, s⟩ →
        (metricsVisit lang suite.suite options s t k).2 = some next →
        Run lang suite options ⟨t.children.map (·, next) ++ rest,
          (metricsVisit lang suite.suite options s t k).1⟩ ⟨(c, k') :: rest', s'⟩ →
        c ∈ t.children → s'.nestingMap c.id =
          (computedNesting lang suite options s t k c.id).or
            (computedNesting lang suite options s t k t.id)) ∧
    (run .leftmostOnTop (metricsVisit lang suite.suite options) tree.root .root
      (WalkState.initial lang suite.suite tree.root)).nestingMap = fun _ => none := by
  refine ⟨fun c hc => (sound_of_run hc).live, fun t k rest s hrun => live_computed hrun,
    fun t c k next k' rest rest' s s' hrun henter hafter hc => slot_of_child hrun henter hafter hc,
    ?_⟩
  funext id
  have hend := (sound_of_run (reaches_run tree.root Walk.root _ :
    Run lang suite options (nestingStart lang suite tree) _)).live id
  by_contra hsome
  have hmem := hend (Option.isSome_iff_ne_none.mpr hsome)
  cases hmem

end

/-- The function below a file finds what the file wrote for it; the map is empty at the end. -/
theorem nestingMap_follows_stack_twoStatements :
    let options : MetricsOptions := ⟨{.cognitive}, false⟩
    let visit := metricsVisit symbolLanguage guardedSuite.suite options
    let start := WalkState.initial symbolLanguage guardedSuite.suite twoStatements.root
    (visit start twoStatements.root .root).1.nestingMap 2 = some ⟨1, 0, 1⟩ ∧
      (run .leftmostOnTop visit twoStatements.root .root start).nestingMap = fun _ => none := by
  intro options visit start
  obtain ⟨-, -, hslot, hend⟩ :=
    nestingMap_follows_stack symbolLanguage guardedSuite options twoStatements
  refine ⟨?_, hend⟩
  exact (hslot twoStatements.root _ .root _ _ [] [] start _ .refl rfl .refl
    List.mem_cons_self).trans rfl

end BigCodeAnalysis.Spaces
