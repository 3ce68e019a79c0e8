import BigCodeAnalysis.Languages.DoxygenDeclares

/-! A conditional on top of the stack is read with its whole nest before what is under it is
looked at, and its answer then stands in the memo and in the vector. The proof follows the
tree: a conditional's children are a forest whose unread members wait on the stack, the last
one on top. -/

namespace BigCodeAnalysis.Languages.Doxygen

open Sequences Spaces Trees Rose

variable {row : DoxygenRow}

/-! ### Nodes of distinct ids -/

/-- No two of these nodes share an id. -/
def Distinct (ns : List Node) : Prop := (ns.map Node.id).Nodup

theorem Distinct.children {a : NodeInfo} {cs : List Node} (h : Distinct (Rose.node a cs).nodes) :
    Distinct (forestNodes cs) := by
  rw [Distinct, nodes, List.map_cons] at h
  exact h.of_cons

theorem Distinct.root_notMem {a : NodeInfo} {cs : List Node} {read : List Node}
    (h : Distinct (Rose.node a cs).nodes)
    (hread : ∀ node : Node, node ∈ read → node ∈ forestNodes cs) :
    Node.id (.node a cs) ∉ read.map Node.id := by
  rw [Distinct, nodes, List.map_cons] at h
  intro hmem
  obtain ⟨b, hb, hid⟩ := List.mem_map.mp hmem
  exact (List.nodup_cons.mp h).1 (List.mem_map.mpr ⟨b, hread b hb, hid⟩)

theorem Distinct.append {us vs : List Node} (h : Distinct (us ++ vs)) :
    Distinct us ∧ Distinct vs ∧ List.Disjoint (us.map Node.id) (vs.map Node.id) := by
  rw [Distinct, List.map_append] at h
  exact List.nodup_append'.mp h

/-- Reading among other nodes leaves the memo alone on these. -/
theorem Filed.get_eq {memo memo' : NodeMemo} {read us vs : List Node}
    (h : Filed row memo memo' read) (hread : ∀ node : Node, node ∈ read → node ∈ vs)
    (hdisjoint : List.Disjoint (us.map Node.id) (vs.map Node.id)) {node : Node} (hnode : node ∈ us) :
    memo'.get node = memo.get node := by
  apply h.kept
  intro hmem
  obtain ⟨b, hb, hid⟩ := List.mem_map.mp hmem
  exact hdisjoint (List.mem_map_of_mem hnode) (hid ▸ List.mem_map_of_mem (hread b hb))

theorem CorrectOn.mono {memo : NodeMemo} {us vs : List Node} (h : CorrectOn row memo vs)
    (hsub : ∀ node : Node, node ∈ us → node ∈ vs) : CorrectOn row memo us :=
  fun node hnode => h node (hsub node hnode)

/-! ### A nest on top of the stack -/

/-- From these visits on top of the stack the loop comes to what is under them, at most two
turns for each node, having read their conditionals and others among `ns` and folded `a` into
`outer`. -/
def Reads (row : DoxygenRow) (top : List Visit) (ns : List Node) (count : ℕ) (outer : Option ℕ)
    (a : Bool) (memo : NodeMemo) (answers : List Bool) : Prop :=
  ∀ rest reads, ∃ n answers' memo' read,
    Loop.Steps (turn row) n ⟨top ++ rest, answers, memo, reads⟩
      ⟨rest, answers', memo', reads ++ read⟩ ∧
    n ≤ 2 * count ∧ Filed row memo memo' read ∧ (∀ node : Node, node ∈ read → node ∈ ns) ∧
    (∀ node o, Visit.read node o ∈ top → node ∈ read) ∧ Folded answers outer a answers'

/-- The visits that wait for the unread ones of a forest. -/
def waiting (row : DoxygenRow) (memo : NodeMemo) (own : ℕ) (ts : List Node) : List Visit :=
  (ts.filter (unread row memo)).reverse.map (Visit.read · (some own))

theorem waiting_cons (memo : NodeMemo) (own : ℕ) (t : Node) (ts : List Node) :
    waiting row memo own (t :: ts) =
      waiting row memo own ts ++ if unread row memo t then [Visit.read t (some own)] else [] := by
  by_cases h : unread row memo t = true
  · simp [waiting, h]
  · simp [waiting, h]

/-- The step for a conditional: its children's visits run between the two of its own. -/
theorem reads_node {a : NodeInfo} {cs : List Node} {memo : NodeMemo} {answers : List Bool}
    {outer : Option ℕ} (hdistinct : Distinct (Rose.node a cs).nodes)
    (hcorrect : CorrectOn row memo (Rose.node a cs).nodes)
    (hmemo : memo.get (.node a cs) = none) (houter : ∀ i ∈ outer, i < answers.length)
    (hchildren : ∀ d, Reads row (waiting row memo answers.length cs) (forestNodes cs)
      (forestSize cs) (some answers.length) ((cs.filter (unread row memo)).any (declares row))
      memo (answers ++ [d])) :
    Reads row [.read (.node a cs) outer] (Rose.node a cs).nodes (size (.node a cs)) outer
      (declares row (.node a cs)) memo answers := by
  intro rest reads
  let t : Node := .node a cs
  let d := cs.any (settles row memo t)
  have hchild : CorrectOn row memo cs := hcorrect.mono fun node hnode => by
    rw [nodes]
    exact List.mem_cons_of_mem _ (mem_forestNodes hnode)
  have hfirst : turn row ⟨[.read t outer] ++ rest, answers, memo, reads⟩ =
      some (.onward ⟨waiting row memo answers.length cs ++
        ([.answer t outer answers.length] ++ rest), answers ++ [d], memo, reads ++ [t]⟩) := by
    simp [turn, childrenDeclare, childrenDeclareFrom_eq, waiting, d, t]
  obtain ⟨n, answers₁, memo₁, read, hsteps, hn, hfiled, hread, -, folded, extra, hfolded, rfl⟩ :=
    hchildren d ([.answer t outer answers.length] ++ rest) (reads ++ [t])
  have hanswer : (d || (cs.filter (unread row memo)).any (declares row)) = declares row t := by
    rw [declares_eq, children_node, forestDeclares_eq t hchild]
  rw [foldInto_some (by simp), List.getElem_append_right (le_refl _)] at hfolded
  simp only [Nat.sub_self, List.getElem_cons_zero, hanswer] at hfolded
  rw [List.set_append_right _ _ (le_refl _), Nat.sub_self, List.set_cons_zero] at hfolded
  cases hfolded
  obtain ⟨outside, houtside⟩ : ∃ outside, foldInto answers (declares row t) outer = some outside := by
    cases outer with
    | none => exact ⟨_, rfl⟩
    | some i => exact ⟨_, foldInto_some (houter i rfl)⟩
  have hlast : turn row ⟨[.answer t outer answers.length] ++ rest,
      answers ++ [declares row t] ++ extra, memo₁, reads ++ [t] ++ read⟩ =
      some (.onward ⟨rest, outside ++ ([declares row t] ++ extra), memo₁.set t (declares row t),
        reads ++ (t :: read)⟩) := by
    have hfold : foldInto (answers ++ ([declares row t] ++ extra)) (declares row t) outer =
        some (outside ++ ([declares row t] ++ extra)) := by
      rw [foldInto_append _ _ houter, houtside, Option.map_some]
    simp only [List.singleton_append, List.append_assoc] at hfold ⊢
    simp [turn, hfold]
  refine ⟨n + 1 + 1, _, _, t :: read, ((Loop.Steps.one hfirst).trans hsteps).snoc hlast, ?_,
    hfiled.set hmemo (hdistinct.root_notMem hread), ?_, ?_, outside, _, houtside, rfl⟩
  · rw [size_node]
    omega
  · rw [nodes]
    exact List.forall_mem_cons.mpr
      ⟨List.mem_cons_self, fun node hnode => List.mem_cons_of_mem _ (hread node hnode)⟩
  · intro node o hnode
    cases List.mem_singleton.mp hnode
    exact List.mem_cons_self

/-- The step for a forest: the later trees' visits are on top of the first one's. -/
theorem reads_cons {t : Node} {ts : List Node} {memo₀ memo : NodeMemo} {answers : List Bool}
    {own : ℕ} (hdistinct : Distinct (forestNodes (t :: ts)))
    (hcorrect : CorrectOn row memo (forestNodes (t :: ts)))
    (hagree : ∀ node : Node, node ∈ forestNodes (t :: ts) → memo.get node = memo₀.get node)
    (hown : own < answers.length)
    (hfirst : ∀ memo answers, CorrectOn row memo t.nodes → memo.get t = none →
      own < answers.length →
      Reads row [.read t (some own)] t.nodes t.size (some own) (declares row t) memo answers)
    (hlater : Reads row (waiting row memo₀ own ts) (forestNodes ts) (forestSize ts) (some own)
      ((ts.filter (unread row memo₀)).any (declares row)) memo answers) :
    Reads row (waiting row memo₀ own (t :: ts)) (forestNodes (t :: ts)) (forestSize (t :: ts))
      (some own) (((t :: ts).filter (unread row memo₀)).any (declares row)) memo answers := by
  intro rest reads
  rw [forestNodes] at hdistinct hcorrect hagree ⊢
  obtain ⟨-, -, hdisjoint⟩ := hdistinct.append
  rw [forestSize_cons, waiting_cons]
  by_cases hunread : unread row memo₀ t = true
  · rw [if_pos hunread, List.filter_cons_of_pos hunread, List.append_assoc, List.any_cons]
    obtain ⟨n₁, answers₁, memo₁, read₁, hsteps₁, hn₁, hfiled₁, hread₁, htop₁, hfolded₁⟩ :=
      hlater ([.read t (some own)] ++ rest) reads
    have hget : ∀ node : Node, node ∈ t.nodes → memo₁.get node = memo.get node :=
      fun node hnode => hfiled₁.get_eq hread₁ hdisjoint hnode
    have ht : t ∈ t.nodes := by rw [nodes_eq]; exact List.mem_cons_self
    have hnone : memo₁.get t = none := by
      rw [hget t ht, hagree t (List.mem_append_left _ ht)]
      simp only [unread, Bool.and_eq_true, Option.isNone_iff_eq_none] at hunread
      exact hunread.2
    have hcorrect₁ : CorrectOn row memo₁ t.nodes :=
      (hcorrect.mono fun node hnode => List.mem_append_left _ hnode).congr hget
    have hown₁ : own < answers₁.length :=
      lt_of_lt_of_le hown (hfolded₁.length_le (by simpa using hown))
    obtain ⟨n₂, answers₂, memo₂, read₂, hsteps₂, hn₂, hfiled₂, hread₂, htop₂, hfolded₂⟩ :=
      hfirst memo₁ answers₁ hcorrect₁ hnone hown₁ rest (reads ++ read₁)
    rw [List.append_assoc] at hsteps₂
    refine ⟨n₂ + n₁, answers₂, memo₂, read₁ ++ read₂, hsteps₁.trans hsteps₂, by omega,
      hfiled₁.trans hfiled₂, ?_, ?_, hfolded₁.trans hown hfolded₂⟩
    · intro node hnode
      rcases List.mem_append.mp hnode with hnode | hnode
      · exact List.mem_append_right _ (hread₁ node hnode)
      · exact List.mem_append_left _ (hread₂ node hnode)
    · intro node o hnode
      rcases List.mem_append.mp hnode with hnode | hnode
      · exact List.mem_append_left _ (htop₁ node o hnode)
      · exact List.mem_append_right _ (htop₂ node o hnode)
  · rw [if_neg hunread, List.filter_cons_of_neg hunread, List.append_nil]
    obtain ⟨n, answers', memo', read, hsteps, hn, hfiled, hread, htop, hfolded⟩ :=
      hlater rest reads
    exact ⟨n, answers', memo', read, hsteps, by omega, hfiled,
      fun node hnode => List.mem_append_right _ (hread node hnode), htop, hfolded⟩

theorem reads_tree_forest :
    (∀ (t : Node) (memo : NodeMemo) (answers : List Bool) (outer : Option ℕ),
      Distinct t.nodes → CorrectOn row memo t.nodes → memo.get t = none →
      (∀ i ∈ outer, i < answers.length) →
      Reads row [.read t outer] t.nodes t.size outer (declares row t) memo answers) ∧
    ∀ (ts : List Node) (memo₀ memo : NodeMemo) (answers : List Bool) (own : ℕ),
      Distinct (forestNodes ts) → CorrectOn row memo (forestNodes ts) →
      (∀ node : Node, node ∈ forestNodes ts → memo.get node = memo₀.get node) →
      own < answers.length →
      Reads row (waiting row memo₀ own ts) (forestNodes ts) (forestSize ts) (some own)
        ((ts.filter (unread row memo₀)).any (declares row)) memo answers := by
  refine tree_forest_induction ?node ?nil ?cons
  case node =>
    intro a cs ih memo answers outer hdistinct hcorrect hmemo houter
    refine reads_node hdistinct hcorrect hmemo houter fun d => ?_
    refine ih memo memo _ _ hdistinct.children ?_ (fun _ _ => rfl) (by simp)
    exact hcorrect.mono fun node hnode => by
      rw [nodes]
      exact List.mem_cons_of_mem _ hnode
  case nil =>
    intro memo₀ memo answers own _ _ _ hown rest reads
    exact ⟨0, answers, memo, [], by simpa [waiting] using Loop.Steps.zero _, Nat.zero_le _,
      .nil memo, fun _ h => absurd h List.not_mem_nil, fun _ _ h => absurd h List.not_mem_nil,
      .false hown⟩
  case cons =>
    intro t ts iht ihts memo₀ memo answers own hdistinct hcorrect hagree hown
    have hparts := hdistinct
    rw [forestNodes] at hparts
    obtain ⟨ht, hts, -⟩ := hparts.append
    have hsub : ∀ node : Node, node ∈ forestNodes ts → node ∈ forestNodes (t :: ts) := by
      intro node hnode
      rw [forestNodes]
      exact List.mem_append_right _ hnode
    refine reads_cons hdistinct hcorrect hagree hown (fun memo answers hcorrect hnone hown => ?_) ?_
    · exact iht memo answers (some own) ht hcorrect hnone (by simpa using hown)
    · exact ihts memo₀ memo answers own hts (hcorrect.mono hsub)
        (fun node hnode => hagree node (hsub node hnode)) hown

/-! ### One question -/

/-- What the memo answers, it answers right. -/
def NodeMemo.Correct (memo : NodeMemo) (row : DoxygenRow) (tree : SyntaxTree) : Prop :=
  ∀ node : Node, node ∈ tree.root.nodes → ∀ a, memo.get node = some a →
    (a = true ↔ HoldsEntry row node)

theorem NodeMemo.correct_iff {memo : NodeMemo} {tree : SyntaxTree} :
    memo.Correct row tree ↔ CorrectOn row memo tree.root.nodes := by
  refine forall_congr' fun node => forall_congr' fun _ => forall_congr' fun a =>
    forall_congr' fun _ => ?_
  rw [← declares_iff]
  exact Bool.eq_iff_iff.symm

theorem NodeMemo.correct_default (tree : SyntaxTree) : NodeMemo.default.Correct row tree := by
  rintro node - a ⟨⟩

theorem conditionalDeclares_eq {tree : SyntaxTree} {lent : Option NodeMemo} {node : Node}
    (hlent : CorrectOn row (lent.getD .default) tree.root.nodes) (hnode : node ∈ tree.root.nodes) :
    ∃ memo read, conditionalDeclares row lent node = some ⟨declares row node, memo, read⟩ ∧
      Filed row (lent.getD .default) memo read ∧ (∀ c : Node, c ∈ read → c ∈ tree.root.nodes) := by
  rw [conditionalDeclares]
  cases hmemo : (lent.getD .default).get node with
  | some a =>
    refine ⟨_, [], ?_, .nil _, fun _ h => absurd h List.not_mem_nil⟩
    rw [hlent node hnode a hmemo]
  | none =>
    have hsub := nodes_sublist_nodes hnode
    have hdistinct : Distinct node.nodes := tree.distinct.sublist (hsub.map Node.id)
    obtain ⟨n, answers, memo, read, hsteps, hn, hfiled, hread, htop, -⟩ :=
      reads_tree_forest.1 node _ [] none hdistinct (hlent.mono fun c hc => hsub.subset hc) hmemo
        (fun _ h => by cases h) [] []
    have hrun : Loop.run (turn row) (2 * node.size + 1) ⟨[.read node none], [], _, []⟩ =
        some ⟨[], answers, memo, [] ++ read⟩ := hsteps.run_eq rfl (by omega)
    have hself : node ∈ read := htop node none List.mem_cons_self
    rw [hrun]
    refine ⟨memo, read, ?_, hfiled, fun c hc => hsub.subset (hread c hc)⟩
    simp [hfiled.stored node hself]

theorem asks_eq {tree : SyntaxTree} {nodes : List Node} {memo : NodeMemo}
    (hmemo : CorrectOn row memo tree.root.nodes)
    (hnodes : ∀ node : Node, node ∈ nodes → node ∈ tree.root.nodes) :
    ∃ memo' read, asks row nodes memo = some (nodes.map (declares row), memo', read) ∧
      Filed row memo memo' read ∧ (∀ c : Node, c ∈ read → c ∈ tree.root.nodes) := by
  induction nodes generalizing memo with
  | nil => exact ⟨memo, [], rfl, .nil memo, fun _ h => absurd h List.not_mem_nil⟩
  | cons node nodes ih =>
    obtain ⟨hnode, hrest⟩ := List.forall_mem_cons.mp hnodes
    have hlent : CorrectOn row ((some memo).getD .default) tree.root.nodes := hmemo
    obtain ⟨memo₁, read₁, hcall, hfiled₁, hread₁⟩ := conditionalDeclares_eq hlent hnode
    have hmemo₁ := hfiled₁.correctOn hmemo hread₁ tree.distinct
    obtain ⟨memo₂, read₂, hasks, hfiled₂, hread₂⟩ := ih hmemo₁ hrest
    refine ⟨memo₂, read₁ ++ read₂, ?_, hfiled₁.trans hfiled₂, ?_⟩
    · simp [asks, hcall, hasks]
    · intro c hc
      rcases List.mem_append.mp hc with hc | hc
      · exact hread₁ c hc
      · exact hread₂ c hc

/-! ### What the memo is left with -/

/-- Between two states of the memo the conditionals in `reads` were read: the memo has the
right answer of each and nothing wrong, none is read twice, and none was answered before. -/
structure Filing (row : DoxygenRow) (tree : SyntaxTree) (before after : NodeMemo)
    (reads : List Node) : Prop where
  stored : ∀ c : Node, c ∈ reads → ∃ a, after.get c = some a ∧ (a = true ↔ HoldsEntry row c)
  correct : after.Correct row tree
  once : (reads.map Node.id).Nodup
  fresh : ∀ c : Node, c ∈ reads → before.get c = none

theorem Filed.filing {tree : SyntaxTree} {before after : NodeMemo} {reads : List Node}
    (h : Filed row before after reads) (hbefore : CorrectOn row before tree.root.nodes)
    (hreads : ∀ c : Node, c ∈ reads → c ∈ tree.root.nodes) :
    Filing row tree before after reads where
  stored c hc := ⟨_, h.stored c hc, declares_iff⟩
  correct := NodeMemo.correct_iff.mpr (h.correctOn hbefore hreads tree.distinct)
  once := h.once
  fresh := h.fresh

theorem forall₂_declares (nodes : List Node) :
    List.Forall₂ (fun answer node => answer = true ↔ HoldsEntry row node)
      (nodes.map (declares row)) nodes :=
  List.forall₂_map_left_iff.mpr (List.forall₂_same.mpr fun _ _ => declares_iff)

/-- A call with the memo it is lent, or with its own, answers whether the nest holds an entry.
The calls of one walk answer so too, and together read each conditional at most once. -/
theorem conditionalDeclares_spec (row : DoxygenRow) (tree : SyntaxTree) (lent : Option NodeMemo)
    (nodes : List Node) (hlent : (lent.getD .default).Correct row tree)
    (hnodes : ∀ node : Node, node ∈ nodes → node ∈ tree.root.nodes) :
    (∀ node : Node, node ∈ nodes → ∃ outcome, conditionalDeclares row lent node = some outcome ∧
      (outcome.answer = true ↔ HoldsEntry row node) ∧
      Filing row tree (lent.getD .default) outcome.memo outcome.reads) ∧
    ∃ answers memo reads, asks row nodes (lent.getD .default) = some (answers, memo, reads) ∧
      List.Forall₂ (fun answer node => answer = true ↔ HoldsEntry row node) answers nodes ∧
      Filing row tree (lent.getD .default) memo reads := by
  have hcorrect := NodeMemo.correct_iff.mp hlent
  constructor
  · intro node hnode
    obtain ⟨memo, reads, hcall, hfiled, hreads⟩ := conditionalDeclares_eq hcorrect (hnodes node hnode)
    exact ⟨_, hcall, declares_iff, hfiled.filing hcorrect hreads⟩
  · obtain ⟨memo, reads, hasks, hfiled, hreads⟩ := asks_eq hcorrect hnodes
    exact ⟨_, memo, reads, hasks, forall₂_declares nodes, hfiled.filing hcorrect hreads⟩

/-- Kind 1 is a conditional and kind 2 an entry. -/
def plainRow : DoxygenRow where
  docTargetRow _ node := node.label.kindId == 2
  conditionalKind kind := kind == 1
  isError _ := false
  isNamed _ := true
  isComment _ := false

/-- An entry between two conditionals that hold none. -/
def smallNest : SyntaxTree where
  root := .node ⟨1, 1, 0, 0, 3, 0⟩
    [.node ⟨2, 1, 0, 0, 0, 0⟩ [], .node ⟨3, 2, 0, 1, 1, 6⟩ [], .node ⟨4, 1, 0, 2, 2, 0⟩ []]
  distinct := by decide
  nonzero := by simp [nodes, forestNodes, Node.id]

theorem conditionalDeclares_spec_small :
    (∀ node : Node, node ∈ [smallNest.root] → ∃ outcome,
      conditionalDeclares plainRow none node = some outcome ∧
      (outcome.answer = true ↔ HoldsEntry plainRow node) ∧
      Filing plainRow smallNest .default outcome.memo outcome.reads) ∧
    ∃ answers memo reads, asks plainRow [smallNest.root] .default = some (answers, memo, reads) ∧
      List.Forall₂ (fun answer node => answer = true ↔ HoldsEntry plainRow node) answers
        [smallNest.root] ∧
      Filing plainRow smallNest .default memo reads :=
  conditionalDeclares_spec plainRow smallNest none [smallNest.root] (NodeMemo.correct_default _)
    (by simp [smallNest, nodes])

example : (conditionalDeclares plainRow none smallNest.root).map
    (fun outcome => (outcome.answer, outcome.reads.map Node.id)) = some (true, [1, 4, 2]) := by
  decide

end BigCodeAnalysis.Languages.Doxygen
