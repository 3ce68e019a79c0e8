import BigCodeAnalysis.Languages.Elixir.WhenGuards

/-! The memo of a walk gives every token of a repeated guard the answer of its own climb, and
tests the position of a chain once. Nested operators share the answer, since their climbs end
at one ancestor: whatever a climb files is right for each operator it passed, and what was
tested is filed, so that no later climb tests it again. The operators of a repeated guard are
linked by their right operands; each introduces an alternative of its own, and together they
introduce all of them. -/

namespace BigCodeAnalysis.Languages.Elixir

open Trees

/-! ### The climb without a memo -/

/-- The outermost operator of the chain that `operator` is on. -/
def topOperator (operator : Node) (above : List Node) : Node :=
  (above.takeWhile elixirIsWhenOperator).getLast?.getD operator

/-- The test of the first ancestor that is no `when` operator. -/
def guardAnswer (operator : Node) (above : List Node) : Bool :=
  match above.dropWhile elixirIsWhenOperator with
  | [] => false
  | parent :: up => elixirIsGuardPosition (topOperator operator above) parent up

section Climb

variable {operator parent : Node} {up above : List Node}

theorem topOperator_cons_when (h : elixirIsWhenOperator parent) :
    topOperator operator (parent :: up) = topOperator parent up := by
  rw [topOperator, topOperator, List.takeWhile_cons_of_pos h, List.getLast?_cons]
  rfl

theorem topOperator_cons_other (h : ¬elixirIsWhenOperator parent) :
    topOperator operator (parent :: up) = operator := by
  rw [topOperator, List.takeWhile_cons_of_neg h]
  rfl

/-- A nested operator has the answer of the one around it. -/
theorem guardAnswer_cons_when (h : elixirIsWhenOperator parent) :
    guardAnswer operator (parent :: up) = guardAnswer parent up := by
  rw [guardAnswer, guardAnswer, List.dropWhile_cons_of_pos h, topOperator_cons_when h]

theorem guardAnswer_cons_other (h : ¬elixirIsWhenOperator parent) :
    guardAnswer operator (parent :: up) = elixirIsGuardPosition operator parent up := by
  rw [guardAnswer, List.dropWhile_cons_of_neg h, topOperator_cons_other h]

variable {known : Node → Option Bool} {passed : List Node}

/-- What is known of the operators above is right. -/
def Right (known : Node → Option Bool) (above : List Node) : Prop :=
  ∀ node rest, node :: rest <:+ above → ∀ answer ∈ known node, answer = guardAnswer node rest

theorem Right.tail (h : Right known (parent :: up)) : Right known up :=
  fun node rest hsuffix => h node rest (hsuffix.trans (List.suffix_cons _ _))

theorem climb_answer (h : Right known above) :
    (climb known operator passed above).answer = guardAnswer operator above := by
  induction above generalizing operator passed with
  | nil => rfl
  | cons parent up ih =>
    rw [climb]
    split_ifs with hwhen
    · rw [guardAnswer_cons_when hwhen]
      split
      · next answer hknown => exact h parent up List.suffix_rfl answer hknown
      · exact ih h.tail
    · rw [guardAnswer_cons_other hwhen]

theorem subset_climb_passed : passed ⊆ (climb known operator passed above).passed := by
  induction above generalizing operator passed with
  | nil => exact List.Subset.refl _
  | cons parent up ih =>
    rw [climb]
    split_ifs
    · split
      · exact List.Subset.refl _
      · exact List.Subset.trans (List.subset_append_left _ _) ih
    · exact List.Subset.refl _

/-- The operators passed share the answer. -/
theorem guardAnswer_of_passed {node : Node}
    (h : node ∈ (climb known operator passed above).passed) :
    node ∈ passed ∨ ∃ rest, node :: rest <:+ above ∧
      guardAnswer node rest = guardAnswer operator above := by
  induction above generalizing operator passed with
  | nil => exact .inl h
  | cons parent up ih =>
    rw [climb] at h
    split_ifs at h with hwhen
    · rw [guardAnswer_cons_when hwhen]
      split at h
      · exact .inl h
      · rcases ih h with hpassed | ⟨rest, hsuffix, hanswer⟩
        · rcases List.mem_append.mp hpassed with hpassed | hparent
          · exact .inl hpassed
          · obtain rfl := List.mem_singleton.mp hparent
            exact .inr ⟨up, List.suffix_rfl, rfl⟩
        · exact .inr ⟨rest, hsuffix.trans (List.suffix_cons _ _), hanswer⟩
    · exact .inl h

/-- The outermost operator is tested, where nothing is known of it. -/
theorem climb_tested {node : Node} (h : (climb known operator passed above).tested = some node) :
    node = topOperator operator above ∧
      (node = operator ∨
        node ∈ (climb known operator passed above).passed ∧ known node = none) := by
  induction above generalizing operator passed with
  | nil => exact ⟨(Option.some_inj.mp h).symm, .inl (Option.some_inj.mp h).symm⟩
  | cons parent up ih =>
    rw [climb] at h ⊢
    split_ifs at h ⊢ with hwhen
    · rw [topOperator_cons_when hwhen]
      split at h
      · cases h
      · next hknown =>
        obtain ⟨htop, rfl | hpassed⟩ := ih h
        · exact ⟨htop, .inr ⟨subset_climb_passed (by simp), hknown⟩⟩
        · exact ⟨htop, .inr hpassed⟩
    · rw [topOperator_cons_other hwhen]
      exact ⟨(Option.some_inj.mp h).symm, .inl (Option.some_inj.mp h).symm⟩

end Climb

theorem elixirWhenIsGuard_none (operator : Node) (above : List Node) :
    (elixirWhenIsGuard (operator :: above) none).1 = guardAnswer operator above :=
  climb_answer fun _ _ _ _ hknown => by cases hknown

/-! ### The memo -/

/-- Trees whose nodes have ids of their own. -/
structure GuardTree where
  root : Node
  distinct : (root.nodes.map Node.id).Nodup

/-- A node of the tree with its ancestors, nearest first. -/
structure Token (tree : GuardTree) where
  node : Node
  up : List Node
  mem : ⟨node, up⟩ ∈ tree.root.positions []

variable {tree : GuardTree}

/-- Everything that was ever filed under a node is its answer. -/
def GuardMemo.Sound (tree : GuardTree) (memo : GuardMemo) : Prop :=
  ∀ entry ∈ memo.entries, ∃ node up, ⟨node, up⟩ ∈ tree.root.positions [] ∧
    entry = (node.id, guardAnswer node up)

namespace GuardMemo

variable {memo : GuardMemo}

theorem Sound.get (h : memo.Sound tree) {node : Node} {up : List Node}
    (hmem : ⟨node, up⟩ ∈ tree.root.positions []) :
    ∀ answer ∈ memo.get node, answer = guardAnswer node up := by
  intro answer hget
  obtain ⟨newer, older, hentries, -⟩ := List.lookup_eq_some_iff.mp hget
  obtain ⟨other, up', hmem', hentry⟩ := h (node.id, answer) (by simp [hentries])
  obtain ⟨hid, hanswer⟩ := Prod.mk.inj hentry
  cases Rose.position_unique tree.distinct hmem hmem' hid
  exact hanswer

theorem get_eq_none {node : Node} (h : memo.get node = none) :
    node.id ∉ memo.entries.map Prod.fst := by
  intro hmem
  obtain ⟨entry, hentry, hid⟩ := List.mem_map.mp hmem
  have hne := List.lookup_eq_none_iff.mp h entry hentry
  simp [hid] at hne

/-- The answer under each of some nodes. -/
theorem foldl_set (nodes : List Node) (answer : Bool) (memo : GuardMemo) :
    nodes.foldl (fun memo node => memo.set node answer) memo =
      { memo with entries := (nodes.map fun node => (node.id, answer)).reverse ++ memo.entries } := by
  induction nodes generalizing memo with
  | nil => rfl
  | cons node nodes ih =>
    rw [List.foldl_cons, ih, set, List.map_cons, List.reverse_cons, List.append_assoc]
    rfl

theorem entries_record (memo : GuardMemo) (operator : Node) (climbed : Climb) :
    (memo.record operator climbed).entries = (operator.id, climbed.answer) ::
      ((climbed.passed.map fun node => (node.id, climbed.answer)).reverse ++ memo.entries) := by
  rw [record, foldl_set]
  rfl

theorem tested_record (memo : GuardMemo) (operator : Node) (climbed : Climb) :
    (memo.record operator climbed).tested =
      memo.tested ++ (climbed.tested.map Node.id).toList := by
  rw [record, foldl_set]

/-- What holds between two questions. Nothing is tested twice, since what is tested is filed. -/
structure Invariant (tree : GuardTree) (memo : GuardMemo) : Prop where
  sound : memo.Sound tree
  once : memo.tested.Nodup
  filed : memo.tested ⊆ memo.entries.map Prod.fst

theorem Invariant.empty : Invariant tree GuardMemo.empty :=
  ⟨fun _ h => absurd h List.not_mem_nil, List.nodup_nil, List.nil_subset _⟩

section Record

variable {operator : Node} {above : List Node}

theorem Sound.right (h : memo.Sound tree) (hmem : ⟨operator, above⟩ ∈ tree.root.positions []) :
    Right memo.get above :=
  fun _ _ hsuffix => h.get (Rose.mem_positions_of_suffix hmem hsuffix)

theorem Sound.record (h : memo.Sound tree) (hmem : ⟨operator, above⟩ ∈ tree.root.positions []) :
    (memo.record operator (climb memo.get operator [] above)).Sound tree := by
  intro entry hentry
  rw [entries_record, climb_answer (h.right hmem), List.mem_cons, List.mem_append,
    List.mem_reverse, List.mem_map] at hentry
  rcases hentry with rfl | ⟨node, hpassed, rfl⟩ | hentry
  · exact ⟨operator, above, hmem, rfl⟩
  · obtain hnil | ⟨rest, hsuffix, hanswer⟩ := guardAnswer_of_passed hpassed
    · exact absurd hnil List.not_mem_nil
    · exact ⟨node, rest, Rose.mem_positions_of_suffix hmem hsuffix, by rw [hanswer]⟩
  · exact h entry hentry

/-- A climb that tests an operator knew nothing of it, and files the answer under it. -/
theorem Invariant.record (h : memo.Invariant tree)
    (hmem : ⟨operator, above⟩ ∈ tree.root.positions []) (hget : memo.get operator = none) :
    (memo.record operator (climb memo.get operator [] above)).Invariant tree := by
  have hkeys : (memo.record operator (climb memo.get operator [] above)).entries.map Prod.fst =
      operator.id :: (((climb memo.get operator [] above).passed.map Node.id).reverse ++
        memo.entries.map Prod.fst) := by
    rw [entries_record, List.map_cons, List.map_append, List.map_reverse, List.map_map]
    rfl
  refine ⟨h.sound.record hmem, ?_, ?_⟩
  · rw [tested_record, List.nodup_append]
    refine ⟨h.once, ?_, ?_⟩
    · cases (climb memo.get operator [] above).tested <;> simp
    · intro id hid other hother hsame
      obtain ⟨node, htested, rfl⟩ : ∃ node,
          (climb memo.get operator [] above).tested = some node ∧ node.id = other := by
        simpa using hother
      have hnone : memo.get node = none := by
        obtain ⟨-, rfl | ⟨-, hunknown⟩⟩ := climb_tested htested
        · exact hget
        · exact hunknown
      exact get_eq_none hnone (hsame ▸ h.filed hid)
  · rw [tested_record, hkeys]
    intro id hid
    rcases List.mem_append.mp hid with hid | hid
    · exact List.mem_cons_of_mem _ (List.mem_append_right _ (h.filed hid))
    · obtain ⟨node, htested, rfl⟩ : ∃ node,
          (climb memo.get operator [] above).tested = some node ∧ node.id = id := by
        simpa using hid
      obtain ⟨-, rfl | ⟨hpassed, -⟩⟩ := climb_tested htested
      · exact List.mem_cons_self
      · refine List.mem_cons_of_mem _ (List.mem_append_left _ ?_)
        exact List.mem_reverse.mpr (List.mem_map_of_mem hpassed)

end Record

end GuardMemo

/-! ### Questions -/

/-- The id of the operator that ends a climb. -/
def topId (up : List Node) : Option ℕ :=
  match up with
  | [] => none
  | operator :: above => some (topOperator operator above).id

/-- A question under a memo: the answer of the climb, and at most one test. -/
theorem elixirWhenIsGuard_some {memo : GuardMemo} (h : memo.Invariant tree) (token : Token tree) :
    ∃ memo', elixirWhenIsGuard token.up (some memo) =
        ((elixirWhenIsGuard token.up none).1, some memo') ∧
      memo'.Invariant tree ∧ ∀ id ∈ memo'.tested, id ∈ memo.tested ∨ topId token.up = some id := by
  obtain ⟨node, up, hmem⟩ := token
  cases up with
  | nil => exact ⟨memo, rfl, h, fun id => .inl⟩
  | cons operator above =>
    have hoperator := Rose.mem_positions_parent hmem
    rw [elixirWhenIsGuard_none]
    cases hget : memo.get operator with
    | some answer =>
      refine ⟨memo, ?_, h, fun id => .inl⟩
      rw [elixirWhenIsGuard, Option.bind_some, hget, h.sound.get hoperator answer hget]
    | none =>
      refine ⟨_, ?_, h.record hoperator hget, fun id hid => ?_⟩
      · rw [elixirWhenIsGuard, Option.bind_some, hget,
          ← climb_answer (h.sound.right hoperator)]
        rfl
      · rw [GuardMemo.tested_record, List.mem_append] at hid
        refine hid.imp_right fun hid => ?_
        obtain ⟨node, htested, rfl⟩ : ∃ node,
            (climb memo.get operator [] above).tested = some node ∧ node.id = id := by
          simpa using hid
        rw [topId, (climb_tested htested).1]

/-- What questions in some order leave, one after the other. -/
theorem askAll_invariant {memo : GuardMemo} (h : memo.Invariant tree)
    (questions : List (Token tree)) :
    (askAll (questions.map Token.up) memo).1 =
        questions.map (fun token => (elixirWhenIsGuard token.up none).1) ∧
      (askAll (questions.map Token.up) memo).2.Invariant tree ∧
      ∀ id ∈ (askAll (questions.map Token.up) memo).2.tested,
        id ∈ memo.tested ∨ ∃ token ∈ questions, topId token.up = some id := by
  induction questions generalizing memo with
  | nil => exact ⟨rfl, h, fun id => .inl⟩
  | cons token questions ih =>
    obtain ⟨memo', hask, hmemo', htested⟩ := elixirWhenIsGuard_some h token
    obtain ⟨hanswers, hinvariant, hlater⟩ := ih hmemo'
    rw [List.map_cons, askAll, hask]
    refine ⟨congrArg _ hanswers, hinvariant, fun id hid => ?_⟩
    rcases hlater id hid with hid | ⟨later, hmem, htop⟩
    · refine (htested id hid).imp_right fun htop => ⟨token, List.mem_cons_self, htop⟩
    · exact .inr ⟨later, List.mem_cons_of_mem _ hmem, htop⟩

/-! ### Chains of operators -/

/-- A repeated guard. The operators around `last` come outermost first. -/
structure GuardChain (tree : GuardTree) where
  outer : List Node
  last : Node
  mem : ∀ operator ∈ outer ++ [last], operator ∈ tree.root.nodes
  areWhen : ∀ operator ∈ outer ++ [last], elixirIsWhenOperator operator
  linked : (outer ++ [last]).IsChain fun a b : Node => a.childByFieldName "right" = some b
  ended : ∀ right ∈ last.childByFieldName "right", ¬elixirIsWhenOperator right

namespace GuardChain

variable {tree : GuardTree} (chain : GuardChain tree)

def operators : List Node := chain.outer ++ [chain.last]

/-- Source order. The head is what is guarded. -/
def operands : List (Option Node) :=
  (chain.operators.map fun operator => operator.childByFieldName "left") ++
    [chain.last.childByFieldName "right"]

def alternatives : List (Option Node) := chain.operands.tail

end GuardChain

/-! ### Alternatives -/

theorem elixirWhenAlternative_of_when {a b : Node} (hright : a.childByFieldName "right" = some b)
    (hb : elixirIsWhenOperator b) : elixirWhenAlternative a = b.childByFieldName "left" := by
  rw [elixirWhenAlternative, hright, Option.bind_some, if_pos hb]

theorem elixirWhenAlternative_of_ended {a : Node}
    (h : ∀ right ∈ a.childByFieldName "right", ¬elixirIsWhenOperator right) :
    elixirWhenAlternative a = a.childByFieldName "right" := by
  rw [elixirWhenAlternative]
  cases hright : a.childByFieldName "right" with
  | none => rfl
  | some right => rw [Option.bind_some, if_neg (h right hright)]

theorem map_elixirWhenAlternative {last : Node} :
    ∀ {outer : List Node}, (∀ operator ∈ outer ++ [last], elixirIsWhenOperator operator) →
      ((outer ++ [last]).IsChain fun a b : Node => a.childByFieldName "right" = some b) →
      (∀ right ∈ last.childByFieldName "right", ¬elixirIsWhenOperator right) →
      (outer ++ [last]).map elixirWhenAlternative =
        ((outer ++ [last]).tail.map fun operator : Node => operator.childByFieldName "left") ++
          [last.childByFieldName "right"]
  | [], _, _, hended => by
    rw [List.nil_append, List.map_singleton, elixirWhenAlternative_of_ended hended]
    rfl
  | [a], hwhen, hlinked, hended => by
    have hright := (List.isChain_cons_cons.mp hlinked).1
    simp only [List.cons_append, List.nil_append, List.map_cons, List.map_nil, List.tail_cons]
    rw [elixirWhenAlternative_of_when hright (hwhen last (by simp)),
      elixirWhenAlternative_of_ended hended]
  | a :: b :: outer, hwhen, hlinked, hended => by
    obtain ⟨hright, hbelow⟩ := List.isChain_cons_cons.mp hlinked
    have ih := @map_elixirWhenAlternative last (b :: outer)
      (fun operator hmem => hwhen operator (List.mem_cons_of_mem _ hmem)) hbelow hended
    rw [List.cons_append, List.map_cons, ih,
      elixirWhenAlternative_of_when hright (hwhen b (by simp))]
    rfl

theorem field_of_childByFieldName {node child : Node} {field : String}
    (h : node.childByFieldName field = some child) : child.label.field = some field := by
  simpa using List.find?_some h

/-- An alternative is introduced by one operator. -/
theorem elixirWhenAlternative_injective {tree : GuardTree} {a b x : Node}
    (ha : a ∈ tree.root.nodes) (hb : b ∈ tree.root.nodes) (hxa : elixirWhenAlternative a = some x)
    (hxb : elixirWhenAlternative b = some x) : a = b := by
  obtain ⟨right, hright, hax⟩ := Option.bind_eq_some_iff.mp hxa
  obtain ⟨right', hright', hbx⟩ := Option.bind_eq_some_iff.mp hxb
  have hchild := FieldTree.mem_children_of_childByFieldName hright
  have hchild' := FieldTree.mem_children_of_childByFieldName hright'
  have hunique {p q c : Node} := Rose.parent_unique (a := p) (b := q) (c := c) tree.distinct
  split_ifs at hax hbx with h h'
  · obtain rfl : right = right' := hunique (Rose.mem_nodes_of_mem_children ha hchild)
      (Rose.mem_nodes_of_mem_children hb hchild')
      (FieldTree.mem_children_of_childByFieldName hax)
      (FieldTree.mem_children_of_childByFieldName hbx)
    exact hunique ha hb hchild hchild'
  · obtain rfl := Option.some_inj.mp hbx
    have hfield := (field_of_childByFieldName hax).symm.trans (field_of_childByFieldName hright')
    exact absurd hfield (by decide)
  · obtain rfl := Option.some_inj.mp hax
    have hfield := (field_of_childByFieldName hright).symm.trans (field_of_childByFieldName hbx)
    exact absurd hfield (by decide)
  · obtain rfl := Option.some_inj.mp hax
    obtain rfl := Option.some_inj.mp hbx
    exact hunique ha hb hchild hchild'

namespace GuardChain

variable {tree : GuardTree} (chain : GuardChain tree)

theorem map_alternative : chain.operators.map elixirWhenAlternative = chain.alternatives := by
  have hne : (chain.operators.map fun operator : Node => operator.childByFieldName "left") ≠ [] := by
    simp [operators]
  rw [alternatives, operands, List.tail_append_of_ne_nil hne, ← List.map_tail]
  exact map_elixirWhenAlternative chain.areWhen chain.linked chain.ended

/-! ### One position -/

/-- The climbs from linked operators end where the climb from the first of them does. -/
theorem topOperator_of_linked {a : Node} {above : List Node} {below : List Node}
    (ha : ⟨a, above⟩ ∈ tree.root.positions [])
    (hmem : ∀ operator ∈ below, operator ∈ tree.root.nodes)
    (hwhen : ∀ operator ∈ a :: below, elixirIsWhenOperator operator)
    (hlinked : (a :: below).IsChain fun a b : Node => a.childByFieldName "right" = some b)
    {operator : Node} {up : List Node} (hoperator : operator ∈ a :: below)
    (hup : ⟨operator, up⟩ ∈ tree.root.positions []) :
    topOperator operator up = topOperator a above := by
  induction below generalizing a above with
  | nil =>
    obtain rfl := List.mem_singleton.mp hoperator
    cases Rose.position_unique tree.distinct ha hup rfl
    rfl
  | cons b below ih =>
    rcases List.mem_cons.mp hoperator with rfl | hbelow
    · cases Rose.position_unique tree.distinct ha hup rfl
      rfl
    · obtain ⟨hright, hrest⟩ := List.isChain_cons_cons.mp hlinked
      obtain ⟨aboveB, hb⟩ := Rose.exists_position (hmem b List.mem_cons_self)
      have hnext := Rose.up_of_child tree.distinct ha hb
        (FieldTree.mem_children_of_childByFieldName hright)
      rw [ih hb (fun o ho => hmem o (List.mem_cons_of_mem _ ho))
        (fun o ho => hwhen o (List.mem_cons_of_mem _ ho)) hrest hbelow, hnext,
        topOperator_cons_when (hwhen a List.mem_cons_self)]

/-- All tokens of a chain climb to one operator. -/
theorem exists_topId : ∃ top, ∀ token : Token tree, ∀ operator ∈ chain.operators,
    token.up.head? = some operator → topId token.up = some top := by
  obtain ⟨first, below, hoperators⟩ : ∃ first below, chain.outer ++ [chain.last] = first :: below :=
    List.exists_cons_of_ne_nil (by simp)
  have hmem := chain.mem
  have hwhen := chain.areWhen
  have hlinked := chain.linked
  rw [hoperators] at hmem hwhen hlinked
  obtain ⟨above, hfirst⟩ := Rose.exists_position (hmem first List.mem_cons_self)
  refine ⟨(topOperator first above).id, fun token operator hoperator hhead => ?_⟩
  obtain ⟨node, up, htoken⟩ := token
  obtain ⟨up, rfl⟩ := List.head?_eq_some_iff.mp hhead
  rw [operators, hoperators] at hoperator
  rw [topId, topOperator_of_linked hfirst (fun o ho => hmem o (List.mem_cons_of_mem _ ho)) hwhen
    hlinked hoperator (Rose.mem_positions_parent htoken)]

end GuardChain

/-! ### A walk's questions -/

/-- Questions in any order under one memo, about tokens of any chains: the answers, what the memo
ever held, the tests, and the alternatives of a chain. -/
theorem repeatedGuards_asked_once (tree : GuardTree) (questions : List (Token tree)) :
    ∃ answers memo, askAll (questions.map Token.up) GuardMemo.empty = (answers, memo) ∧
      answers = questions.map (fun token => (elixirWhenIsGuard token.up none).1) ∧
      (∀ operator above, (elixirWhenIsGuard (operator :: above) none).1 =
        guardAnswer operator above) ∧
      memo.Sound tree ∧ memo.tested.Nodup ∧
      (∀ id ∈ memo.tested, ∃ token ∈ questions, topId token.up = some id) ∧
      ∀ chain : GuardChain tree,
        (∃ top, ∀ token : Token tree, ∀ operator ∈ chain.operators,
          token.up.head? = some operator → topId token.up = some top) ∧
        chain.operators.map elixirWhenAlternative = chain.alternatives ∧
        ∀ a ∈ chain.operators, ∀ b ∈ chain.operators, (elixirWhenAlternative a).isSome →
          elixirWhenAlternative a = elixirWhenAlternative b → a = b := by
  obtain ⟨hanswers, hinvariant, htested⟩ := askAll_invariant GuardMemo.Invariant.empty questions
  refine ⟨_, _, rfl, hanswers, elixirWhenIsGuard_none, hinvariant.sound, hinvariant.once,
    fun id hid => ?_, fun chain => ⟨chain.exists_topId, chain.map_alternative, fun a ha b hb hsome hsame => ?_⟩⟩
  · exact (htested id hid).resolve_left List.not_mem_nil
  · obtain ⟨x, hx⟩ := Option.isSome_iff_exists.mp hsome
    exact elixirWhenAlternative_injective (chain.mem a ha) (chain.mem b hb) hx (hsame ▸ hx)

/-- A `when` operator at an id, with its token at the next one. -/
def whenNode (id : ℕ) (field : Option String) (left right : Node) : Node :=
  .node ⟨⟨id, .binaryOperator, none⟩, field⟩
    [left, .node ⟨⟨id + 1, .when, some "when"⟩, some "operator"⟩ [], right]

def nameNode (id : ℕ) (field text : String) : Node :=
  .node ⟨⟨id, .identifier, some text⟩, some field⟩ []

/-- The inner guard of `def f when a when b`. -/
def innerGuard : Node :=
  whenNode 8 (some "right") (nameNode 10 "left" "a") (nameNode 11 "right" "b")

def outerGuard : Node := whenNode 5 none (nameNode 7 "left" "f") innerGuard

def guardedArguments : Node := .node ⟨⟨4, .arguments, none⟩, none⟩ [outerGuard]

/-- The call of `def` around both. -/
def guardedDef : GuardTree where
  root := .node ⟨⟨2, .call, none⟩, none⟩ [nameNode 3 "target" "def", guardedArguments]
  distinct := by decide

/-- The tokens of the two guards. -/
def innerToken : Token guardedDef where
  node := .node ⟨⟨9, .when, some "when"⟩, some "operator"⟩ []
  up := [innerGuard, outerGuard, guardedArguments, guardedDef.root]
  mem := by simp [guardedDef, guardedArguments, outerGuard, innerGuard, whenNode, nameNode,
    Rose.positions, Rose.positionsOf]

def outerToken : Token guardedDef where
  node := .node ⟨⟨6, .when, some "when"⟩, some "operator"⟩ []
  up := [outerGuard, guardedArguments, guardedDef.root]
  mem := by simp [guardedDef, guardedArguments, outerGuard, innerGuard, whenNode, nameNode,
    Rose.positions, Rose.positionsOf]

def guardedChain : GuardChain guardedDef where
  outer := [outerGuard]
  last := innerGuard
  mem := by simp [guardedDef, guardedArguments, outerGuard, innerGuard, whenNode, nameNode,
    Rose.nodes, Rose.forestNodes]
  areWhen := by decide
  linked := .cons_cons rfl (.singleton _)
  ended := by decide

theorem repeatedGuards_asked_once_guardedDef :
    ∃ memo, askAll [innerToken.up, outerToken.up, innerToken.up] GuardMemo.empty =
        ([true, true, true], memo) ∧
      memo.Sound guardedDef ∧ memo.tested.Nodup ∧
      guardedChain.operators.map elixirWhenAlternative = guardedChain.alternatives := by
  obtain ⟨answers, memo, hask, hanswers, -, hsound, honce, -, hchain⟩ :=
    repeatedGuards_asked_once guardedDef [innerToken, outerToken, innerToken]
  have htrue : answers = [true, true, true] := by
    rw [hanswers]
    decide
  exact ⟨memo, htrue ▸ hask, hsound, honce, (hchain guardedChain).2.1⟩

end BigCodeAnalysis.Languages.Elixir
