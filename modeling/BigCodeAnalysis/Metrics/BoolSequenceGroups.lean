import BigCodeAnalysis.Metrics.BoolSequence
import Mathlib.Logic.Relation

/-! Sequences of like operators. An operator belongs to the sequence of the operator around it
when both are the same operation. The walk sees this as long as no other operation was charged
between the two. -/

namespace BigCodeAnalysis.Metrics.Cognitive

open Trees

variable {g : Grammar}

namespace Expr

/-- What each node adds when an operator is free inside an operator of its own operation. -/
def groupCosts (enclosing : Option ℕ) : Expr g → List ℕ
  | operand _ => [0]
  | paren _ inner _ => 0 :: 0 :: (inner.groupCosts enclosing ++ [0])
  | binary left _ operator _ right =>
    (if enclosing = some operator.key then 0 else 1) ::
      (left.groupCosts (some operator.key) ++ 0 :: right.groupCosts (some operator.key))

/-- The operation of the outermost operator. -/
def top : Expr g → Option ℕ
  | operand _ => none
  | paren _ inner _ => inner.top
  | binary _ _ operator _ _ => some operator.key

/-- Every operator is of one operation. -/
def OnlyKey (key : ℕ) : Expr g → Prop
  | operand _ => True
  | paren _ inner _ => inner.OnlyKey key
  | binary left _ operator _ right =>
    operator.key = key ∧ left.OnlyKey key ∧ right.OnlyKey key

/-- Where the right operand continues the sequence of its operator, the left one does not leave
it. -/
def LikeFirst : Expr g → Prop
  | operand _ => True
  | paren _ inner _ => inner.LikeFirst
  | binary left _ operator _ right =>
    left.LikeFirst ∧ right.LikeFirst ∧
      (right.top = some operator.key → left.OnlyKey operator.key)

/-- The same for both operands. -/
def LikeBoth : Expr g → Prop
  | operand _ => True
  | paren _ inner _ => inner.LikeBoth
  | binary left _ operator _ right =>
    left.LikeBoth ∧ right.LikeBoth ∧
      (right.top = some operator.key → left.OnlyKey operator.key) ∧
      (left.top = some operator.key → right.OnlyKey operator.key)

theorem start_le_stop (e : Expr g) (start : ℕ) : start ≤ e.stop start := by
  induction e generalizing start with
  | operand length => exact Nat.le_add_right ..
  | paren before inner after ih =>
    have h := ih (start + 1 + before)
    rw [stop]
    omega
  | binary left before operator after right ihl ihr =>
    have hleft := ihl start
    have hright := ihr (left.stop start + before + operator.length + after)
    rw [stop]
    omega

/-- An operator takes at least one byte. -/
theorem stop_left_lt (left right : Expr g) (before after start : ℕ) (operator : Operator g) :
    left.stop start < (binary left before operator after right).stop start := by
  have hright := right.start_le_stop (left.stop start + before + operator.length + after)
  have hpos := operator.length_pos
  rw [stop]
  omega

/-! ### Walking an expression -/

/-- The nodes of an expression in pre-order. -/
def preorder (e : Expr g) (start : ℕ) : List (Rose NodeInfo) := (e.tree start).nodes

theorem preorder_operand (length start : ℕ) :
    (operand length : Expr g).preorder start = [.node ⟨g.operand, start + length⟩ []] := by
  simp only [preorder, tree, Rose.nodes, Rose.forestNodes]

theorem preorder_paren (before after start : ℕ) (inner : Expr g) :
    (paren before inner after).preorder start =
      (paren before inner after).tree start :: .node ⟨g.openParen, start + 1⟩ [] ::
        (inner.preorder (start + 1 + before) ++
          [.node ⟨g.closeParen, (paren before inner after).stop start⟩ []]) := by
  simp only [preorder, tree, stop, Rose.nodes, Rose.forestNodes, List.append_nil, List.cons_append,
    List.nil_append]

theorem preorder_binary (left right : Expr g) (before after start : ℕ) (operator : Operator g) :
    (binary left before operator after right).preorder start =
      (binary left before operator after right).tree start ::
        (left.preorder start ++
          .node ⟨operator.kind, left.stop start + before + operator.length⟩ [] ::
            right.preorder (left.stop start + before + operator.length + after)) := by
  simp only [preorder, tree, Rose.nodes, Rose.forestNodes, List.append_nil, List.cons_append,
    List.nil_append]

/-- No operand is read as an operator token. -/
theorem sequenceKey_tree (e : Expr g) (start : ℕ) :
    g.sequenceKey (e.tree start).label.kind = none := by
  cases e with
  | operand length => exact g.operand_plain
  | paren before inner after => exact g.paren_plain
  | binary left before operator after right => exact g.binary_plain

theorem length_groupCosts (enclosing : Option ℕ) (e : Expr g) (start : ℕ) :
    (e.groupCosts enclosing).length = (e.preorder start).length := by
  induction e generalizing enclosing start with
  | operand length => rw [preorder_operand]; rfl
  | paren before inner after ih =>
    rw [preorder_paren, groupCosts]
    simp only [List.length_cons, List.length_append, List.length_nil,
      ih enclosing (start + 1 + before)]
  | binary left before operator after right ihl ihr =>
    rw [preorder_binary, groupCosts]
    simp only [List.length_cons, List.length_append, ihl (some operator.key) start,
      ihr (some operator.key) (left.stop start + before + operator.length + after)]

end Expr

theorem visit_of_kind_ne {stats : Stats} {kind endByte : ℕ} {children : List (Rose NodeInfo)}
    (h : kind ≠ g.binary) : visit g stats (.node ⟨kind, endByte⟩ children) = stats := if_neg h

theorem visit_paren (stats : Stats) (before after start : ℕ) (inner : Expr g) :
    visit g stats ((Expr.paren before inner after).tree start) = stats := if_neg g.paren_ne

theorem visit_binary (stats : Stats) (left right : Expr g) (before after start : ℕ)
    (operator : Operator g) :
    visit g stats ((Expr.binary left before operator after right).tree start) =
      evalOperator stats operator.key
        ((Expr.binary left before operator after right).stop start) := by
  rw [visit, Expr.tree, Rose.label_node, if_pos rfl, computeBooleansKeyed, computeBooleansByNode,
    Rose.children_node, Rose.label_node]
  simp only [List.foldl_cons, List.foldl_nil, Expr.sequenceKey_tree, Rose.label_node,
    operator.keyed, Expr.stop]

section Sections
variable (stats : Stats) (start : ℕ)

theorem walk_operand (length : ℕ) :
    walk g ((Expr.operand length : Expr g).preorder start) stats = stats := by
  rw [Expr.preorder_operand, walk, List.foldl_cons, List.foldl_nil]
  exact visit_of_kind_ne g.operand_ne

theorem walk_paren (before after : ℕ) (inner : Expr g) :
    walk g ((Expr.paren before inner after).preorder start) stats =
      walk g (inner.preorder (start + 1 + before)) stats := by
  rw [Expr.preorder_paren, walk, List.foldl_cons, List.foldl_cons, List.foldl_append,
    List.foldl_cons, List.foldl_nil]
  rw [visit_of_kind_ne g.closeParen_ne, visit_of_kind_ne g.openParen_ne, visit_paren]
  rfl

theorem walk_binary (left right : Expr g) (before after : ℕ) (operator : Operator g) :
    walk g ((Expr.binary left before operator after right).preorder start) stats =
      walk g (right.preorder (left.stop start + before + operator.length + after))
        (walk g (left.preorder start) (evalOperator stats operator.key
          ((Expr.binary left before operator after right).stop start))) := by
  rw [Expr.preorder_binary, walk, List.foldl_cons, List.foldl_append, List.foldl_cons,
    visit_of_kind_ne operator.kind_ne, visit_binary]
  rfl

theorem costs_operand (length : ℕ) :
    costs g ((Expr.operand length : Expr g).preorder start) stats = [0] := by
  rw [Expr.preorder_operand, costs, costs, visit_of_kind_ne g.operand_ne, Nat.sub_self]

theorem costs_paren (before after : ℕ) (inner : Expr g) :
    costs g ((Expr.paren before inner after).preorder start) stats =
      0 :: 0 :: (costs g (inner.preorder (start + 1 + before)) stats ++ [0]) := by
  rw [Expr.preorder_paren, costs, visit_paren, costs,
    visit_of_kind_ne g.openParen_ne, costs_append, costs, visit_of_kind_ne g.closeParen_ne, costs,
    Nat.sub_self, Nat.sub_self]

theorem costs_binary (left right : Expr g) (before after : ℕ) (operator : Operator g) :
    let visited := evalOperator stats operator.key
      ((Expr.binary left before operator after right).stop start)
    costs g ((Expr.binary left before operator after right).preorder start) stats =
      (visited.structural - stats.structural) ::
        (costs g (left.preorder start) visited ++
          0 :: costs g (right.preorder (left.stop start + before + operator.length + after))
            (walk g (left.preorder start) visited)) := by
  rw [Expr.preorder_binary, costs, visit_binary, costs_append, costs,
    visit_of_kind_ne operator.kind_ne, Nat.sub_self]

end Sections

/-! ### What is remembered -/

/-- No sequence that is still open is remembered at `pos`. -/
def BoolSequence.EndsBefore (seq : BoolSequence) (pos : ℕ) : Prop :=
  ∀ key stop, seq = some (key, stop) → stop ≤ pos

/-- An operator of this operation is free up to `pos`. -/
def BoolSequence.Holds (seq : BoolSequence) (key pos : ℕ) : Prop :=
  ∃ stop, seq = some (key, stop) ∧ pos ≤ stop

theorem BoolSequence.EndsBefore.mono {seq : BoolSequence} {pos pos' : ℕ} (h : seq.EndsBefore pos)
    (hle : pos ≤ pos') : seq.EndsBefore pos' :=
  fun key stop hseq => (h key stop hseq).trans hle

theorem BoolSequence.Holds.mono {seq : BoolSequence} {key pos pos' : ℕ} (h : seq.Holds key pos')
    (hle : pos ≤ pos') : seq.Holds key pos := by
  obtain ⟨stop, hseq, hstop⟩ := h
  exact ⟨stop, hseq, hle.trans hstop⟩

theorem BoolSequence.EndsBefore.not_holds {seq : BoolSequence} {key pos pos' : ℕ}
    (h : seq.EndsBefore pos) (hlt : pos < pos') : ¬ seq.Holds key pos' := by
  rintro ⟨stop, hseq, hstop⟩
  have hle := h key stop hseq
  omega

theorem BoolSequence.Holds.not_holds {seq : BoolSequence} {key key' pos pos' : ℕ}
    (h : seq.Holds key pos) (hne : key ≠ key') : ¬ seq.Holds key' pos' := by
  rintro ⟨stop', hseq', -⟩
  obtain ⟨stop, hseq, -⟩ := h
  rw [hseq] at hseq'
  exact hne (congrArg Prod.fst (Option.some.inj hseq'))

section Eval
variable {stats : Stats} {key pos : ℕ}

theorem evalOperator_of_holds (h : stats.booleanSeq.Holds key pos) :
    evalOperator stats key pos = stats := by
  obtain ⟨stop, hseq, hstop⟩ := h
  obtain ⟨structural, nesting, booleanSeq⟩ := stats
  dsimp only at hseq
  subst hseq
  simp only [evalOperator, BoolSequence.evalBasedOnPrev, hstop, and_self, if_true]

theorem evalOperator_of_not_holds (h : ¬ stats.booleanSeq.Holds key pos) :
    evalOperator stats key pos =
      { stats with booleanSeq := some (key, pos), structural := stats.structural + 1 } := by
  obtain ⟨structural, nesting, booleanSeq⟩ := stats
  cases booleanSeq with
  | none => rfl
  | some p =>
    have hnot : ¬ (p.1 = key ∧ pos ≤ p.2) := fun hp => h ⟨p.2, by rw [← hp.1], hp.2⟩
    simp only [evalOperator, BoolSequence.evalBasedOnPrev, hnot, if_false]

theorem holds_evalOperator : (evalOperator stats key pos).booleanSeq.Holds key pos := by
  by_cases h : stats.booleanSeq.Holds key pos
  · rw [evalOperator_of_holds h]
    exact h
  · rw [evalOperator_of_not_holds h]
    exact ⟨pos, rfl, le_rfl⟩

theorem endsBefore_evalOperator (h : ¬ stats.booleanSeq.Holds key pos) :
    (evalOperator stats key pos).booleanSeq.EndsBefore pos := by
  rw [evalOperator_of_not_holds h]
  intro key' stop hseq
  exact (congrArg Prod.snd (Option.some.inj hseq)).ge

end Eval

/-! ### What an expression leaves behind -/

section After
variable {stats : Stats} {start key : ℕ} {e : Expr g}

/-- An expression of one operation leaves an open sequence of that operation as it was. -/
theorem walk_of_onlyKey (hholds : stats.booleanSeq.Holds key (e.stop start))
    (honly : e.OnlyKey key) : walk g (e.preorder start) stats = stats := by
  induction e generalizing start with
  | operand length => exact walk_operand stats start length
  | paren before inner after ih =>
    rw [walk_paren]
    exact ih (hholds.mono (by rw [Expr.stop]; omega)) honly
  | binary left before operator after right ihl ihr =>
    obtain ⟨rfl, hleft, hright⟩ := honly
    have hlt := Expr.stop_left_lt left right before after start operator
    rw [walk_binary, evalOperator_of_holds hholds, ihl (hholds.mono hlt.le) hleft]
    exact ihr hholds hright

/-- Every other expression leaves a sequence that ended in it. -/
theorem endsBefore_walk (h : stats.booleanSeq.EndsBefore start ∨
      stats.booleanSeq.Holds key (e.stop start) ∧ ¬ e.OnlyKey key) :
    (walk g (e.preorder start) stats).booleanSeq.EndsBefore (e.stop start) := by
  induction e generalizing start key stats with
  | operand length =>
    rw [walk_operand]
    rcases h with h | ⟨-, hnot⟩
    · exact h.mono (Expr.start_le_stop ..)
    · exact absurd trivial hnot
  | paren before inner after ih =>
    rw [walk_paren, Expr.stop]
    apply @BoolSequence.EndsBefore.mono _ (inner.stop (start + 1 + before)) _ _ (by omega)
    rcases h with h | ⟨hholds, hnot⟩
    · exact @ih _ _ key (.inl (h.mono (by omega)))
    · exact ih (.inr ⟨hholds.mono (by rw [Expr.stop]; omega), hnot⟩)
  | binary left before operator after right ihl ihr =>
    have hlt := Expr.stop_left_lt left right before after start operator
    have hstart := left.start_le_stop start
    have hvisited := @holds_evalOperator stats operator.key
      ((Expr.binary left before operator after right).stop start)
    rw [walk_binary]
    by_cases hleft : left.OnlyKey operator.key
    · rw [walk_of_onlyKey (hvisited.mono hlt.le) hleft]
      by_cases hright : right.OnlyKey operator.key
      · rw [walk_of_onlyKey (e := right) hvisited hright]
        apply endsBefore_evalOperator
        rcases h with h | ⟨hholds, hnot⟩
        · exact h.not_holds (by omega)
        · refine hholds.not_holds ?_
          rintro rfl
          exact hnot ⟨rfl, hleft, hright⟩
      · exact ihr (.inr ⟨hvisited, hright⟩)
    · have hended := ihl (.inr ⟨hvisited.mono hlt.le, hleft⟩)
      exact @ihr _ _ key (.inl (hended.mono (by omega)))

/-! ### When the costs are exact -/

/-- When the costs of an expression are those of its sequences: inside an open sequence of the
operation around it, and where no sequence is open. -/
structure ExactIff (e : Expr g) : Prop where
  held : ∀ start stats key, stats.booleanSeq.Holds key (e.stop start) →
    (costs g (e.preorder start) stats = e.groupCosts (some key) ↔ e.LikeFirst)
  ended : ∀ start stats enclosing, stats.booleanSeq.EndsBefore start →
    (costs g (e.preorder start) stats = e.groupCosts enclosing ↔
      e.LikeFirst ∧ ∀ key, e.top = some key → enclosing ≠ some key)

/-- An operator is charged as it should, and then its operands are. -/
theorem costs_binary_iff {left right : Expr g} (hleft : ExactIff left) (hright : ExactIff right)
    {before after : ℕ} {operator : Operator g} {enclosing : Option ℕ}
    (he : e = .binary left before operator after right) :
    costs g (e.preorder start) stats = e.groupCosts enclosing ↔
      (evalOperator stats operator.key (e.stop start)).structural - stats.structural =
        (if enclosing = some operator.key then 0 else 1) ∧ e.LikeFirst := by
  have hlt : left.stop start < e.stop start := he ▸ Expr.stop_left_lt ..
  have hvisited := @holds_evalOperator stats operator.key (e.stop start)
  subst he
  set visited := evalOperator stats operator.key
    ((Expr.binary left before operator after right).stop start)
  have hlength : (costs g (left.preorder start) visited).length =
      (left.groupCosts (some operator.key)).length := by
    rw [length_costs, Expr.length_groupCosts _ left start]
  rw [costs_binary, Expr.groupCosts, List.cons.injEq,
    List.append_eq_append_iff_of_size_eq_left hlength, List.cons_inj_right,
    hleft.held _ _ _ (hvisited.mono hlt.le), Expr.LikeFirst]
  apply and_congr_right
  intro _
  apply and_congr_right
  intro _
  by_cases honly : left.OnlyKey operator.key
  · rw [walk_of_onlyKey (hvisited.mono hlt.le) honly, hright.held _ _ _ hvisited]
    exact ⟨fun h => ⟨h, fun _ => honly⟩, And.left⟩
  · have hended := endsBefore_walk (.inr ⟨hvisited.mono hlt.le, honly⟩)
    rw [hright.ended _ _ _ (hended.mono (by omega))]
    apply and_congr_right
    intro _
    exact ⟨fun h htop => absurd rfl (h _ htop),
      fun h key htop heq => honly (h (htop.trans heq.symm))⟩

theorem exactIff (e : Expr g) : ExactIff e := by
  induction e with
  | operand length =>
    refine ⟨fun start stats key _ => ?_, fun start stats enclosing _ => ?_⟩
    · rw [costs_operand]
      exact ⟨fun _ => trivial, fun _ => rfl⟩
    · rw [costs_operand]
      exact ⟨fun _ => ⟨trivial, fun key htop => by cases htop⟩, fun _ => rfl⟩
  | paren before inner after ih =>
    have hcosts : ∀ start stats enclosing,
        costs g ((Expr.paren before inner after).preorder start) stats =
            (Expr.paren before inner after).groupCosts enclosing ↔
          costs g (inner.preorder (start + 1 + before)) stats = inner.groupCosts enclosing := by
      intro start stats enclosing
      rw [costs_paren, Expr.groupCosts, List.cons_inj_right, List.cons_inj_right,
        List.append_left_inj]
    refine ⟨fun start stats key hholds => ?_, fun start stats enclosing hended => ?_⟩
    · rw [hcosts]
      exact ih.held _ _ _ (hholds.mono (by rw [Expr.stop]; omega))
    · rw [hcosts]
      exact ih.ended _ _ _ (hended.mono (by omega))
  | binary left before operator after right ihl ihr =>
    refine ⟨fun start stats key hholds => ?_, fun start stats enclosing hended => ?_⟩
    · rw [costs_binary_iff ihl ihr rfl]
      apply and_iff_right
      by_cases hkey : key = operator.key
      · subst hkey
        rw [evalOperator_of_holds hholds, if_pos rfl, Nat.sub_self]
      · rw [evalOperator_of_not_holds (hholds.not_holds hkey),
          if_neg (mt Option.some.inj hkey), Nat.add_sub_cancel_left]
    · have hlt := Expr.stop_left_lt left right before after start operator
      have hfresh := @BoolSequence.EndsBefore.not_holds _ operator.key _ _ hended
        ((left.start_le_stop start).trans_lt hlt)
      rw [costs_binary_iff ihl ihr rfl, evalOperator_of_not_holds hfresh, Nat.add_sub_cancel_left,
        and_comm]
      apply and_congr_right
      intro _
      by_cases henclosing : enclosing = some operator.key
      · rw [if_pos henclosing]
        exact ⟨fun h => absurd h Nat.one_ne_zero, fun h => absurd henclosing (h _ rfl)⟩
      · rw [if_neg henclosing]
        refine ⟨fun _ key htop => ?_, fun _ => rfl⟩
        rw [← Option.some.inj htop]
        exact henclosing

end After

/-! ### Swapping operands -/

namespace Expr

/-- The operands of one operator change places. -/
inductive Swapped : Expr g → Expr g → Prop
  | swap (left : Expr g) (before : ℕ) (operator : Operator g) (after : ℕ) (right : Expr g) :
      Swapped (binary left before operator after right) (binary right before operator after left)
  | paren {inner inner' : Expr g} (before after : ℕ) (h : Swapped inner inner') :
      Swapped (paren before inner after) (paren before inner' after)
  | left {left left' : Expr g} (before : ℕ) (operator : Operator g) (after : ℕ) (right : Expr g)
      (h : Swapped left left') :
      Swapped (binary left before operator after right) (binary left' before operator after right)
  | right {right right' : Expr g} (left : Expr g) (before : ℕ) (operator : Operator g)
      (after : ℕ) (h : Swapped right right') :
      Swapped (binary left before operator after right) (binary left before operator after right')

section Swap
variable {e e' : Expr g}

theorem Swapped.top_eq (h : Swapped e e') : e'.top = e.top := by
  induction h with
  | swap left before operator after right => rfl
  | paren before after h ih => exact ih
  | left before operator after right h ih => rfl
  | right left before operator after h ih => rfl

theorem Swapped.onlyKey_iff {key : ℕ} (h : Swapped e e') : e'.OnlyKey key ↔ e.OnlyKey key := by
  induction h with
  | swap left before operator after right => exact and_congr_right fun _ => and_comm
  | paren before after h ih => exact ih
  | left before operator after right h ih =>
    exact and_congr_right fun _ => and_congr_left fun _ => ih
  | right left before operator after h ih =>
    exact and_congr_right fun _ => and_congr_right fun _ => ih

theorem Swapped.likeBoth (h : Swapped e e') (hlike : e.LikeBoth) : e'.LikeBoth := by
  induction h with
  | swap left before operator after right =>
    obtain ⟨hleft, hright, hrl, hlr⟩ := hlike
    exact ⟨hright, hleft, hlr, hrl⟩
  | paren before after h ih => exact ih hlike
  | left before operator after right h ih =>
    obtain ⟨hleft, hright, hrl, hlr⟩ := hlike
    exact ⟨ih hleft, hright, fun htop => h.onlyKey_iff.mpr (hrl htop),
      fun htop => hlr (h.top_eq.symm.trans htop)⟩
  | right left before operator after h ih =>
    obtain ⟨hleft, hright, hrl, hlr⟩ := hlike
    exact ⟨hleft, ih hright, fun htop => hrl (h.top_eq.symm.trans htop),
      fun htop => h.onlyKey_iff.mpr (hlr htop)⟩

/-- An arrangement of the operands has as many sequences as any other. -/
theorem Swapped.sum_groupCosts (h : Swapped e e') (enclosing : Option ℕ) :
    (e'.groupCosts enclosing).sum = (e.groupCosts enclosing).sum := by
  induction h generalizing enclosing with
  | swap left before operator after right =>
    simp only [groupCosts, List.sum_cons, List.sum_append]
    omega
  | paren before after h ih =>
    simp only [groupCosts, List.sum_cons, List.sum_append, ih]
  | left before operator after right h ih =>
    simp only [groupCosts, List.sum_cons, List.sum_append, ih]
  | right left before operator after h ih =>
    simp only [groupCosts, List.sum_cons, List.sum_append, ih]

theorem LikeBoth.likeFirst (h : e.LikeBoth) : e.LikeFirst := by
  induction e with
  | operand length => trivial
  | paren before inner after ih => exact ih h
  | binary left before operator after right ihl ihr =>
    obtain ⟨hleft, hright, hrl, -⟩ := h
    exact ⟨ihl hleft, ihr hright, hrl⟩

/-- The arrangements of an expression. -/
abbrev Rearranged : Expr g → Expr g → Prop := Relation.ReflTransGen Swapped

theorem Rearranged.within {f : Expr g → Expr g}
    (hf : ∀ e e', Swapped e e' → Swapped (f e) (f e')) (h : Rearranged e e') :
    Rearranged (f e) (f e') := by
  induction h with
  | refl => exact .refl
  | tail _ hswap ih => exact ih.tail (hf _ _ hswap)

theorem likeFirst_rearranged_iff (e : Expr g) :
    (∀ e', Rearranged e e' → e'.LikeFirst) ↔ e.LikeBoth := by
  constructor
  · intro h
    induction e with
    | operand length => trivial
    | paren before inner after ih =>
      exact ih fun inner' hinner => h (.paren before inner' after)
        (Rearranged.within (fun _ _ => .paren before after) hinner)
    | binary left before operator after right ihl ihr =>
      refine ⟨ihl fun left' hleft => ?_, ihr fun right' hright => ?_, ?_, ?_⟩
      · exact (h (.binary left' before operator after right)
          (Rearranged.within (fun _ _ => .left before operator after right) hleft)).1
      · exact (h (.binary left before operator after right')
          (Rearranged.within (fun _ _ => .right left before operator after) hright)).2.1
      · exact (h _ .refl).2.2
      · exact (h _ (.single (.swap ..))).2.2
  · intro h e' hrearranged
    have hlike : e'.LikeBoth := by
      induction hrearranged with
      | refl => exact h
      | tail _ hswap ih => exact hswap.likeBoth ih
    exact hlike.likeFirst

end Swap

end Expr

/-! ### The cost of an expression -/

theorem le_structural_evalOperator (stats : Stats) (key pos : ℕ) :
    stats.structural ≤ (evalOperator stats key pos).structural := by
  by_cases h : stats.booleanSeq.Holds key pos
  · rw [evalOperator_of_holds h]
  · rw [evalOperator_of_not_holds h]
    exact Nat.le_succ _

theorem le_structural_visit (stats : Stats) (node : Rose NodeInfo) :
    stats.structural ≤ (visit g stats node).structural := by
  unfold visit
  split_ifs
  · rw [computeBooleansKeyed, computeBooleansByNode]
    induction node.children generalizing stats with
    | nil => exact le_rfl
    | cons child children ih =>
      rw [List.foldl_cons]
      apply le_trans _ (ih _)
      cases g.sequenceKey child.label.kind with
      | none => exact le_rfl
      | some key => exact le_structural_evalOperator ..
  · exact le_rfl

theorem structural_walk (nodes : List (Rose NodeInfo)) (stats : Stats) :
    (walk g nodes stats).structural = stats.structural + (costs g nodes stats).sum := by
  induction nodes generalizing stats with
  | nil => rfl
  | cons node nodes ih =>
    have hle := le_structural_visit (g := g) stats node
    have hwalk := ih (visit g stats node)
    rw [costs, List.sum_cons, ← Nat.add_assoc, Nat.add_sub_cancel' hle]
    exact hwalk

/-- The condition of a construct that nests starts with nothing open. -/
theorem increaseNesting_endsBefore (stats : Stats) (nesting : Spaces.Nesting) (pos : ℕ) :
    (increaseNesting stats nesting).1.booleanSeq.EndsBefore pos := by
  intro key stop hseq
  cases hseq

/-- An operator is free exactly inside its own operation, at every operator, when no operand that
another operation was charged in is followed by one that continues the sequence around it. This
holds of every arrangement of the operands, all at one cost, when it holds of both operands. -/
theorem costs_exact_iff {e : Expr g} {start : ℕ} {stats : Stats}
    (hended : stats.booleanSeq.EndsBefore start) :
    (costs g (e.preorder start) stats = e.groupCosts none ↔ e.LikeFirst) ∧
      ((∀ e', Expr.Rearranged e e' →
        costs g (e'.preorder start) stats = e'.groupCosts none ∧
          (walk g (e'.preorder start) stats).structural =
            (walk g (e.preorder start) stats).structural) ↔ e.LikeBoth) := by
  have hexact : ∀ e' : Expr g,
      costs g (e'.preorder start) stats = e'.groupCosts none ↔ e'.LikeFirst := by
    intro e'
    rw [(exactIff e').ended _ _ _ hended]
    exact and_iff_left fun key _ h => by cases h
  refine ⟨hexact e, ?_⟩
  rw [← Expr.likeFirst_rearranged_iff]
  constructor
  · intro h e' hrearranged
    exact (hexact e').mp (h e' hrearranged).1
  · intro h e' hrearranged
    have hcosts := (hexact e').mpr (h e' hrearranged)
    refine ⟨hcosts, ?_⟩
    have hsum : (e'.groupCosts none).sum = (e.groupCosts none).sum := by
      clear hcosts
      induction hrearranged with
      | refl => rfl
      | tail _ hswap ih => exact (hswap.sum_groupCosts none).trans ih
    rw [structural_walk, structural_walk, hcosts, (hexact e).mpr (h e .refl), hsum]

/-! ### Two arrangements of one expression -/

def symbols : Grammar where
  binary := 1
  paren := 2
  operand := 3
  openParen := 4
  closeParen := 5
  sequenceKey kind := if kind = 6 ∨ kind = 7 then some kind else none
  paren_ne := by decide
  operand_ne := by decide
  openParen_ne := by decide
  closeParen_ne := by decide
  binary_plain := by decide
  paren_plain := by decide
  operand_plain := by decide

def andSymbol : Operator symbols := ⟨6, 6, 2, by decide, by decide, by decide⟩

def orSymbol : Operator symbols := ⟨7, 7, 2, by decide, by decide, by decide⟩

def group (operator : Operator symbols) : Expr symbols :=
  .paren 0 (.binary (.operand 1) 1 operator 1 (.operand 1)) 0

/-- `if (a && b) && (c || d)`, after the `if` is charged. -/
theorem costs_exact_iff_in_condition :
    let stats := (increaseNesting ⟨0, 0, some (7, 90)⟩ ⟨0, 0, 0⟩).1
    let e := Expr.binary (group andSymbol) 1 andSymbol 1 (group orSymbol)
    (costs symbols (e.preorder 3) stats = e.groupCosts none ↔ e.LikeFirst) ∧
      ((∀ e', Expr.Rearranged e e' →
        costs symbols (e'.preorder 3) stats = e'.groupCosts none ∧
          (walk symbols (e'.preorder 3) stats).structural =
            (walk symbols (e.preorder 3) stats).structural) ↔ e.LikeBoth) :=
  costs_exact_iff (increaseNesting_endsBefore _ _ _)

/-- `(a || b) && (c && d)` costs three, and `(c && d) && (a || b)` costs two. -/
theorem swap_changes_cost :
    costs symbols ((Expr.binary (group orSymbol) 1 andSymbol 1 (group andSymbol)).preorder 0)
        ⟨0, 0, none⟩ ≠
      (Expr.binary (group orSymbol) 1 andSymbol 1 (group andSymbol)).groupCosts none ∧
    (walk symbols ((Expr.binary (group orSymbol) 1 andSymbol 1 (group andSymbol)).preorder 0)
        ⟨0, 0, none⟩).structural = 3 ∧
    (walk symbols ((Expr.binary (group andSymbol) 1 andSymbol 1 (group orSymbol)).preorder 0)
        ⟨0, 0, none⟩).structural = 2 := by
  decide +kernel

end BigCodeAnalysis.Metrics.Cognitive
