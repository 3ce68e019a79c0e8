import BigCodeAnalysis.Spaces.FuncSpace
import BigCodeAnalysis.Trees.Rose
import Mathlib.Algebra.GroupWithZero.Nat

/-! The cognitive cost of boolean operators. One increment is charged per sequence of like
operators, and the only memory of a sequence is its last charged operator and where the
expression of that operator ends. -/

namespace BigCodeAnalysis.Metrics.Cognitive

open Spaces (Nesting)
open Trees

structure NodeInfo where
  kind : ℕ
  endByte : ℕ
  deriving DecidableEq, Repr

abbrev BoolSequence := Option (ℕ × ℕ)

/-- The fields of the metric's state that the boolean sequences and the nesting use. -/
structure Stats where
  structural : ℕ
  nesting : ℕ
  booleanSeq : BoolSequence
  deriving DecidableEq, Repr

/-- The state after an operator in an expression that ends at `enclosingEnd`, and the cost. -/
def BoolSequence.evalBasedOnPrev (seq : BoolSequence) (key enclosingEnd structural : ℕ) :
    BoolSequence × ℕ :=
  match seq with
  | some (prevKey, prevEnd) =>
    -- the parent is visited first, so an expression that ends within it is part of it
    if prevKey = key ∧ enclosingEnd ≤ prevEnd then (some (prevKey, prevEnd), structural)
    else (some (key, enclosingEnd), structural + 1)
  | none => (some (key, enclosingEnd), structural + 1)

def evalOperator (stats : Stats) (key enclosingEnd : ℕ) : Stats :=
  let (booleanSeq, structural) :=
    stats.booleanSeq.evalBasedOnPrev key enclosingEnd stats.structural
  { stats with booleanSeq, structural }

def computeBooleansByNode (sequenceKey : NodeInfo → Option ℕ) (enclosingEnd : ℕ)
    (node : Rose NodeInfo) (stats : Stats) : Stats :=
  node.children.foldl
    (fun stats child =>
      match sequenceKey child.label with
      | some key => evalOperator stats key enclosingEnd
      | none => stats)
    stats

def computeBooleansKeyed (sequenceKey : ℕ → Option ℕ) (node : Rose NodeInfo) (stats : Stats) :
    Stats :=
  computeBooleansByNode (fun child => sequenceKey child.kind) node.label.endByte node stats

def increment (stats : Stats) : Stats :=
  { stats with structural := stats.structural + (stats.nesting + 1) }

/-- A construct that nests ends the sequence before it. -/
def increaseNesting (stats : Stats) (nesting : Nesting) : Stats × Nesting :=
  let stats :=
    increment { stats with nesting := nesting.conditional + nesting.functionDepth + nesting.lambda }
  ({ stats with booleanSeq := none }, { nesting with conditional := nesting.conditional + 1 })

/-! ### The nodes of an expression -/

/-- The kinds of the nodes of an expression. Several spellings of one operation share a key. -/
structure Grammar where
  binary : ℕ
  paren : ℕ
  operand : ℕ
  openParen : ℕ
  closeParen : ℕ
  sequenceKey : ℕ → Option ℕ
  paren_ne : paren ≠ binary
  operand_ne : operand ≠ binary
  openParen_ne : openParen ≠ binary
  closeParen_ne : closeParen ≠ binary
  binary_plain : sequenceKey binary = none
  paren_plain : sequenceKey paren = none
  operand_plain : sequenceKey operand = none

variable {g : Grammar}

structure Operator (g : Grammar) where
  kind : ℕ
  key : ℕ
  length : ℕ
  keyed : g.sequenceKey kind = some key
  kind_ne : kind ≠ g.binary
  length_pos : 0 < length

/-- The gaps are the blanks between the tokens. -/
inductive Expr (g : Grammar) where
  | operand (length : ℕ)
  | paren (before : ℕ) (inner : Expr g) (after : ℕ)
  | binary (left : Expr g) (before : ℕ) (operator : Operator g) (after : ℕ) (right : Expr g)

namespace Expr

/-- The end byte of an expression that starts at `start`. -/
def stop : Expr g → ℕ → ℕ
  | operand length, start => start + length
  | paren before inner after, start => inner.stop (start + 1 + before) + after + 1
  | binary left before operator after right, start =>
    right.stop (left.stop start + before + operator.length + after)

def tree : Expr g → ℕ → Rose NodeInfo
  | operand length, start => .node ⟨g.operand, start + length⟩ []
  | paren before inner after, start =>
    .node ⟨g.paren, inner.stop (start + 1 + before) + after + 1⟩
      [.node ⟨g.openParen, start + 1⟩ [], inner.tree (start + 1 + before),
        .node ⟨g.closeParen, inner.stop (start + 1 + before) + after + 1⟩ []]
  | binary left before operator after right, start =>
    .node ⟨g.binary, right.stop (left.stop start + before + operator.length + after)⟩
      [left.tree start, .node ⟨operator.kind, left.stop start + before + operator.length⟩ [],
        right.tree (left.stop start + before + operator.length + after)]

end Expr

/-! ### The walk -/

/-- What the metric does at one node of an expression. -/
def visit (g : Grammar) (stats : Stats) (node : Rose NodeInfo) : Stats :=
  if node.label.kind = g.binary then computeBooleansKeyed g.sequenceKey node stats else stats

/-- The nodes in pre-order. -/
def walk (g : Grammar) (nodes : List (Rose NodeInfo)) (stats : Stats) : Stats :=
  nodes.foldl (visit g) stats

/-- What each node in turn adds to the metric. -/
def costs (g : Grammar) : List (Rose NodeInfo) → Stats → List ℕ
  | [], _ => []
  | node :: nodes, stats =>
    ((visit g stats node).structural - stats.structural) :: costs g nodes (visit g stats node)

theorem costs_append (xs ys : List (Rose NodeInfo)) (stats : Stats) :
    costs g (xs ++ ys) stats = costs g xs stats ++ costs g ys (walk g xs stats) := by
  induction xs generalizing stats with
  | nil => rfl
  | cons x xs ih =>
    rw [List.cons_append, costs, ih, costs, List.cons_append]
    rfl

theorem length_costs (nodes : List (Rose NodeInfo)) (stats : Stats) :
    (costs g nodes stats).length = nodes.length := by
  induction nodes generalizing stats with
  | nil => rfl
  | cons node nodes ih => rw [costs, List.length_cons, List.length_cons, ih]

end BigCodeAnalysis.Metrics.Cognitive
