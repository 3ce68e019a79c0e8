import BigCodeAnalysis.Sequences.Loop
import BigCodeAnalysis.Spaces.Node
import Mathlib.Logic.Function.Basic

/-! Whether a preprocessor conditional declares something a doc comment can document. The
question is asked of every conditional a doc comment's stretch meets. An explicit stack walks
the nest in post-order, and a memo that the walk over the file lends keeps every answer. -/

namespace BigCodeAnalysis.Languages.Doxygen

open Sequences Spaces Trees

/-- What a C-family dialect answers about a node. A target row is asked of a node under the
parent its chain ends in and reads no further up. -/
structure DoxygenRow where
  docTargetRow : (parent node : Node) → Bool
  conditionalKind : ℕ → Bool
  isError : Node → Bool
  isNamed : Node → Bool
  isComment : Node → Bool

namespace DoxygenRow

variable (row : DoxygenRow)

def preprocConditional (node : Node) : Bool := row.conditionalKind node.label.kindId

/-- The children of a parse error that may be entries. -/
def namedInside (error : Node) : List Node :=
  error.children.filter fun child =>
    row.isNamed child && !row.isError child && !row.isComment child

/-- A parse error with at most one child of the kind that may be an entry, and that one is no
entry. The child is no error, so only the row is left to ask. -/
def noEntryInside (error : Node) : Bool :=
  match row.namedInside error with
  | [] => true
  | [only] => !(!row.preprocConditional only && row.docTargetRow error only)
  | _ => false

def nonConditionalEntry (parent node : Node) : Bool :=
  if row.isError node then !row.noEntryInside node else row.docTargetRow parent node

end DoxygenRow

/-! ### The memo -/

/-- Answers by node id. -/
abbrev NodeMemo := ℕ → Option Bool

namespace NodeMemo

def default : NodeMemo := fun _ => none

def get (memo : NodeMemo) (node : Node) : Option Bool := memo node.id

def set (memo : NodeMemo) (node : Node) (answer : Bool) : NodeMemo :=
  Function.update memo node.id (some answer)

end NodeMemo

/-! ### The walk over a nest -/

inductive Visit where
  | read (conditional : Node) (outer : Option ℕ)
  | answer (conditional : Node) (outer : Option ℕ) (own : ℕ)

variable (row : DoxygenRow)

/-- Whether a child answers for the conditional already, and the nested conditionals left to
read, in source order. -/
def childrenDeclareFrom (memo : NodeMemo) (conditional : Node) :
    List Node → Bool → Bool × List Node
  | [], declares => (declares, [])
  | child :: children, declares =>
    if row.preprocConditional child then
      match memo.get child with
      | some answer => childrenDeclareFrom memo conditional children (declares || answer)
      | none =>
        let (declares, deferred) := childrenDeclareFrom memo conditional children declares
        (declares, child :: deferred)
    else if declares then childrenDeclareFrom memo conditional children declares
    else
      childrenDeclareFrom memo conditional children (row.nonConditionalEntry conditional child)

def childrenDeclare (memo : NodeMemo) (conditional : Node) : Bool × List Node :=
  childrenDeclareFrom row memo conditional conditional.children false

/-- The head of `stack` is its top. `reads` lists the conditionals read so far. -/
structure Walk where
  stack : List Visit
  answers : List Bool
  memo : NodeMemo
  reads : List Node

/-- `answers[outer] |= answer`. -/
def foldInto (answers : List Bool) (answer : Bool) : Option ℕ → Option (List Bool)
  | none => some answers
  | some outer => do
    let before ← answers[outer]?
    return answers.set outer (before || answer)

/-- One turn of the loop. -/
def turn (walk : Walk) : Option (ControlFlow Walk Walk) :=
  match walk.stack with
  | [] => some (.leave walk)
  | .read conditional outer :: stack =>
    let own := walk.answers.length
    let (declares, deferred) := childrenDeclare row walk.memo conditional
    some (.onward {
      stack := deferred.reverse.map (.read · (some own)) ++ .answer conditional outer own :: stack
      answers := walk.answers ++ [declares]
      memo := walk.memo
      reads := walk.reads ++ [conditional] })
  | .answer conditional outer own :: stack => do
    let answer ← walk.answers[own]?
    let answers ← foldInto walk.answers answer outer
    return .onward {
      stack, answers, memo := walk.memo.set conditional answer, reads := walk.reads }

/-- What a call answers, the memo it leaves and the conditionals it read. -/
structure Outcome where
  answer : Bool
  memo : NodeMemo
  reads : List Node

/-- The question with the memo that is lent, or with one of its own. -/
def conditionalDeclares (lent : Option NodeMemo) (node : Node) : Option Outcome :=
  let memo := lent.getD .default
  match memo.get node with
  | some answer => some ⟨answer, memo, []⟩
  | none => do
    let walk ← Loop.run (turn row) (2 * node.size + 1) ⟨[.read node none], [], memo, []⟩
    return ⟨walk.memo.get node == some true, walk.memo, walk.reads⟩

/-- The questions one walk asks, all through the memo it lends. -/
def asks : List Node → NodeMemo → Option (List Bool × NodeMemo × List Node)
  | [], memo => some ([], memo, [])
  | node :: nodes, memo => do
    let first ← conditionalDeclares row (some memo) node
    let (answers, memo, reads) ← asks nodes first.memo
    return (first.answer :: answers, memo, first.reads ++ reads)

/-! ### What is asked -/

/-- A conditional of the nest below a node: the node itself, or a conditional among the
children of one of the nest. -/
inductive InNest (node : Node) : Node → Prop where
  | outermost : InNest node node
  | nested {conditional child} : InNest node conditional → child ∈ conditional.children →
      row.preprocConditional child = true → InNest node child

/-- Some conditional of the nest has an entry among its children. -/
def HoldsEntry (node : Node) : Prop :=
  ∃ conditional child, InNest row node conditional ∧ child ∈ conditional.children ∧
    row.preprocConditional child = false ∧ row.nonConditionalEntry conditional child = true

end BigCodeAnalysis.Languages.Doxygen
