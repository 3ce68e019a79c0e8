import BigCodeAnalysis.Trees.Cursor
import BigCodeAnalysis.Trees.RootPath
import Mathlib.Data.List.Basic

/-! Repeated guards of an Elixir clause. The alternatives nest as `when` operators, and only the
position of the outermost tells a guard from a type annotation. A climb from a token passes the
operators in between and files its answer under each of them. -/

namespace BigCodeAnalysis.Languages.Elixir

open Trees

/-- The kinds that are told apart. Aliases of a rule are named alike. -/
inductive Kind where
  | binaryOperator | binaryOperator2 | binaryOperator3
  | arguments | arguments2 | arguments3 | arguments4 | arguments5
  | call | identifier | stabClause | «when» | ltdash
  | other (id : ℕ)
  deriving DecidableEq, Repr

/-- `text` is missing where the bytes are not UTF-8. -/
structure NodeData where
  id : ℕ
  kind : Kind
  text : Option String
  deriving DecidableEq, Repr

abbrev Node := FieldTree NodeData

namespace Node

variable (node : Node)

def id : ℕ := node.label.data.id

def kind : Kind := node.label.data.kind

def text : Option String := node.label.data.text

def isBinaryOperator : Bool :=
  node.kind ∈ [Kind.binaryOperator, .binaryOperator2, .binaryOperator3]

def isArguments : Bool :=
  node.kind ∈ [Kind.arguments, .arguments2, .arguments3, .arguments4, .arguments5]

end Node

/-! ### Calls -/

/-- The words a guard's position depends on. -/
inductive ElixirCallTarget where
  | other | «def» | defp | defMacro | defmacrop | defguard | defguardp
  deriving DecidableEq, Repr

namespace ElixirCallTarget

def fromText (text : String) : ElixirCallTarget :=
  if text = "def" then .def
  else if text = "defp" then .defp
  else if text = "defmacro" then .defMacro
  else if text = "defmacrop" then .defmacrop
  else if text = "defguard" then .defguard
  else if text = "defguardp" then .defguardp
  else .other

def isMethodMacro (target : ElixirCallTarget) : Bool :=
  target ∈ [ElixirCallTarget.def, .defp, .defMacro, .defmacrop]

end ElixirCallTarget

def elixirCallKeyword (node : Node) : Option String :=
  if node.kind ≠ .call then none
  else match node.childByFieldName "target" with
    | none => none
    | some target => if Node.kind target ≠ .identifier then none else Node.text target

/-! ### Positions -/

def elixirIsBinaryOperator (node : Node) (operator : Kind) : Bool :=
  node.isBinaryOperator &&
    (node.childByFieldName "operator").any fun token : Node => token.kind = operator

def elixirIsWhenOperator (node : Node) : Bool := elixirIsBinaryOperator node .when

/-- The arguments of a `with` and the call itself come next. -/
def elixirIsWithArgument : List Node → Bool
  | arguments :: call :: _ =>
    arguments.isArguments && decide (elixirCallKeyword call = some "with")
  | _ => false

def takesGuardedHead (call : Node) : Bool :=
  (elixirCallKeyword call).any fun keyword =>
    let target := ElixirCallTarget.fromText keyword
    target.isMethodMacro || target = .defguard || target = .defguardp

/-- `up` are the ancestors above the parent, nearest first. -/
def elixirIsGuardPosition (operator parent : Node) (up : List Node) : Bool :=
  if parent.kind = .stabClause then
    (parent.childByFieldName "left").any fun left : Node => left.id = operator.id
  else if elixirIsBinaryOperator parent .ltdash then elixirIsWithArgument up
  else parent.isArguments && up.head?.any takesGuardedHead

/-! ### The climb -/

/-- What the walk has filed, newest first, and the operators whose position was tested. -/
structure GuardMemo where
  entries : List (ℕ × Bool)
  tested : List ℕ

namespace GuardMemo

def empty : GuardMemo := ⟨[], []⟩

variable (memo : GuardMemo) (node : Node)

def get : Option Bool := memo.entries.lookup node.id

def set (answer : Bool) : GuardMemo := { memo with entries := (node.id, answer) :: memo.entries }

end GuardMemo

/-- The answer, the operators passed, and the operator tested, if it came to that. -/
structure Climb where
  answer : Bool
  passed : List Node
  tested : Option Node

/-- Up from `operator` through `when` operators, to one with a known answer or to the first
other ancestor. -/
def climb (known : Node → Option Bool) (operator : Node) (passed : List Node) : List Node → Climb
  | [] => ⟨false, passed, some operator⟩
  | parent :: up =>
    if elixirIsWhenOperator parent then
      match known parent with
      | some answer => ⟨answer, passed, none⟩
      | none => climb known parent (passed ++ [parent]) up
    else ⟨elixirIsGuardPosition operator parent up, passed, some operator⟩

/-- A climb's answer, filed under each operator passed and the one it started from. -/
def GuardMemo.record (memo : GuardMemo) (operator : Node) (climbed : Climb) : GuardMemo :=
  let filed := climbed.passed.foldl (fun memo node => memo.set node climbed.answer) memo
  { (filed.set operator climbed.answer) with
    tested := filed.tested ++ (climbed.tested.map Node.id).toList }

/-- `up` are the ancestors of the token, nearest first. Without a memo nothing is known and
nothing is filed. -/
def elixirWhenIsGuard (up : List Node) (lent : Option GuardMemo) : Bool × Option GuardMemo :=
  match up with
  | [] => (false, lent)
  | operator :: above =>
    match lent.bind (·.get operator) with
    | some answer => (answer, lent)
    | none =>
      let climbed := climb (fun node => lent.bind (·.get node)) operator [] above
      (climbed.answer, lent.map fun memo => memo.record operator climbed)

/-- Questions one after the other, about tokens given by their ancestors. -/
def askAll : List (List Node) → GuardMemo → List Bool × GuardMemo
  | [], memo => ([], memo)
  | up :: questions, memo =>
    let (answer, lent) := elixirWhenIsGuard up (some memo)
    let (answers, memo) := askAll questions (lent.getD memo)
    (answer :: answers, memo)

/-! ### Alternatives -/

/-- The alternative that a token introduces. -/
def elixirWhenAlternative (whenOperator : Node) : Option Node :=
  (whenOperator.childByFieldName "right").bind fun right =>
    if elixirIsWhenOperator right then right.childByFieldName "left" else some right

end BigCodeAnalysis.Languages.Elixir
