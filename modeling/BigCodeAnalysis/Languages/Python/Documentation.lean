import BigCodeAnalysis.Languages.Python.Node
import BigCodeAnalysis.Sequences.Loop

/-! Which bare strings of a body are documentation. A string statement belongs to a run of such
statements; the run documents where it opens a body that holds documentation, or follows an
assignment the body reads attribute docstrings after. -/

namespace BigCodeAnalysis.Languages.Python

open Sequences Trees

/-- The deepest nesting of parentheses CPython reads. -/
def maxParentheses : ℕ := 200

/-! ### Literals and parentheses -/

def isAsciiAlphabetic (b : UInt8) : Bool := (65 ≤ b && b ≤ 90) || (97 ≤ b && b ≤ 122)

def toAsciiLowercase (b : UInt8) : UInt8 := if 65 ≤ b && b ≤ 90 then b + 32 else b

/-- No `f`, `t` or `b` in the letters before the quotes. -/
def isStr (literal : Node) : Bool :=
  !(literal.text.takeWhile isAsciiAlphabetic).any fun b =>
    toAsciiLowercase b = 102 || toAsciiLowercase b = 116 || toAsciiLowercase b = 98

def isStrLiteral (value : Node) : Bool :=
  if value.kind = .concatenatedString then
    (value.children.filter fun fragment : Node => fragment.kind = .string).all isStr
  else isStr value

/-- An expression statement that holds one value. -/
def isBareStatement (statement : Node) : Bool :=
  statement.kind = .expressionStatement && statement.childCount = 1

def isStringKind (value : Node) : Bool := value.kind = .string || value.kind = .concatenatedString

/-- The expression one parenthesis holds: its first named child that is no comment. -/
def unparenthesizedOnce (node : Node) : Option Node :=
  if node.kind = .parenthesizedExpression then
    node.children.find? fun child : Node => child.isNamed && !(child.kind = .comment)
  else none

/-- The value with at most this many parentheses taken off. -/
def unparenthesized : ℕ → Node → Node
  | 0, value => value
  | n + 1, value =>
    match unparenthesizedOnce value with
    | some inner => unparenthesized n inner
    | none => value

def statementString (statement : Node) : Option Node :=
  if isBareStatement statement then
    ((statement.child 0).map (unparenthesized maxParentheses)).filter isStringKind
  else none

def isStringStatement (statement : Node) : Bool := (statementString statement).any isStrLiteral

/-- The nearest ancestor that is no parenthesis around the node. -/
def enclosingStatement (value : Place) : Option Place :=
  (value.ancestors.take (maxParentheses + 1)).find? fun ancestor : Place =>
    !(Node.kind ancestor.node = .parenthesizedExpression)

/-! ### Assignments -/

/-- `typed` or not, the first parameter's name. -/
def firstParameterName (function : Node) : Option (List UInt8) := do
  let parameters ← function.childByFieldName "parameters"
  let first ← parameters.children.find? fun child : Node =>
    child.isNamed && !(child.kind = .comment)
  let name : Node ←
    if Node.kind first = .typedParameter then first.children.find? Node.isNamed else some first
  if name.kind = .identifier then some name.text else none

/-- The assignments a body reads attribute docstrings after. -/
inductive Attributes where
  | names
  | ofSelf (name : List UInt8)
  | nothing
  deriving DecidableEq, Repr

/-- The name `__init__`. -/
def initName : List UInt8 := [95, 95, 105, 110, 105, 116, 95, 95]

def isClassInit (function : Node) (up : List Place) : Bool :=
  (function.childByFieldName "name").any (fun name : Node => name.text = initName) &&
    (up.find? fun place : Place =>
      !(Node.kind place.node = .decoratedDefinition) && !pythonIsBlock place.node).any
        fun place : Place => Node.kind place.node = .classDefinition

def ownerAttributes (owner : Node) (up : List Place) : Option Attributes :=
  if owner.kind = .classDefinition then some .names
  else if owner.kind = .functionDefinition then
    match if isClassInit owner up then firstParameterName owner else none with
    | some name => some (.ofSelf name)
    | none => some .nothing
  else none

/-- What a body makes of its assignments, given the ancestors above a statement of it. -/
def bodyAttributes : List Place → Option Attributes
  | [] => none
  | container :: up =>
    if Node.kind container.node = .module then some .names
    else
      match up with
      | [] => none
      | owner :: up => if pythonIsBlock container.node then ownerAttributes owner.node up else none

/-- One turn of the search through an assignment's target. The head of the list is the top of
the stack. -/
def bindsTurn (leaf : Node → Bool) : List Node → Option (ControlFlow (List Node) Bool)
  | [] => some (.leave false)
  | node :: pending =>
    if node.kind = .identifier || node.kind = .subscript || node.kind = .attribute then
      if leaf node then some (.leave true) else some (.onward pending)
    else some (.onward ((node.children.filter Node.isNamed).reverse ++ pending))

/-- The search ends within as many turns as the target has nodes. -/
def binds (target : Node) (leaf : Node → Bool) : Bool :=
  Loop.run (bindsTurn leaf) (target.size + 1) [target] == some true

def assignmentTarget (statement : Node) : Option Node :=
  if statement.kind = .expressionStatement then
    ((statement.child 0).filter fun value : Node => value.kind = .assignment).bind
      fun assignment : Node => assignment.childByFieldName "left"
  else none

/-- Whether a statement makes the string after it an attribute docstring. -/
def Attributes.documentedBy (attributes : Attributes) (statement : Node) : Bool :=
  if statement.kind = .typeAliasStatement then attributes = .names
  else
    match assignmentTarget statement with
    | none => false
    | some target =>
      match attributes with
      | .names => binds target fun leaf : Node => leaf.kind = .identifier
      | .ofSelf name => binds target fun leaf : Node =>
          leaf.kind = .attribute && (leaf.childByFieldName "object").any fun object : Node =>
            object.kind = .identifier && object.text = name
      | .nothing => false

/-! ### Runs -/

/-- The backward scan over the siblings before, nearest first: the run's first statement, or
nothing where the run does not document. -/
def runStart (attributes : Attributes) (first : Place) : List Place → Option Place
  | [] => some first
  | sibling :: before =>
    if isStatement sibling then
      if isStringStatement sibling.node then runStart attributes sibling before
      else if attributes.documentedBy sibling.node then some first
      else none
    else runStart attributes first before

def documentationRun (value : Place) : Option Place :=
  if isStrLiteral value.node then do
    let statement ← enclosingStatement value
    if isBareStatement statement.node then
      let attributes ← bodyAttributes statement.ancestors
      runStart attributes statement statement.siblingsBefore
    else none
  else none

def pythonIsDocumentationString (value : Place) : Bool := (documentationRun value).isSome

/-- The statements credited when the string is asked about: none but at the last of a run. -/
def runMembers (value : Place) : List Place :=
  match enclosingStatement value with
  | none => []
  | some statement =>
    if (statement.siblingsAfter.find? isStatement).any fun next : Place =>
        isStringStatement next.node then []
    else
      match documentationRun value with
      | none => []
      | some first =>
        ((first :: first.siblingsAfter).takeWhile fun member : Place =>
          decide (Node.startByte member.node ≤ Node.startByte statement.node)).filter
            fun member : Place => isStringStatement member.node

/-- The rows of a value and of the parentheses around it. -/
def documentationRows : ℕ → Node → List (ℕ × ℕ)
  | 0, value => [(value.startRow, value.endRow)]
  | n + 1, value =>
    match unparenthesizedOnce value with
    | none => [(value.startRow, value.endRow)]
    | some inner =>
      (value.children.filter fun child : Node => !child.isNamed).map
        (fun paren : Node => (paren.startRow, paren.endRow)) ++ documentationRows n inner

def creditDocumentationRows (statement : Node) : List (ℕ × ℕ) :=
  match statement.child 0 with
  | none => []
  | some value => documentationRows maxParentheses value

def pythonDocumentationStringRun (value : Place) : List (ℕ × ℕ) :=
  (runMembers value).flatMap fun member : Place => creditDocumentationRows member.node

/-! ### The bodies asked about -/

/-- The strings inside at most this many parentheses. -/
def stringsWithin : ℕ → Place → List Place
  | n, place =>
    if isStringKind place.node then [place]
    else if Node.kind place.node = .parenthesizedExpression then
      match n with
      | 0 => []
      | n + 1 => place.children.flatMap (stringsWithin n)
    else []

/-- The bare string values of a statement. -/
def bareStrings (statement : Place) : List Place :=
  if isBareStatement statement.node then statement.children.flatMap (stringsWithin maxParentheses)
  else []

/-- What a parenthesis may hold beside its expression. -/
def isExtra (node : Node) : Bool := node.kind = .comment || node.kind = .lineContinuation

/-- A body as the parser gives it: a parenthesis holds one expression, statements stand one
after the other, and one that is an expression is not empty. -/
structure Body where
  container : Place
  parenthesized : ∀ node : Node, node ∈ container.node.nodes →
    node.kind = .parenthesizedExpression →
    ∃ e, (node.children.filter fun child : Node => child.isNamed && !isExtra child) = [e]
  ordered : container.node.children.Pairwise fun a b : Node =>
    a.startByte ≤ b.startByte ∧ a.endByte ≤ b.startByte
  nonempty : ∀ statement : Node, statement ∈ container.node.children →
    statement.kind = .expressionStatement → statement.startByte < statement.endByte

namespace Body

variable (body : Body)

def statements : List Place := body.container.children

def values : List Place := body.statements.flatMap bareStrings

def attributes : Option Attributes := bodyAttributes (body.container :: body.container.ancestors)

end Body

end BigCodeAnalysis.Languages.Python
