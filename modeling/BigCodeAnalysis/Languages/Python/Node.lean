import BigCodeAnalysis.Trees.Cursor

/-! Python syntax trees, as far as documentation and attributes are read off them. -/

namespace BigCodeAnalysis.Languages.Python

open Trees

/-- The kinds of node that are told apart. A `\` at a row's end is a node of its own. -/
inductive Kind where
  | module | block | block2
  | classDefinition | functionDefinition | decoratedDefinition | lambda
  | comment | lineContinuation
  | expressionStatement | typeAliasStatement | assignment
  | parenthesizedExpression | string | concatenatedString
  | identifier | attribute | subscript | typedParameter
  | patternList | expressionList | tuplePattern | tuplePattern2 | listPattern | listPattern2
  | eq | lparen | rparen
  | other (id : ℕ) (named : Bool)
  deriving DecidableEq, Repr

/-- Tokens are unnamed. -/
def Kind.isNamed : Kind → Bool
  | .eq | .lparen | .rparen => false
  | .other _ named => named
  | _ => true

structure NodeData where
  id : ℕ
  kind : Kind
  startByte : ℕ
  endByte : ℕ
  startRow : ℕ
  endRow : ℕ
  text : List UInt8
  deriving DecidableEq, Repr

abbrev Node := FieldTree NodeData

/-- A node with its ancestors and its place among its siblings. -/
abbrev Place := Cursor NodeData

namespace Node

variable (node : Node)

def id : ℕ := node.label.data.id

def kind : Kind := node.label.data.kind

def isNamed : Bool := node.kind.isNamed

def startByte : ℕ := node.label.data.startByte

def endByte : ℕ := node.label.data.endByte

def startRow : ℕ := node.label.data.startRow

def endRow : ℕ := node.label.data.endRow

def text : List UInt8 := node.label.data.text

def childByFieldName (field : String) : Option Node :=
  node.children.find? fun child => child.label.field = some field

end Node

def pythonIsBlock (node : Node) : Bool := node.kind = .block || node.kind = .block2

/-- A sibling that counts: comments are extras, and tokens do not. -/
def isStatement (place : Place) : Bool := Node.isNamed place.node && !(Node.kind place.node = .comment)

end BigCodeAnalysis.Languages.Python
