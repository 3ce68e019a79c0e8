import BigCodeAnalysis.Sequences.Loop
import BigCodeAnalysis.Trees.Cursor
import Mathlib.Algebra.Group.Nat.Defs

/-! The export of a syntax tree. A node is finished once all its children are: the alterator
keeps it, rewrites it or drops it. The tree is walked by a cursor that moves from node to node,
or by child index; both keep one stack of frames and a chain of the nodes on it. -/

namespace BigCodeAnalysis.Ast

open Sequences Trees

abbrev Node (α : Type*) := FieldTree α

/-- A tree as the parser hands it over: the children of a node are counted in 32 bits. -/
structure ParsedTree (α : Type*) where
  root : Node α
  narrow : ∀ node : Node α, node ∈ root.nodes → node.childCount ≤ 2 ^ 32

/-- The call `f(x)`. -/
def callTree : ParsedTree String where
  root := .node ⟨"call", none⟩ [.node ⟨"f", some "function"⟩ [], .node ⟨"x", some "argument"⟩ []]
  narrow := by decide

/-! ### What a finished node becomes -/

structure Span where
  startLine : ℕ
  startCol : ℕ
  endLine : ℕ
  endCol : ℕ
  startByte : ℕ
  endByte : ℕ
  deriving DecidableEq, Repr

structure AstNode where
  type : String
  value : String
  span : Option Span
  fieldName : Option String
  children : List AstNode

/-- What a language answers about a node, and what the tree and the source say of it. -/
structure Alterator (α : Type*) where
  isComment : Node α → Bool
  keepsChildren : Node α → List (Node α) → Bool
  alterate : Node α → Bool → Option String → List AstNode → AstNode
  kind : Node α → String
  startPosition : Node α → ℕ × ℕ
  endPosition : Node α → ℕ × ℕ
  bytes : Node α → ℕ × ℕ
  /-- The node's text, with what is not UTF-8 replaced. -/
  text : Node α → String

namespace Alterator

variable {α : Type*} (T : Alterator α)

def getTextSpan (node : Node α) (span text : Bool) : String × Option Span :=
  (if text then T.text node else "",
    if span then
      some ⟨(T.startPosition node).1 + 1, (T.startPosition node).2 + 1, (T.endPosition node).1 + 1,
        (T.endPosition node).2 + 1, (T.bytes node).1, (T.bytes node).2⟩
    else none)

def getDefault (node : Node α) (span : Bool) (fieldName : Option String)
    (children : List AstNode) : AstNode :=
  let (text, span) := T.getTextSpan node span (node.childCount == 0)
  ⟨T.kind node, text, span, fieldName, children⟩

def getAstNode (span comment : Bool) (node : Node α) (fieldName : Option String)
    (children : List AstNode) (ancestors : List (Node α)) : Option AstNode :=
  if comment && T.isComment node then none
  else if T.keepsChildren node ancestors then some (T.getDefault node span fieldName children)
  else some (T.alterate node span fieldName children)

end Alterator

/-- The decision on a node, given its field, its exported children and its ancestors, root
first. `Alterator.getAstNode` is one; an exported node may be of any type. -/
abbrev GetAstNode (α A : Type*) :=
  Node α → Option String → List A → List (Node α) → Option A

variable {α A : Type*}

/-! ### Frames -/

structure Frame (α A : Type*) where
  node : Node α
  field : Option String
  children : List A
  nextChild : ℕ

def Frame.new (node : Node α) (field : Option String) : Frame α A := ⟨node, field, [], 0⟩

/-- What the alterator was asked about a node. -/
structure Finished (α A : Type*) where
  node : Node α
  field : Option String
  children : List A
  chain : List (Node α)

/-- The head of `stack` is its top, the root heads `chain`. `finished` lists what the
alterator was asked. -/
structure Export (α A : Type*) where
  stack : List (Frame α A)
  chain : List (Node α)
  finished : List (Finished α A)

namespace Export

def new (root : Node α) : Export α A := ⟨[.new root none], [root], []⟩

def enter (self : Export α A) (child : Node α) (field : Option String) : Export α A :=
  { self with stack := .new child field :: self.stack, chain := self.chain ++ [child] }

/-- Finish the top frame: go on with its export in the frame below, or break with it at the
root. An empty stack panics. -/
def finish (get : GetAstNode α A) (self : Export α A) :
    Option (ControlFlow (Export α A) (Option A × List (Finished α A))) :=
  match self.stack with
  | [] => none
  | frame :: rest =>
    let chain := self.chain.dropLast
    let node := get frame.node frame.field frame.children chain
    let finished := self.finished ++ [⟨frame.node, frame.field, frame.children, chain⟩]
    match rest with
    | parent :: below =>
      some (.onward {
        stack := { parent with children := parent.children ++ node.toList } :: below
        chain, finished })
    | [] => some (.leave (node, finished))

end Export

/-! ### The cursor's walk -/

/-- Where the cursor's walk is: in the loop that descends, or in the one that finishes. -/
inductive Phase where
  | descend
  | finish
  deriving DecidableEq, Repr

structure CursorWalk (α A : Type*) where
  phase : Phase
  cursor : Cursor α
  exported : Export α A

variable (get : GetAstNode α A)

/-- One turn of either loop. A climb above the root panics. -/
def cursorTurn (walk : CursorWalk α A) :
    Option (ControlFlow (CursorWalk α A) (Option A × List (Finished α A))) :=
  match walk.phase with
  | .descend =>
    match walk.cursor.gotoFirstChild with
    | some cursor =>
      some (.onward ⟨.descend, cursor, walk.exported.enter cursor.node cursor.fieldName⟩)
    | none => some (.onward { walk with phase := .finish })
  | .finish =>
    match walk.exported.finish get with
    | none => none
    | some (.leave result) => some (.leave result)
    | some (.onward exported) =>
      match walk.cursor.gotoNextSibling with
      | some cursor => some (.onward ⟨.descend, cursor, exported.enter cursor.node cursor.fieldName⟩)
      | none => walk.cursor.gotoParent.map fun cursor => .onward ⟨.finish, cursor, exported⟩

/-- `build_cursor`, with what the alterator was asked. -/
def buildCursor (root : Node α) : Option (Option A × List (Finished α A)) :=
  Loop.run (cursorTurn get) (3 * root.size + 1) ⟨.descend, .new root, .new root⟩

/-! ### The index -/

/-- One turn of the loop. It panics on an empty stack, and on a child index past 32 bits. -/
def indexedTurn (exported : Export α A) :
    Option (ControlFlow (Export α A) (Option A × List (Finished α A))) :=
  match exported.stack with
  | [] => none
  | frame :: rest =>
    let idx := frame.nextChild
    if idx < frame.node.childCount then
      match frame.node.child idx with
      | none => none
      | some child =>
        if idx < 2 ^ 32 then
          let field := frame.node.fieldNameForChild idx
          let moved := { exported with stack := { frame with nextChild := idx + 1 } :: rest }
          some (.onward (moved.enter child field))
        else none
    else exported.finish get

/-- `build_indexed`, with what the alterator was asked. -/
def buildIndexed (root : Node α) : Option (Option A × List (Finished α A)) :=
  Loop.run (indexedTurn get) (2 * root.size + 1) (.new root)

/-! ### The recursion -/

mutual
/-- The export of a node below `chain`, reached through `field`. -/
def exportNode (chain : List (Node α)) (field : Option String) : Node α → Option A
  | .node label cs =>
    get (.node label cs) field (exportForest (chain ++ [.node label cs]) cs) chain

def exportForest (chain : List (Node α)) : List (Node α) → List A
  | [] => []
  | t :: ts => (exportNode chain t.label.field t).toList ++ exportForest chain ts
end

mutual
/-- What the alterator is asked within a node: a node after its children. -/
def finishes (chain : List (Node α)) (field : Option String) : Node α → List (Finished α A)
  | .node label cs =>
    forestFinishes (chain ++ [.node label cs]) cs ++
      [⟨.node label cs, field, exportForest get (chain ++ [.node label cs]) cs, chain⟩]

def forestFinishes (chain : List (Node α)) : List (Node α) → List (Finished α A)
  | [] => []
  | t :: ts => finishes chain t.label.field t ++ forestFinishes chain ts
end

end BigCodeAnalysis.Ast
