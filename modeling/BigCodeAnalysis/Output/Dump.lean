import BigCodeAnalysis.Output.OffenderRecord
import BigCodeAnalysis.Trees.Rose

/-! The drawing of a syntax tree on a terminal. One buffer holds the glyphs in front of a line,
and a pending node keeps only the length of its part of it. -/

namespace BigCodeAnalysis.Output.Dump

open Trees

/-- A node with the text it covers. -/
structure NodeData where
  kind : String
  kindId : ℕ
  startPosition : ℕ × ℕ
  endPosition : ℕ × ℕ
  text : List UInt8
  deriving DecidableEq, Repr

abbrev Node := Rose NodeData

namespace Node

variable (node : Node)

def kind : String := node.label.kind

def kindId : ℕ := node.label.kindId

def startPosition : ℕ × ℕ := node.label.startPosition

def endPosition : ℕ × ℕ := node.label.endPosition

def startRow : ℕ := (startPosition node).1

def endRow : ℕ := (endPosition node).1

def text : List UInt8 := node.label.text

end Node

/-! ### Writing a line -/

inductive Color where
  | blue | yellow | white | green | red
  deriving DecidableEq, Repr

/-- What a terminal is sent. -/
inductive Write where
  | color (c : Color)
  | intense (c : Color)
  | bytes (bs : List UInt8)
  deriving DecidableEq, Repr

def paint (c : Color) (bs : List UInt8) : List Write := [.color c, .bytes bs]

/-- Single-row nodes only. -/
def printsSnippet (node : Node) : Bool := node.startRow = node.endRow

def writeNodeHeader (node : Node) (pref own : List UInt8) : List Write :=
  paint .blue (pref ++ own) ++ [.intense .yellow,
    .bytes (utf8 ("\x7b" ++ node.kind ++ ":" ++ toString node.kindId ++ "\x7d "))]

/-- Rows and columns count from one. -/
def position (place : ℕ × ℕ) : List UInt8 :=
  utf8 ("(" ++ toString (place.1 + 1) ++ ", " ++ toString (place.2 + 1) ++ ") ")

def writeNodeLocation (node : Node) : List Write :=
  paint .white (utf8 "from ") ++ paint .green (position node.startPosition) ++
    paint .white (utf8 "to ") ++ paint .green (position node.endPosition)

def writeSnippetSeparator (text : String) : List Write :=
  paint .white (utf8 text) ++ [.intense .red]

def elided : String := "…"

def isUtf8 (bs : List UInt8) : Bool := (ByteArray.mk bs.toArray).validateUTF8

/-- The pieces, and a space behind them if they are UTF-8. -/
def writeSnippet (pieces : List (List UInt8)) : List Write :=
  writeSnippetSeparator ": " ++
    (pieces.zipIdx.flatMap fun (bs, nth) =>
      (if 0 < nth then writeSnippetSeparator elided else []) ++ [.bytes bs]) ++
    if pieces.all isUtf8 then [.bytes [32]] else []

def writeNodeLine (node : Node) (pref own : List UInt8) (snippet : List (List UInt8)) :
    List Write :=
  writeNodeHeader node pref own ++ writeNodeLocation node ++
    (if printsSnippet node then writeSnippet snippet else []) ++ [.bytes [10]]

/-! ### The walk -/

inductive Connector where
  | flush | last | inner
  deriving DecidableEq, Repr

/-- What a node puts in front of its children, and in front of its own line. -/
def Connector.glyphs : Connector → List UInt8 × List UInt8
  | .flush => ([], [])
  | .last => (utf8 "   ", utf8 "╰─ ")
  | .inner => (utf8 "│  ", utf8 "├─ ")

def startConnector (parent : Option Node) : Connector :=
  if parent.isNone then .flush else .last

structure Frame where
  node : Node
  prefixLen : ℕ
  connector : Connector
  depth : Int32

/-- The rows asked for, counted from one. -/
structure LineFilter where
  lineStart : Option ℕ
  lineEnd : Option ℕ
  deriving DecidableEq, Repr

def LineFilter.lineInRange (lines : LineFilter) (row : ℕ) : Bool :=
  lines.lineStart.all (· ≤ row) && lines.lineEnd.all (row ≤ ·)

/-- The children go on in source order and are reversed in place. The head of the stack is its
top. -/
def pushChildren (stack : List Frame) (children : List Node) (prefixLen : ℕ) (depth : Int32) :
    List Frame :=
  let pushed := (children.map fun node => ⟨node, prefixLen, .inner, depth⟩).reverse
  (pushed.modifyHead fun frame => { frame with connector := .last }).reverse ++ stack

/-- Pops until the stack is empty. The depth counts down past zero and wraps. -/
def dumpLoop (lines : LineFilter) : ℕ → List Frame → List UInt8 → List Write → List Write
  | 0, _, _, out => out
  | _ + 1, [], _, out => out
  | fuel + 1, frame :: stack, pref, out =>
    if frame.depth = 0 then dumpLoop lines fuel stack pref out
    else
      let pref := pref.take frame.prefixLen
      let out :=
        if lines.lineInRange (frame.node.startRow + 1) then
          out ++ writeNodeLine frame.node pref frame.connector.glyphs.2 [frame.node.text]
        else out
      if frame.node.children.length = 0 then dumpLoop lines fuel stack pref out
      else
        let pref := pref ++ frame.connector.glyphs.1
        dumpLoop lines fuel
          (pushChildren stack frame.node.children pref.length (frame.depth - 1)) pref out

def dumpTreeHelper (lines : LineFilter) (node : Node) (parent : Option Node) (depth : Int32) :
    List Write :=
  dumpLoop lines node.size [⟨node, 0, startConnector parent, depth⟩] [] []

end BigCodeAnalysis.Output.Dump
