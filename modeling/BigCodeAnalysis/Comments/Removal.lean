import BigCodeAnalysis.Sequences.Slice
import BigCodeAnalysis.Trees.StackWalk

/-! The removal of comments from a source text. A walk over the syntax tree collects the
spans of the comments that go, from the last to the first; the text is then copied around
them, with a line break for every row a comment spans. -/

namespace BigCodeAnalysis.Comments

open Sequences Trees

abbrev Bytes := List UInt8

def lineFeed : UInt8 := 10

def carriageReturn : UInt8 := 13

/-- What the walk reads of a node itself. -/
structure NodeInfo where
  kindId : ℕ
  startByte : ℕ
  endByte : ℕ
  startRow : ℕ
  endRow : ℕ
  deriving DecidableEq, Repr

abbrev Node := Rose NodeInfo

/-- The ancestors of a node, root first. -/
abbrev Ancestors := List Node

/-- What a language says of a node: whether it is a comment, and one that has to stay. -/
structure Checker where
  isComment : Node → Bool
  isUsefulComment : Node → Bytes → Ancestors → Bool

/-- The bytes of a removed comment and the number of line breaks in its place. -/
structure Span where
  start : ℕ
  stop : ℕ
  lines : ℕ
  deriving DecidableEq, Repr

/-! ### Line endings -/

inductive LineEnding
  | lf
  | crlf
  deriving DecidableEq, Repr

namespace LineEnding

/-- The ending of the first line of `code`. -/
def detect (code : Bytes) : LineEnding :=
  match code.findIdx? (· = lineFeed) with
  | some nl => if 0 < nl ∧ code[nl - 1]? = some carriageReturn then .crlf else .lf
  | none => .lf

def newline : LineEnding → Bytes
  | lf => [lineFeed]
  | crlf => [carriageReturn, lineFeed]

def newlineFastPathLen : ℕ := 8192

def lfNewlines : Bytes := List.replicate newlineFastPathLen lineFeed

/-- Carriage returns, with a line feed at every odd place. -/
def crlfNewlines : Bytes :=
  (List.range (2 * newlineFastPathLen)).map fun i =>
    if i % 2 = 1 then lineFeed else carriageReturn

/-- Short runs are cut from the prepared buffers. -/
def extendNewlines : LineEnding → Bytes → ℕ → Bytes
  | lf, out, lines =>
    if lines ≤ newlineFastPathLen then out ++ lfNewlines.take lines
    else out ++ List.replicate lines lineFeed
  | crlf, out, lines =>
    if lines ≤ newlineFastPathLen then out ++ crlfNewlines.take (2 * lines)
    else out ++ (List.replicate lines crlf.newline).flatten

theorem crlf_range (lines : ℕ) :
    ((List.range (2 * lines)).map fun i => if i % 2 = 1 then lineFeed else carriageReturn) =
      (List.replicate lines crlf.newline).flatten := by
  induction lines with
  | zero => rfl
  | succ lines ih =>
    have hlen : 2 * (lines + 1) = 2 * lines + 1 + 1 := by omega
    have heven : 2 * lines % 2 = 0 := by omega
    have hodd : (2 * lines + 1) % 2 = 1 := by omega
    rw [hlen, List.range_succ, List.range_succ, List.map_append, List.map_append, ih,
      List.replicate_succ', List.flatten_append, List.append_assoc]
    simp [heven, hodd, newline]

/-- The buffers make no difference: `lines` line breaks are appended. -/
theorem extendNewlines_eq (ending : LineEnding) (out : Bytes) (lines : ℕ) :
    ending.extendNewlines out lines = out ++ (List.replicate lines ending.newline).flatten := by
  cases ending with
  | lf =>
    have hflat : (List.replicate lines lf.newline).flatten = List.replicate lines lineFeed := by
      rw [newline, List.flatten_replicate_singleton]
    rw [extendNewlines, hflat]
    split_ifs with hshort
    · rw [lfNewlines, List.take_replicate, Nat.min_eq_left hshort]
    · rfl
  | crlf =>
    rw [extendNewlines]
    split_ifs with hshort
    · rw [crlfNewlines, ← List.map_take, List.take_range, Nat.min_eq_left (by omega), crlf_range]
    · rfl

end LineEnding

/-! ### The walk -/

def span (node : Node) : Span where
  start := node.label.startByte
  stop := node.label.endByte
  lines := node.label.endRow - node.label.startRow

/-- The comment goes. -/
def Checker.removes (checker : Checker) (code : Bytes) (ancestors : Ancestors) (node : Node) :
    Bool :=
  checker.isComment node && !checker.isUsefulComment node code ancestors

/-- One pop. The state is the ancestor chain and the spans so far; a node is pushed with
its depth, and its children one deeper unless it is removed. -/
def visit (checker : Checker) (code : Bytes) :
    StackWalk.Visit NodeInfo ℕ (Ancestors × List Span) :=
  fun (chain, spans) node depth =>
    let chain := chain.take depth
    if checker.removes code chain node then ((chain, spans ++ [span node]), none)
    else if node.children = [] then ((chain, spans), some (depth + 1))
    else ((chain ++ [node], spans), some (depth + 1))

def collectSpans (checker : Checker) (code : Bytes) (root : Node) : List Span :=
  (StackWalk.run .rightmostOnTop (visit checker code) root 0 ([], [])).2

/-! ### The copy -/

/-- A span of at least a byte that takes the carriage return of the line it ends. -/
def endsOnCr (code : Bytes) (s : Span) : Option Bool :=
  if s.start < s.stop then do
    let last ← code[s.stop - 1]?
    return last = carriageReturn && code[s.stop]? = some lineFeed
  else return false

/-- Copies up to one span and writes its line breaks. -/
def replaySpan (code : Bytes) (ending : LineEnding) (out : Bytes × ℕ) (s : Span) :
    Option (Bytes × ℕ) := do
  let kept ← slice code out.2 s.start
  let newCode := out.1 ++ kept
  let newCode := if s.lines ≠ 0 then ending.extendNewlines newCode s.lines else newCode
  let newCode := if ← endsOnCr code s then newCode ++ [carriageReturn] else newCode
  return (newCode, s.stop)

/-- The spans come from the last to the first. -/
def removeFromCode (code : Bytes) (spans : List Span) : Option Bytes := do
  let (newCode, codeStart) ← spans.reverse.foldlM (replaySpan code (.detect code)) ([], 0)
  if codeStart < code.length then
    let rest ← slice code codeStart code.length
    return newCode ++ rest
  else return newCode

/-- The outer `none` is a stopped program, the inner one a text without comments. -/
def rmComments (checker : Checker) (code : Bytes) (root : Node) : Option (Option Bytes) :=
  let spans := collectSpans checker code root
  if spans ≠ [] then (removeFromCode code spans).map some else some none

end BigCodeAnalysis.Comments
