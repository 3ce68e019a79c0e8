import BigCodeAnalysis.Baseline.PathKey
import BigCodeAnalysis.Comments.RemovalWalk
import BigCodeAnalysis.Metrics.Loc
import BigCodeAnalysis.Sequences.Rows

/-! Rows that hold nothing but a continuation backslash. No node covers such a row, so each
node of the walk scans its gaps, the padding around its children, and credits the bare rows it
finds there; a file that cannot hold one skips the scan everywhere. -/

namespace BigCodeAnalysis.Metrics.BareRows

open Comments (Bytes lineFeed carriageReturn Node)
open Baseline (backslash)
open Sequences Trees

/-! ### The shape of a row -/

/-- What the row read so far holds. -/
inductive RowShape where
  | blank
  | backslash
  | backslashCr
  | other
  deriving DecidableEq, Repr

def verticalTab : UInt8 := 0x0b

def formFeed : UInt8 := 0x0c

def isHorizontalSpace (byte : UInt8) : Bool :=
  byte = 32 || byte = 9 || byte = verticalTab || byte = formFeed

def RowShape.step (shape : RowShape) (byte : UInt8) : RowShape :=
  match shape with
  | .blank =>
    if byte = Baseline.backslash then .backslash
    else if isHorizontalSpace byte then .blank else .other
  | .backslash => if byte = carriageReturn then .backslashCr else .other
  | .backslashCr => .other
  | .other => .other

def RowShape.isBare : RowShape → Bool
  | .backslash => true
  | .backslashCr => true
  | .blank => false
  | .other => false

/-- Whether some suffix starts with a continuation, or is one that ends the file. -/
def mayHoldBareRows (code : Bytes) : Bool :=
  (List.range code.length).any fun i =>
    let rest := code.drop i
    [backslash, lineFeed].isPrefixOf rest || [backslash, carriageReturn, lineFeed].isPrefixOf rest ||
      rest = [backslash] || rest = [backslash, carriageReturn]

/-! ### The gaps of a node -/

/-- Padding of a node from `start`, a byte on `row`, up to its child `next` or its end. -/
structure Gap where
  start : ℕ
  row : ℕ
  stop : ℕ
  next : Option Node

/-- The gaps from a position on, before each child and behind the last one. -/
def gapsFrom (stop : ℕ) : ℕ → ℕ → List Node → List Gap
  | start, row, [] => [⟨start, row, stop, none⟩]
  | start, row, child :: rest =>
    ⟨start, row, child.label.startByte, some child⟩ ::
      gapsFrom stop child.label.endByte child.label.endRow rest

/-- The root alone owns the padding from the first byte on and up to the end of the file. -/
def gaps (code : Bytes) (isRoot : Bool) (node : Node) : List Gap :=
  if isRoot then gapsFrom code.length 0 0 node.children
  else gapsFrom node.label.endByte node.label.startByte node.label.startRow node.children

/-! ### Scanning a gap -/

/-- The row being read; `rowStart` is `none` while it began inside a child. -/
structure Reading where
  row : ℕ
  rowStart : Option ℕ
  shape : RowShape
  deriving DecidableEq, Repr

/-- The number and the first byte of the row being read, if it is bare. -/
def Reading.bare (r : Reading) : List (ℕ × ℕ) :=
  match r.rowStart with
  | some first => if r.shape.isBare then [(r.row, first)] else []
  | none => []

def Reading.next (r : Reading) (offset : ℕ) (byte : UInt8) : Reading :=
  if byte = lineFeed then ⟨r.row + 1, some (offset + 1), .blank⟩
  else { r with shape := r.shape.step byte }

/-- The bare rows that end among the bytes, and the row left open behind them. -/
def readRows : ℕ → Reading → Bytes → List (ℕ × ℕ) × Reading
  | _, r, [] => ([], r)
  | offset, r, byte :: bytes =>
    let (rows, last) := readRows (offset + 1) (r.next offset byte) bytes
    ((if byte = lineFeed then r.bare else []) ++ rows, last)

/-- The reading at the start of a gap, which may lie in the middle of a row. -/
def Gap.reading (code : Bytes) (gap : Gap) : Reading where
  row := gap.row
  rowStart :=
    if gap.start = 0 ∨ code[gap.start - 1]? = some lineFeed then some gap.start else none
  shape := .blank

/-- A bare row to credit, in the gap that starts at `gapStart` and ends at `next`. -/
structure Credit where
  row : ℕ
  rowStart : ℕ
  gapStart : ℕ
  next : Option Node

/-- The bare rows of a gap. At the end of the file the last one may lack its line feed. -/
def scanGap (code : Bytes) (gap : Gap) : List Credit :=
  match slice code gap.start gap.stop with
  | none => []
  | some bytes =>
    let (rows, last) := readRows gap.start (gap.reading code) bytes
    (rows ++ if gap.stop = code.length then last.bare else []).map fun r =>
      ⟨r.1, r.2, gap.start, gap.next⟩

def scan (code : Bytes) (isRoot : Bool) (node : Node) : List Credit :=
  (gaps code isRoot node).flatMap (scanGap code)

/-! ### Crediting -/

/-- A node's start row, the bare row and its end row. -/
def rowsAroundAGapRow : ℕ := 2

/-- A node other than the root is passed over when it has no child or spans too few rows. -/
def isScanned (isRoot : Bool) (node : Node) : Bool :=
  isRoot || !(node.children.length = 0 ||
    node.label.endRow < node.label.startRow + rowsAroundAGapRow)

/-- What a bare row is credited as. -/
inductive BareRow where
  | code
  | comment
  | blank
  deriving DecidableEq, Repr

/-- How a row of a node's gaps is classified, given the bare row credited before it. -/
abbrev Classify := Node → Option (ℕ × BareRow) → Credit → BareRow

/-- A comment on a row that is code already is a comment on a code line. -/
def credit (classify : Option (ℕ × BareRow) → Credit → BareRow)
    (s : Loc.Stats × Option (ℕ × BareRow)) (c : Credit) : Loc.Stats × Option (ℕ × BareRow) :=
  let (stats, previousBare) := s
  let bareRow := classify previousBare c
  let stats :=
    match bareRow with
    | .comment =>
      if c.row ∈ stats.ploc.lines then stats.addCodeCommentLine c.row
      else stats.addOnlyCommentLines c.row c.row
    | .code => { stats with ploc := { stats.ploc with lines := insert c.row stats.ploc.lines } }
    | .blank => stats
  (stats, some (c.row, bareRow))

def creditBareContinuationRows (classify : Classify) (code : Bytes) (bareRowsPossible : Bool)
    (isRoot : Bool) (node : Node) (stats : Loc.Stats) : Loc.Stats :=
  if !bareRowsPossible then stats
  else if !isScanned isRoot node then stats
  else ((scan code isRoot node).foldl (credit (classify node)) (stats, none)).1

/-- The nodes the walk visits, each told whether it is the root. -/
def visits (root : Node) : List (Bool × Node) :=
  (true, root) :: (Rose.forestNodes root.children).map fun node => (false, node)

/-- What the scan of one visited node credits. -/
def credited (code : Bytes) (visit : Bool × Node) : List Credit :=
  if isScanned visit.1 visit.2 then scan code visit.1 visit.2 else []

/-- The rows that the scans of a walk credit, one scan behind the other. -/
def creditedRows (code : Bytes) (root : Node) : List ℕ :=
  (visits root).flatMap fun visit => (credited code visit).map Credit.row

end BigCodeAnalysis.Metrics.BareRows
