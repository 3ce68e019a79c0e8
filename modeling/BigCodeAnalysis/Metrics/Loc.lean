import BigCodeAnalysis.Trees.Timeline
import Mathlib.Algebra.GroupWithZero.Nat
import Mathlib.Data.Finset.Card
import Mathlib.Order.Interval.Finset.Nat

/-! Lines of code of a space. The physical, comment and documentation rows are sets of
0-based rows, recorded as the walk visits the nodes of the space; the source rows are the
space's span less the rows pruned with the tests. A finished space is clamped to its span,
settled, and merged into its parent. -/

namespace BigCodeAnalysis.Metrics.Loc

open Trees

/-- A set of 0-based rows. -/
abbrev LineSet := Finset ℕ

namespace LineSet

/-- Inclusive on both ends; an inverted range inserts nothing. -/
def insertRange (s : LineSet) (first last : ℕ) : LineSet := s ∪ Finset.Icc first last

def retainRange (s : LineSet) (first last : ℕ) : LineSet :=
  s.filter fun row => first ≤ row ∧ row ≤ last

end LineSet

def usizeMax : ℕ := 2 ^ 64 - 1

/-- The smallest and largest value seen; `usizeMax` stands for a minimum of nothing. -/
structure Extrema where
  min : ℕ
  max : ℕ
  deriving DecidableEq, Repr

namespace Extrema

def default : Extrema := ⟨usizeMax, 0⟩

def merge (self other : Extrema) : Extrema :=
  ⟨Nat.min self.min other.min, Nat.max self.max other.max⟩

/-- Fold one value in. -/
def observe (self : Extrema) (value : ℕ) : Extrema := self.merge ⟨value, value⟩

end Extrema

structure Sloc where
  start : ℕ
  endLine : ℕ
  excludedRows : LineSet
  extrema : Extrema

structure Ploc where
  lines : LineSet
  extrema : Extrema

structure Cloc where
  onlyCommentLineStarts : LineSet
  codeCommentLineStarts : LineSet
  commentLineEnd : Option ℕ
  extrema : Extrema

structure Lloc where
  logicalLines : ℕ
  extrema : Extrema

structure Dloc where
  lines : LineSet
  extrema : Extrema

structure Stats where
  sloc : Sloc
  ploc : Ploc
  cloc : Cloc
  lloc : Lloc
  dloc : Dloc
  spaceCount : ℕ
  blank : Extrema

/-- The rows of a span from a 0-based row to a 1-based inclusive line. -/
def spanRows (startRow endLine : ℕ) : ℕ := endLine - startRow

namespace Stats

def default : Stats where
  sloc := ⟨0, 0, ∅, .default⟩
  ploc := ⟨∅, .default⟩
  cloc := ⟨∅, ∅, none, .default⟩
  lloc := ⟨0, .default⟩
  dloc := ⟨∅, .default⟩
  spaceCount := 1
  blank := .default

/-- The span is written when the space's own node is visited, or anchored for a unit. -/
def withSpan (s : Stats) (start endLine : ℕ) : Stats :=
  { s with sloc := { s.sloc with start, endLine } }

/-! ### Values -/

def slocValue (s : Stats) : ℕ := spanRows s.sloc.start s.sloc.endLine - s.sloc.excludedRows.card

def plocValue (s : Stats) : ℕ := s.ploc.lines.card

def commentRows (s : Stats) : LineSet :=
  s.cloc.onlyCommentLineStarts ∪ s.cloc.codeCommentLineStarts

def clocValue (s : Stats) : ℕ := s.commentRows.card

def dlocValue (s : Stats) : ℕ := s.dloc.lines.card

/-- Both subtractions saturate. -/
def blankValue (s : Stats) : ℕ := s.slocValue - s.plocValue - s.cloc.onlyCommentLineStarts.card

/-- The rows of the span. -/
def span (s : Stats) : LineSet := Finset.Ico s.sloc.start s.sloc.endLine

/-- The rows on which code or a comment stands. -/
def occupied (s : Stats) : LineSet := s.ploc.lines ∪ s.commentRows

/-! ### Observations -/

def addOnlyCommentLines (s : Stats) (first last : ℕ) : Stats :=
  { s with cloc := { s.cloc with
      onlyCommentLineStarts := LineSet.insertRange s.cloc.onlyCommentLineStarts first last } }

def addCodeCommentLine (s : Stats) (row : ℕ) : Stats :=
  { s with cloc := { s.cloc with
      codeCommentLineStarts := insert row s.cloc.codeCommentLineStarts } }

def addClocLines (s : Stats) (start last : ℕ) : Stats :=
  let commentDiff := last - start
  if start ∈ s.ploc.lines ∧ commentDiff = 0 then s.addCodeCommentLine start
  else if start ∈ s.ploc.lines ∧ commentDiff > 0 then
    (s.addCodeCommentLine start).addOnlyCommentLines (start + 1) last
  else
    let s := s.addOnlyCommentLines start last
    { s with cloc := { s.cloc with commentLineEnd := some last } }

def addDocumentationRows (s : Stats) (first last : ℕ) : Stats :=
  { s with dloc := { s.dloc with lines := LineSet.insertRange s.dloc.lines first last } }

def addCommentRows (s : Stats) (start last : ℕ) (documentation : Bool) : Stats :=
  let s := s.addClocLines start last
  if documentation then s.addDocumentationRows start last else s

/-- A comment that ends where code begins was not alone on that row after all. -/
def checkCommentEndsOnCodeLine (s : Stats) (row : ℕ) : Stats :=
  if s.cloc.commentLineEnd = some row ∧ row ∉ s.ploc.lines then
    { s with cloc := { s.cloc with
      onlyCommentLineStarts := s.cloc.onlyCommentLineStarts.erase row } }.addCodeCommentLine row
  else s

def addCodeRows (s : Stats) (first last : ℕ) : Stats :=
  { s with ploc := { s.ploc with lines := LineSet.insertRange s.ploc.lines first last } }

def addCodeLine (s : Stats) (row : ℕ) : Stats :=
  let s := s.checkCommentEndsOnCodeLine row
  { s with ploc := { s.ploc with lines := insert row s.ploc.lines } }

/-- A bare continuation row that joins a comment. -/
def addBareComment (s : Stats) (row : ℕ) : Stats :=
  if row ∈ s.ploc.lines then s.addCodeCommentLine row else s.addOnlyCommentLines row row

def countLogicalLine (s : Stats) : Stats :=
  { s with lloc := { s.lloc with logicalLines := s.lloc.logicalLines + 1 } }

/-- Record the rows of a pruned subtree. -/
def excludeSpan (s : Stats) (startRow endLine : ℕ) : Stats :=
  if endLine ≤ startRow then s
  else { s with sloc := { s.sloc with
    excludedRows := LineSet.insertRange s.sloc.excludedRows startRow (endLine - 1) } }

end Stats

/-- What a language's `compute` records of one node: a comment's rows, a row of code, the
interior rows of a literal, a bare continuation row inside a comment, rows billed again as
documentation, a logical line. -/
inductive Observation where
  | comment (start last : ℕ) (ordered : start ≤ last) (documentation : Bool)
  | code (row : ℕ)
  | codeRows (first last : ℕ)
  | bareComment (row : ℕ)
  | documentation (first last : ℕ)
  | logicalLine

theorem sameRow : (0 : ℕ) ≤ 0 := le_rfl

namespace Stats

def observe (s : Stats) : Observation → Stats
  | .comment start last _ documentation => s.addCommentRows start last documentation
  | .code row => s.addCodeLine row
  | .codeRows first last => s.addCodeRows first last
  | .bareComment row => s.addBareComment row
  | .documentation first last => s.addDocumentationRows first last
  | .logicalLine => s.countLogicalLine

def observeAll (s : Stats) (rows : List Observation) : Stats := rows.foldl observe s

/-! ### The span is left alone -/

theorem observe_sloc (s : Stats) (o : Observation) : (s.observe o).sloc = s.sloc := by
  cases o with
  | comment start last _ documentation =>
    have h : (s.addClocLines start last).sloc = s.sloc := by
      unfold addClocLines
      dsimp only
      split_ifs <;> rfl
    cases documentation <;> exact h
  | code row =>
    unfold observe addCodeLine checkCommentEndsOnCodeLine
    dsimp only
    split_ifs <;> rfl
  | bareComment row =>
    unfold observe addBareComment
    dsimp only
    split_ifs <;> rfl
  | codeRows first last => rfl
  | documentation first last => rfl
  | logicalLine => rfl

theorem observeAll_sloc (s : Stats) (rows : List Observation) :
    (s.observeAll rows).sloc = s.sloc := by
  induction rows generalizing s with
  | nil => rfl
  | cons o rows ih => exact (ih (s.observe o)).trans (observe_sloc s o)

theorem excludeSpan_ends (s : Stats) (startRow endLine : ℕ) :
    ((s.excludeSpan startRow endLine).sloc.start, (s.excludeSpan startRow endLine).sloc.endLine) =
      (s.sloc.start, s.sloc.endLine) := by
  unfold excludeSpan
  split_ifs <;> rfl

/-! ### Finalisation -/

/-- The rows of the span as a range; the empty span keeps no row. -/
def spanRange (s : Stats) : ℕ × ℕ :=
  if spanRows s.sloc.start s.sloc.endLine = 0 then (1, 0) else (s.sloc.start, s.sloc.endLine - 1)

def clampLineSetsToSpan (s : Stats) : Stats :=
  let (first, last) := s.spanRange
  { s with
    ploc := { s.ploc with lines := LineSet.retainRange s.ploc.lines first last }
    cloc := { s.cloc with
      onlyCommentLineStarts := LineSet.retainRange s.cloc.onlyCommentLineStarts first last
      codeCommentLineStarts := LineSet.retainRange s.cloc.codeCommentLineStarts first last }
    dloc := { s.dloc with lines := LineSet.retainRange s.dloc.lines first last }
    sloc := { s.sloc with excludedRows := LineSet.retainRange s.sloc.excludedRows first last } }

/-- Give back the pruned rows that retained code or comments also occupy. -/
def settleExcludedRows (s : Stats) : Stats :=
  { s with sloc := { s.sloc with
    excludedRows := ((s.sloc.excludedRows \ s.ploc.lines) \ s.cloc.onlyCommentLineStarts) \
      s.cloc.codeCommentLineStarts } }

def computeMinmax (s : Stats) : Stats :=
  { s with
    sloc := { s.sloc with extrema := s.sloc.extrema.observe s.slocValue }
    ploc := { s.ploc with extrema := s.ploc.extrema.observe s.plocValue }
    cloc := { s.cloc with extrema := s.cloc.extrema.observe s.clocValue }
    lloc := { s.lloc with extrema := s.lloc.extrema.observe s.lloc.logicalLines }
    dloc := { s.dloc with extrema := s.dloc.extrema.observe s.dlocValue }
    blank := s.blank.observe s.blankValue }

/-- The passes of `finalize_state` that touch lines of code, once the span is anchored. -/
def finalize (s : Stats) : Stats :=
  s.clampLineSetsToSpan.settleExcludedRows.computeMinmax

def merge (self other : Stats) : Stats where
  sloc := { self.sloc with
    excludedRows := self.sloc.excludedRows ∪ other.sloc.excludedRows
    extrema := self.sloc.extrema.merge other.sloc.extrema }
  ploc := ⟨self.ploc.lines ∪ other.ploc.lines, self.ploc.extrema.merge other.ploc.extrema⟩
  cloc := { self.cloc with
    onlyCommentLineStarts := self.cloc.onlyCommentLineStarts ∪ other.cloc.onlyCommentLineStarts
    codeCommentLineStarts := self.cloc.codeCommentLineStarts ∪ other.cloc.codeCommentLineStarts
    extrema := self.cloc.extrema.merge other.cloc.extrema }
  lloc := ⟨self.lloc.logicalLines + other.lloc.logicalLines,
    self.lloc.extrema.merge other.lloc.extrema⟩
  dloc := ⟨self.dloc.lines ∪ other.dloc.lines, self.dloc.extrema.merge other.dloc.extrema⟩
  spaceCount := self.spaceCount + other.spaceCount
  blank := self.blank.merge other.blank

/-! ### What finalisation keeps -/

theorem mem_retainRange_spanRange (s : Stats) (rows : LineSet) (r : ℕ) :
    r ∈ LineSet.retainRange rows s.spanRange.1 s.spanRange.2 ↔ r ∈ rows ∧ r ∈ s.span := by
  unfold LineSet.retainRange spanRange spanRows span
  rw [Finset.mem_filter, Finset.mem_Ico]
  split_ifs with h
  · constructor <;> rintro ⟨hr, h₁, h₂⟩ <;> omega
  · constructor <;> rintro ⟨hr, h₁, h₂⟩ <;> exact ⟨hr, by omega, by omega⟩

theorem mem_finalize_code (s : Stats) (r : ℕ) :
    r ∈ s.finalize.ploc.lines ↔ r ∈ s.ploc.lines ∧ r ∈ s.span :=
  mem_retainRange_spanRange s _ r

theorem mem_finalize_onlyComment (s : Stats) (r : ℕ) :
    r ∈ s.finalize.cloc.onlyCommentLineStarts ↔
      r ∈ s.cloc.onlyCommentLineStarts ∧ r ∈ s.span :=
  mem_retainRange_spanRange s _ r

theorem mem_finalize_codeComment (s : Stats) (r : ℕ) :
    r ∈ s.finalize.cloc.codeCommentLineStarts ↔
      r ∈ s.cloc.codeCommentLineStarts ∧ r ∈ s.span :=
  mem_retainRange_spanRange s _ r

theorem mem_finalize_documentation (s : Stats) (r : ℕ) :
    r ∈ s.finalize.dloc.lines ↔ r ∈ s.dloc.lines ∧ r ∈ s.span :=
  mem_retainRange_spanRange s _ r

theorem mem_finalize_comment (s : Stats) (r : ℕ) :
    r ∈ s.finalize.commentRows ↔ r ∈ s.commentRows ∧ r ∈ s.span := by
  simp only [commentRows, Finset.mem_union, mem_finalize_onlyComment, mem_finalize_codeComment,
    or_and_right]

theorem mem_finalize_occupied (s : Stats) (r : ℕ) :
    r ∈ s.finalize.occupied ↔ r ∈ s.occupied ∧ r ∈ s.span := by
  simp only [occupied, Finset.mem_union, mem_finalize_code, mem_finalize_comment, or_and_right]

/-- A pruned row of the span stays excluded unless code or a comment stands on it too. -/
theorem mem_finalize_excluded (s : Stats) (r : ℕ) :
    r ∈ s.finalize.sloc.excludedRows ↔
      r ∈ s.sloc.excludedRows ∧ r ∈ s.span ∧ r ∉ s.occupied := by
  have h := mem_retainRange_spanRange s s.sloc.excludedRows r
  have hcode := mem_finalize_code s r
  have honly := mem_finalize_onlyComment s r
  have hboth := mem_finalize_codeComment s r
  have hset : s.finalize.sloc.excludedRows =
      ((LineSet.retainRange s.sloc.excludedRows s.spanRange.1 s.spanRange.2 \
        s.finalize.ploc.lines) \ s.finalize.cloc.onlyCommentLineStarts) \
          s.finalize.cloc.codeCommentLineStarts := rfl
  rw [hset]
  simp only [Finset.mem_sdiff, occupied, commentRows, Finset.mem_union, h, hcode, honly, hboth]
  by_cases hr : r ∈ s.span
  · simp only [hr, and_true, true_and, not_or, and_assoc]
  · simp only [hr, and_false, false_and]

theorem finalize_occupied_subset (s : Stats) : s.finalize.occupied ⊆ s.span :=
  fun r hr => ((mem_finalize_occupied s r).mp hr).2

end Stats

/-! ### The lines of a space -/

section Algebra
variable {ν π κ : Type*}

/-- How nodes, pruned nodes and spaces are read: the rows a node shows, the span of a pruned
node, and the span of a space. -/
structure Reading (ν π κ : Type*) where
  rows : ν → List Observation
  pruned : π → ℕ × ℕ
  span : κ → ℕ × ℕ

variable (reading : Reading ν π κ)

/-- The counters of a new space with the span it will have when it is finalised. -/
def openStats (k : κ) : Stats := Stats.default.withSpan (reading.span k).1 (reading.span k).2

/-- What the events of a space do to its counters. -/
def locAlgebra : ScopeAlgebra ν π κ Stats where
  visit v s := s.observeAll (reading.rows v)
  prune p s := s.excludeSpan (reading.pruned p).1 (reading.pruned p).2
  enter k _ := openStats reading k
  leave s child := s.merge child.finalize

/-- The counters of a space when its timeline has run, before it is finalised. -/
def spaceStats (k : κ) (steps : List (Step ν π κ)) : Stats :=
  Step.execAll (locAlgebra reading) steps (openStats reading k)

/-- The counters of a finished space. -/
def finalStats (k : κ) (steps : List (Step ν π κ)) : Stats := (spaceStats reading k steps).finalize

/-- Nothing that happens in a space moves its span. -/
theorem spaceStats_ends (k : κ) (steps : List (Step ν π κ)) :
    (spaceStats reading k steps).sloc.start = (reading.span k).1 ∧
      (spaceStats reading k steps).sloc.endLine = (reading.span k).2 := by
  have hends := Step.execAll_frame (locAlgebra reading)
    (fun s : Stats => (s.sloc.start, s.sloc.endLine))
    (fun v s => by
      show ((s.observeAll (reading.rows v)).sloc.start,
        (s.observeAll (reading.rows v)).sloc.endLine) = _
      rw [s.observeAll_sloc])
    (fun p s => s.excludeSpan_ends _ _) (fun s c => rfl) steps (openStats reading k)
  exact Prod.mk.inj hends

theorem spaceStats_span (k : κ) (steps : List (Step ν π κ)) :
    (spaceStats reading k steps).span = (openStats reading k).span := by
  obtain ⟨hstart, hend⟩ := spaceStats_ends reading k steps
  rw [Stats.span, hstart, hend]
  rfl

end Algebra

end BigCodeAnalysis.Metrics.Loc
