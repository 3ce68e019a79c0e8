import BigCodeAnalysis.Sequences.PartitionPoint
import BigCodeAnalysis.Vcs.Stats
import Mathlib.Data.List.Dedup
import Mathlib.Data.List.Range

/-! The blame of one function. The runs of a file that overlap the function's span are found
by binary search, and each commit is recorded once with the lines of the span it owns. -/

namespace BigCodeAnalysis.Vcs

open Sequences

variable {Oid F : Type*}

/-- One-based inclusive lines. -/
structure LineSpan where
  start : ℕ
  stop : ℕ
  ordered : start ≤ stop

namespace LineSpan

/-- An inverted range becomes the one line `start`. -/
def new (start stop : ℕ) : LineSpan := ⟨start, max stop start, le_max_right _ _⟩

def lineCount (self : LineSpan) : ℕ := self.stop - self.start + 1

/-- The lines shared with the run from `lo` to `hi`. -/
def overlap (self : LineSpan) (lo hi : ℕ) : ℕ :=
  let start := max self.start lo
  let stop := min self.stop hi
  if stop < start then 0 else stop - start + 1

end LineSpan

/-- A hunk of a blame: a zero-based start and a length. -/
structure BlameHunk (Oid : Type*) where
  startInBlamedFile : ℕ
  len : ℕ
  commitId : Oid

/-- One-based inclusive lines of one commit. -/
structure LineRun (Oid : Type*) where
  lo : ℕ
  hi : ℕ
  commitId : Oid

/-- Both additions saturate at the largest `u32`. -/
def LineRun.fromBlameHunk (hunk : BlameHunk Oid) : LineRun Oid :=
  let lo := saturatingAdd hunk.startInBlamedFile 1
  { lo, hi := saturatingAdd lo hunk.len - 1, commitId := hunk.commitId }

/-- A commit inside the window and not by a bot alone. -/
structure CommitMeta where
  commitTime : ℤ
  classification : Classification
  authors : List AuthorId

section Aggregate

variable [DecidableEq Oid]

/-- The lines each commit owns, by commit. -/
abbrev Surviving (Oid : Type*) := List (Oid × CommitMeta × ℕ)

/-- `entry(..).and_modify(..).or_insert(..)`. -/
def addOverlap (id : Oid) (commit : CommitMeta) (overlap : ℕ) : Surviving Oid → Surviving Oid
  | [] => [(id, commit, overlap)]
  | (key, known, lines) :: rest =>
    if key = id then (key, known, lines + overlap) :: rest
    else (key, known, lines) :: addOverlap id commit overlap rest

/-- The loop over the runs from the first one on that does not end before the span. -/
def scanRuns (span : LineSpan) (commits : Oid → Option (Option CommitMeta)) :
    List (LineRun Oid) → Surviving Oid → Surviving Oid
  | [], surviving => surviving
  | run :: runs, surviving =>
    if span.stop < run.lo then surviving
    else
      match commits run.commitId with
      | some (some commit) =>
        scanRuns span commits runs
          (addOverlap run.commitId commit (span.overlap run.lo run.hi) surviving)
      | _ => scanRuns span commits runs surviving

def survivingLines (span : LineSpan) (runs : List (LineRun Oid))
    (commits : Oid → Option (Option CommitMeta)) : Surviving Oid :=
  let first := partitionPoint (fun run : LineRun Oid => run.hi < span.start) runs
  scanRuns span commits (runs.drop first) []

/-- The record of a commit that owns some lines of a span. -/
def blameRecord [Zero F] (recentBoundary : ℤ) (commit : CommitMeta) (churn : ℕ) :
    ChangeRecord F where
  churn
  commitTime := commit.commitTime
  inRecent := recentBoundary ≤ commit.commitTime
  classification := commit.classification
  authors := commit.authors
  changeEntropy := 0

/-- The session's clock and options. -/
structure BlameSession where
  now : ℤ
  recentBoundary : ℤ
  options : FinalizeOptions

variable [Zero F] [Add F] (ops : FloatOps F) (emitHashed : AuthorId → String)
  (session : BlameSession)

/-- `intoValues` is the order in which the hash map gives its values. -/
def aggregateSpan (intoValues : Surviving Oid → Surviving Oid) (span : LineSpan)
    (runs : List (LineRun Oid)) (commits : Oid → Option (Option CommitMeta)) : Stats F :=
  let changes := (intoValues (survivingLines span runs commits)).map fun entry =>
    blameRecord session.recentBoundary entry.2.1 entry.2.2
  (Accumulator.collect span.lineCount changes).finalize ops emitHashed session.now
    session.options 0 0

/-- The runs of a file in the order of their lines. -/
def sortedRuns (hunks : List (BlameHunk Oid)) : List (LineRun Oid) :=
  (hunks.map LineRun.fromBlameHunk).insertionSort fun a b => a.lo ≤ b.lo

end Aggregate

/-! ### Line by line -/

section Lines

variable [DecidableEq Oid]

/-- Whether a hunk covers a one-based line. -/
def BlameHunk.covers (hunk : BlameHunk Oid) (line : ℕ) : Bool :=
  hunk.startInBlamedFile + 1 ≤ line ∧ line ≤ hunk.startInBlamedFile + hunk.len

/-- The commit that owns a line. -/
def ownerOf (hunks : List (BlameHunk Oid)) (line : ℕ) : Option Oid :=
  (hunks.find? fun hunk => hunk.covers line).map BlameHunk.commitId

def LineSpan.lines (self : LineSpan) : List ℕ := List.range' self.start self.lineCount

/-- The owners of the surviving lines of a span, line by line. -/
def lineOwners (span : LineSpan) (hunks : List (BlameHunk Oid))
    (commits : Oid → Option (Option CommitMeta)) : List Oid :=
  (span.lines.filterMap (ownerOf hunks)).filter fun id => (commits id).join.isSome

/-- One record for each owner, with the number of its lines; recent from the boundary on. A
blame has no change entropy. -/
def lineRecords [Zero F] (recentBoundary : ℤ) (span : LineSpan) (hunks : List (BlameHunk Oid))
    (commits : Oid → Option (Option CommitMeta)) : List (ChangeRecord F) :=
  let owners := lineOwners span hunks commits
  owners.dedup.filterMap fun id =>
    (commits id).join.map fun commit => {
      churn := owners.count id
      commitTime := commit.commitTime
      inRecent := decide (recentBoundary ≤ commit.commitTime)
      classification := commit.classification
      authors := commit.authors
      changeEntropy := 0 }

/-- No line is covered twice. -/
def NoOverlap (hunks : List (BlameHunk Oid)) : Prop :=
  hunks.Pairwise fun a b => ∀ line, a.covers line = true → b.covers line = false

end Lines

end BigCodeAnalysis.Vcs
