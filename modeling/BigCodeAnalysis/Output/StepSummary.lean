import BigCodeAnalysis.Output.OffenderRecord
import BigCodeAnalysis.Sequences.Search
import BigCodeAnalysis.Thresholds.Rankings

/-! The step summary. A run puts its digest between two markers into a file other tools append
to, and takes out what an earlier run left there. -/

namespace BigCodeAnalysis.Output

open Catalog (F64)
open Baseline (isUtf8)
open Sequences (Before findSub keysOf length_le_of_findSub)
open Thresholds (Violation)

def stepSummaryBeginMarker : String := "<!-- bca-step-summary-begin -->"

def stepSummaryEndMarker : String := "<!-- bca-step-summary-end -->"

def stepSummaryTopOffenders : ℕ := 10

/-! ### The digest -/

def escapeGfmChar : Char → List Char
  | '\\' => ['\\', '\\']
  | '|' => ['\\', '|']
  | '\n' | '\r' => [' ']
  | ch => [ch]

def escapeGfmCell (s : String) : String := String.ofList (s.toList.flatMap escapeGfmChar)

/-- What a run reports. `γ` is the coverage of a violation, which the digest does not show. -/
structure Digest (ρ γ : Type*) where
  pairs : List (Violation ρ × γ)
  remediation : Option String

section Compose
variable {ρ γ : Type*} (display : ρ → String) (formatFloat : Option ℕ → F64 → String)

/-- Without digits behind the point where it has none, else as short as it can be. -/
def metricScalar (v : F64) : String :=
  match v with
  | .finite value =>
    if value.den = 1 ∧ |value| < 10 ^ 15 then formatFloat (some 0) v else formatFloat none v
  | _ => formatFloat none v

/-- The last three cells of a row. -/
def breachCells (v : Violation ρ) : String :=
  v.metric ++ " | " ++ metricScalar formatFloat v.value ++ " | " ++
    metricScalar formatFloat (.finite v.limit) ++ " |\n"

def rollupRow (row : Violation.RollupRow ρ) : String :=
  "| " ++ escapeGfmCell row.display ++ " | " ++ toString row.count ++ " | " ++
    breachCells formatFloat row.worst

def rollupHeader : String :=
  "### Per-file rollup\n\n" ++
    "| File | Violations | Worst metric | Value | Limit |\n" ++
    "|------|-----------:|--------------|------:|------:|\n"

def perFileRollup [LinearOrder ρ] (pairs : List (Violation ρ × γ)) : String :=
  rollupHeader ++
    String.join ((Violation.groupPairsByPath display pairs).map (rollupRow formatFloat))

/-- The metrics with the number of their violations, by the number and then by name. -/
def metricCounts (pairs : List (Violation ρ × γ)) : List (String × ℕ) :=
  let violations := pairs.map Prod.fst
  let counts := (keysOf Violation.metric violations).map fun metric =>
    (metric, (violations.filter fun v => v.metric = metric).length)
  counts.insertionSort (Before fun a b => (cmp b.2 a.2).then (cmp a.1 b.1))

def countRow (row : String × ℕ) : String := "| " ++ row.1 ++ " | " ++ toString row.2 ++ " |\n"

def breakdownHeader : String :=
  "### Metric breakdown\n\n" ++
    "| Metric | Violations |\n" ++
    "|--------|-----------:|\n"

def metricBreakdown (pairs : List (Violation ρ × γ)) : String :=
  breakdownHeader ++ String.join ((metricCounts pairs).map countRow)

def offenderRow (v : Violation ρ) : String :=
  "| " ++ escapeGfmCell (display v.path) ++ " | " ++ toString v.startLine ++ " | " ++
    escapeGfmCell v.function ++ " | " ++ breachCells formatFloat v

/-- The violations the last table shows. -/
def shownOffenders [LinearOrder ρ] (pairs : List (Violation ρ × γ)) : List (Violation ρ) :=
  (Violation.topOffenders pairs).take stepSummaryTopOffenders

def offendersHeader : String :=
  "### Top " ++ toString stepSummaryTopOffenders ++ " offenders (by severity)\n\n" ++
    "| File | Line | Function | Metric | Value | Limit |\n" ++
    "|------|-----:|----------|--------|------:|------:|\n"

def topOffendersTable [LinearOrder ρ] (pairs : List (Violation ρ × γ)) : String :=
  offendersHeader ++ String.join ((shownOffenders pairs).map (offenderRow display formatFloat))

/-- `strip_prefix('\n')`, or else the text itself. -/
def stripNewline : List Char → List Char
  | '\n' :: rest => rest
  | text => text

def remediationFence (block : String) : String :=
  "\n````text\n" ++ String.ofList (stripNewline block.toList) ++
    (if block.toList.getLast? = some '\n' then "" else "\n") ++ "````\n"

/-- What stands between the markers: the tables, or that there is nothing to report. -/
def digestBody [LinearOrder ρ] (pairs : List (Violation ρ × γ)) : String :=
  if pairs.isEmpty then "✓ No threshold violations.\n"
  else
    "**Total violations:** " ++ toString pairs.length ++ "\n\n" ++
      perFileRollup display formatFloat pairs ++ "\n" ++ metricBreakdown pairs ++ "\n" ++
      topOffendersTable display formatFloat pairs

def composeStepSummaryBlock [LinearOrder ρ] (digest : Digest ρ γ) : String :=
  stepSummaryBeginMarker ++ "\n" ++ "## `bca check`: threshold violations\n\n" ++
    digestBody display formatFloat digest.pairs ++
    digest.remediation.elim "" remediationFence ++ stepSummaryEndMarker ++ "\n"

end Compose

/-! ### The file -/

def newline : UInt8 := 10

/-- The bytes of the rest of a text that the splice after a lone marker takes, the text being
just behind the marker or inside of it: all up to the next section. -/
def orphanSpliceEnd (after : List UInt8) : ℕ :=
  match hrel : findSub [newline] after with
  | none => after.length
  | some rel =>
    let line := after.drop (rel + 1)
    if utf8 stepSummaryBeginMarker <+: line then
      rel + 1 + (utf8 stepSummaryBeginMarker).length +
        orphanSpliceEnd (line.drop (utf8 stepSummaryBeginMarker).length)
    else if utf8 "## " <+: line ∨ utf8 "<!-- " <+: line then rel + 1
    else rel + 1 + orphanSpliceEnd line
termination_by after.length
decreasing_by
  all_goals
    have hlong := length_le_of_findSub (List.cons_ne_nil _ _) hrel
    simp only [List.length_drop, List.length_singleton] at hlong ⊢
    omega

/-- `end_abs`: where the block that starts at the begin marker ends, with its end marker or
without one. -/
def endAbs (existing : List UInt8) (start : ℕ) : ℕ :=
  match findSub (utf8 stepSummaryEndMarker) (existing.drop start) with
  | some rel => start + rel + (utf8 stepSummaryEndMarker).length
  | none =>
    let afterOffset := start + (utf8 stepSummaryBeginMarker).length
    afterOffset + orphanSpliceEnd (existing.drop afterOffset)

/-- The file with the block in the place of the one it holds, or behind its text. -/
def replaceStepSummaryBlock (existing newBlock : List UInt8) : List UInt8 :=
  match findSub (utf8 stepSummaryBeginMarker) existing with
  | none =>
    existing ++ (if existing ≠ [] ∧ existing.getLast? ≠ some newline then [newline] else []) ++
      newBlock
  | some start =>
    let stop := endAbs existing start
    let tailStart := if existing[stop]? = some newline then stop + 1 else stop
    existing.take start ++ newBlock ++ existing.drop tailStart

/-- Bytes that are no text. -/
inductive ReadError where
  | invalidData
  deriving DecidableEq, Repr

/-- The new content of the file; a file that is not there counts as an empty one. -/
def writeStepSummary (file : Option (List UInt8)) (newBlock : List UInt8) :
    Except ReadError (List UInt8) :=
  match file with
  | none => .ok (replaceStepSummaryBlock [] newBlock)
  | some existing =>
    if isUtf8 existing then .ok (replaceStepSummaryBlock existing newBlock)
    else .error .invalidData

end BigCodeAnalysis.Output
