import BigCodeAnalysis.Catalog.Threshold
import BigCodeAnalysis.Output.OffenderRecord
import Mathlib.Logic.Function.Basic

/-! The Code Climate report. Each issue carries a fingerprint, by which the merge-request widget
drops repeated findings, and a severity band. -/

namespace BigCodeAnalysis.Output

open Baseline (foldChar)
open Catalog (F64 Threshold)

/-! ### The bands -/

/-- `<=` on floats. -/
def le (x : F64) (limit : ℚ) : Bool :=
  match x.partialCmp (.finite limit) with
  | some .lt | some .eq => true
  | _ => false

def severityRank : String → ℕ
  | "minor" => 1
  | "major" => 2
  | "critical" => 3
  | "blocker" => 4
  | _ => 0

def worstSeverity (a b : String) : String := if severityRank b ≤ severityRank a then a else b

/-- The band a declared severity never falls below. -/
def floorBand : Severity → String
  | .warning => "minor"
  | .error => "major"

def bandOf (severity : F64) : String :=
  if le severity (3 / 2) then "minor"
  else if le severity 2 then "major"
  else if le severity 4 then "critical"
  else "blocker"

def severityBand (metric : String) (value limit : F64) (severity : Severity) : String :=
  let floor := floorBand severity
  if !value.isFinite then floor
  else
    match Threshold.check metric limit with
    | .error _ => floor
    | .ok checked =>
      if !checked.threshold.breaches value then floor
      else worstSeverity (bandOf (checked.threshold.severity value)) floor

/-! ### The fingerprint -/

def fingerprintByteLen : ℕ := 16

def hexDigitLower (n : ℕ) : Char := Char.ofNat (if n < 10 then 48 + n else 87 + n)

/-- `{byte:02x}` of every byte. -/
def hexLowerBytes (bytes : List UInt8) : String :=
  String.ofList
    (bytes.flatMap fun b => [hexDigitLower (b.toNat / 16), hexDigitLower (b.toNat % 16)])

/-- `u32::to_le_bytes`. -/
def toLeBytes (n : UInt32) : List UInt8 :=
  [n.toUInt8, (n >>> 8).toUInt8, (n >>> 16).toUInt8, (n >>> 24).toUInt8]

/-- What is fed to the hash, one update after the other. -/
def fingerprintInput (path : String) (function : Option String) (metric : String)
    (ordinal : UInt32) : List UInt8 :=
  utf8 path ++ 0 :: (utf8 (function.getD "") ++ 0 :: (utf8 metric ++
    if 0 < ordinal then 0 :: toLeBytes ordinal else []))

def normalizePath (raw : String) : Option String :=
  let normalized := raw.toList.map foldChar
  let stripped := (normalized.dropPrefix? ['.', '/']).getD normalized
  if stripped = [] then none else some (String.ofList stripped)

/-! ### The report -/

structure Lines where
  begin_ : UInt32
  end_ : Option UInt32
  deriving DecidableEq, Repr

structure Position where
  line : UInt32
  column : UInt32
  deriving DecidableEq, Repr

structure Location where
  path : String
  lines : Lines
  positions : Option Position
  deriving DecidableEq, Repr

structure CodeClimateIssue where
  description : String
  checkName : String
  fingerprint : String
  severity : String
  location : Location
  deriving DecidableEq, Repr

/-- What the records of one finding share: the path as shown, the function and the metric. -/
abbrev Key := String × Option String × String

variable (sha256 : List UInt8 → List UInt8) (messageMetric : F64 → String)

def fingerprint (path : String) (function : Option String) (metric : String)
    (ordinal : UInt32) : String :=
  hexLowerBytes ((sha256 (fingerprintInput path function metric ordinal)).take fingerprintByteLen)

def buildDescription (record : OffenderRecord) : String :=
  match Catalog.lookup record.metric with
  | none => record.defaultMessage messageMetric
  | some info => longDescription info.id ++ " " ++ record.defaultMessage messageMetric

/-- The loop over the records. `seen` counts the earlier records of every key, as a `u32` that
wraps around. A record without a path to show is skipped. -/
def writeIssues : List OffenderRecord → (Key → UInt32) → List CodeClimateIssue
  | [], _ => []
  | record :: rest, seen =>
    match pathToStr record.path with
    | none => writeIssues rest seen
    | some pathRaw =>
      match normalizePath pathRaw with
      | none => writeIssues rest seen
      | some path =>
        let startLine := max record.startLine 1
        let linesEnd := if startLine < record.endLine then some record.endLine else none
        let positions := (record.startCol.filter (0 < ·)).map fun column => ⟨startLine, column⟩
        let key : Key := (path, record.function, record.metric)
        let ordinal := seen key
        { description := buildDescription messageMetric record
          checkName := toolId ++ "/" ++ record.metric
          fingerprint := fingerprint sha256 path record.function record.metric ordinal
          severity := severityBand record.metric record.value record.limit record.severity
          location := ⟨path, ⟨startLine, linesEnd⟩, positions⟩ } ::
        writeIssues rest (Function.update seen key (ordinal + 1))

/-- The issues of the report, which it writes as one JSON array. -/
def writeCodeClimate (offenders : List OffenderRecord) : List CodeClimateIssue :=
  writeIssues sha256 messageMetric offenders fun _ => 0

end BigCodeAnalysis.Output
