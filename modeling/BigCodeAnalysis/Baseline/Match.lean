import BigCodeAnalysis.Baseline.PathKey
import BigCodeAnalysis.Catalog.Value
import BigCodeAnalysis.Sequences.Chunk
import BigCodeAnalysis.Sequences.Ranking
import Mathlib.Data.List.Sort
import Mathlib.Data.Prod.Lex
import Mathlib.Data.String.Basic
import Mathlib.Order.WithBot

/-! Baselines: the file written from a run's violations, the tables loaded from it, and how a
violation is matched against them. -/

namespace BigCodeAnalysis.Baseline

open Sequences Catalog

/-- An offender. The metric and its direction are those of its threshold. -/
structure Violation where
  path : PathBytes
  function : String
  startLine : ℕ
  value : F64
  metric : String
  direction : Direction
  bodyHash : Option UInt64
  deriving DecidableEq, Repr

structure BaselineEntry where
  path : String
  qualified : String
  startLine : Option ℕ
  metric : String
  value : F64
  bodyHash : Option String
  deriving DecidableEq, Repr

/-- A baseline on disk, less its provenance: the tier, the headroom and the revisions it was
written under, which are compared for warnings alone. -/
structure BaselineFile where
  version : Option ℕ
  entries : List BaselineEntry
  deriving DecidableEq, Repr

def baselineVersion : ℕ := 6

def legacyMinVersion : ℕ := 2

def qualifiedSymbolMinVersion : ℕ := 4

/-- The value a baseline records. -/
def recordable (value : F64) : Option F64 := if value.isFinite then some value else none

/-! ### Body hashes -/

def hexChar (n : ℕ) : Char := Char.ofNat (if n < 10 then 48 + n else 87 + n)

/-- The last `len` hexadecimal digits. -/
def hexDigits : ℕ → ℕ → List Char
  | 0, _ => []
  | len + 1, n => hexDigits len (n / 16) ++ [hexChar (n % 16)]

def encodeBodyHash (h : UInt64) : String := String.ofList (hexDigits 16 h.toNat)

def hexValue (c : Char) : Option ℕ :=
  if '0' ≤ c ∧ c ≤ '9' then some (c.toNat - 48)
  else if 'a' ≤ c ∧ c ≤ 'f' then some (c.toNat - 87)
  else if 'A' ≤ c ∧ c ≤ 'F' then some (c.toNat - 55)
  else none

def dropPlus : List Char → List Char
  | '+' :: cs => cs
  | cs => cs

/-- `u64::from_str_radix` with base 16; a leading plus is accepted. -/
def fromStrRadix16 (cs : List Char) : Option UInt64 :=
  let digits := dropPlus cs
  if digits = [] then none
  else
    match digits.foldl (fun acc c => acc.bind fun n => (hexValue c).map (16 * n + ·)) (some 0) with
    | some n => if n < 2 ^ 64 then some (UInt64.ofNat n) else none
    | none => none

def decodeBodyHash (s : String) : Option UInt64 :=
  if s.utf8ByteSize = 16 then fromStrRadix16 s.toList else none

/-! ### Writing -/

/-- The order every baseline listing is sorted by. -/
abbrev Identity := String ×ₗ String ×ₗ String ×ₗ WithBot ℕ

def BaselineEntry.identity (e : BaselineEntry) : Identity :=
  toLex (e.path, toLex (e.qualified, toLex (e.metric, e.startLine)))

/-- What an entry is matched by. -/
abbrev SymbolKey := String ×ₗ String ×ₗ String

def BaselineEntry.key (e : BaselineEntry) : SymbolKey :=
  toLex (e.path, toLex (e.qualified, e.metric))

def entryOf (anchor : PathBytes) (v : Violation) : Option BaselineEntry :=
  (recordable v.value).map fun value =>
    { path := normalizePath anchor v.path
      qualified := v.function
      startLine := some v.startLine
      metric := v.metric
      value
      bodyHash := v.bodyHash.map encodeBodyHash }

def clearRun : List BaselineEntry → List BaselineEntry
  | [only] => [{ only with startLine := none }]
  | run => run

def clearUnambiguousStartLines (entries : List BaselineEntry) : List BaselineEntry :=
  (chunkBy (fun a b => decide (a.key = b.key)) entries).flatMap clearRun

def fromViolations (violations : List Violation) (anchor : PathBytes) : BaselineFile where
  version := some baselineVersion
  entries := clearUnambiguousStartLines
    ((violations.filterMap (entryOf (lexicalNormalize anchor))).insertionSort
      fun a b => a.identity ≤ b.identity)

/-! ### Loading -/

/-- The TOML library: documents and the two directions, the reader undoing the writer. -/
structure Toml (D : Type*) where
  render : BaselineFile → D
  parse : D → Except String BaselineFile
  round_trip : ∀ file, parse (render file) = .ok file

structure Record where
  startLine : Option ℕ
  value : F64
  bodyHash : Option UInt64
  deriving DecidableEq, Repr

structure Baseline where
  bySymbol : SymbolKey → List Record
  byHash : String × String × UInt64 → Option F64
  anchor : PathBytes
  tolerance : ℕ
  fuzzy : Bool
  legacySymbolMatch : Bool

def unsupportedVersionMessage (version : ℕ) : String :=
  "baseline version " ++ toString version ++ " is not supported by this bca (expected " ++
    toString legacyMinVersion ++ "..=" ++ toString baselineVersion ++
    "); regenerate with `bca check --write-baseline` or upgrade bca"

/-- One turn of the loading loop. -/
def loadEntry (recanonicalizePath : Bool) (b : Baseline) (e : BaselineEntry) : Baseline :=
  match recordable e.value with
  | none => b
  | some value =>
    let path :=
      if recanonicalizePath then normalizePath b.anchor e.path.toUTF8.toList else e.path
    let bodyHash := e.bodyHash.bind decodeBodyHash
    let key : SymbolKey := toLex (path, toLex (e.qualified, e.metric))
    { b with
      byHash := match bodyHash with
        | some h => Function.update b.byHash (path, e.metric, h) (some value)
        | none => b.byHash
      bySymbol := Function.update b.bySymbol key
        (b.bySymbol key ++ [⟨e.startLine, value, bodyHash⟩]) }

def fromStr {D : Type*} (toml : Toml D) (text : D) (anchor : PathBytes) (tolerance : ℕ)
    (fuzzy : Bool) : Except String Baseline :=
  match toml.parse text with
  | .error message => .error message
  | .ok file =>
    match file.version with
    | none => .error "baseline missing version field"
    | some version =>
      if ¬ (legacyMinVersion ≤ version ∧ version ≤ baselineVersion) then
        .error (unsupportedVersionMessage version)
      else
        .ok (file.entries.foldl (loadEntry (decide (version < 3)))
          { bySymbol := fun _ => []
            byHash := fun _ => none
            anchor := lexicalNormalize anchor
            tolerance
            fuzzy
            legacySymbolMatch := version < qualifiedSymbolMinVersion })

/-! ### Matching -/

inductive Coverage where
  | covered (recorded : F64)
  | regressed (recorded : F64)
  | new
  deriving DecidableEq, Repr

/-- The part of a reversed name before the first `::`. -/
def beforeColons : List Char → Option (List Char)
  | ':' :: ':' :: _ => some []
  | c :: cs => (beforeColons cs).map (c :: ·)
  | [] => none

/-- The part of a qualified name behind the last `::`. -/
def bareName (qualified : String) : String :=
  match beforeColons qualified.toList.reverse with
  | some tail => String.ofList tail.reverse
  | none => qualified

def absDiff (a b : ℕ) : ℕ := (a - b) + (b - a)

/-- Nearest line first, then the more lenient record. -/
def cmpPlaced (direction : Direction) (a b : ℕ × F64) : Ordering :=
  (cmp a.1 b.1).then (cmpWorse direction b.2 a.2)

namespace Baseline
variable (b : Baseline)

def symbolKey (v : Violation) : SymbolKey :=
  toLex (normalizePath b.anchor v.path,
    toLex (if b.legacySymbolMatch then bareName v.function else v.function, v.metric))

/-- The records of a group that lie within the tolerance, with their distance. -/
def placed (v : Violation) (records : List Record) : List (ℕ × F64) :=
  records.filterMap fun r => r.startLine.bind fun line =>
    if absDiff line v.startLine ≤ b.tolerance then some (absDiff line v.startLine, r.value)
    else none

def matchInGroup (key : SymbolKey) (v : Violation) : Option F64 :=
  match b.bySymbol key with
  | [] => none
  | [only] => some only.value
  | records =>
    let byBody := if b.fuzzy ∧ v.bodyHash.isSome then
      records.find? (·.bodyHash = v.bodyHash) else none
    match byBody with
    | some record => some record.value
    | none => (minBy (cmpPlaced v.direction) (b.placed v records)).map (·.2)

def matchByHash (key : SymbolKey) (v : Violation) : Option F64 :=
  if b.fuzzy then
    v.bodyHash.bind fun h => b.byHash ((ofLex key).1, (ofLex (ofLex key).2).2, h)
  else none

def classify (v : Violation) : Coverage :=
  match (b.matchInGroup (b.symbolKey v) v).or (b.matchByHash (b.symbolKey v) v) with
  | none => .new
  | some recorded =>
    if cmpWorse v.direction v.value recorded = .gt then .regressed recorded else .covered recorded

end Baseline

end BigCodeAnalysis.Baseline
