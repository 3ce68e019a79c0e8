import BigCodeAnalysis.Sequences.PartialSort
import BigCodeAnalysis.Thresholds.Evaluate
import Mathlib.Algebra.Order.Ring.Rat
import Mathlib.Data.String.Basic

/-! The hotspot sections of a report: which functions a section lists, in what order, and what it
says of those that suppression hides. Metric values are exact numbers; how they are written is a
parameter. -/

namespace BigCodeAnalysis.Output.Hotspot

open Sequences Spaces Thresholds

structure FunctionSummary where
  file : String
  name : String
  kind : SpaceKind
  suppressed : SuppressionScope
  startLine : ℕ
  sloc : ℕ
  tokens : ℕ
  cyclomatic : ℚ
  cognitive : ℚ
  halsteadVolume : ℚ
  halsteadEffort : ℚ
  halsteadBugs : ℚ
  miOriginal : ℚ
  miVisualStudio : ℚ
  miIsEmpty : Bool
  nargs : ℕ
  nexits : ℕ
  nom : ℕ
  abc : ℚ
  wmc : ℚ
  npa : ℚ
  npm : ℚ
  deriving DecidableEq

def FunctionSummary.isHiddenFor (s : FunctionSummary) (kind : Metric)
    (policy : SuppressionPolicy) : Bool :=
  policy = .honor && s.suppressed.covers kind

/-- The cutoff the sections read. -/
structure AdvisoryThresholds where
  nargs : ℕ

/-! ### Cells -/

/-- How numbers that are not counts are written. -/
structure NumberFormat where
  scalar : ℚ → String
  tenths : ℚ → String
  hundredths : ℚ → String
  thousandsRound : ℚ → String

def thousands (n : ℕ) : String :=
  let s := toString n
  let len := s.length
  if len ≤ 3 then s
  else String.ofList (s.toList.zipIdx.flatMap fun (ch, i) =>
    if 0 < i ∧ (len - i) % 3 = 0 then [',', ch] else [ch])

inductive Cell where
  | name (text : String)
  | path (text : String)
  | num (text : String)
  deriving DecidableEq, Repr

structure Column where
  header : String
  cell : NumberFormat → FunctionSummary → Cell

def colFunction : Column := ⟨"Function", fun _ s => .name s.name⟩

def colFile : Column := ⟨"File", fun _ s => .path s.file⟩

def colLine : Column := ⟨"Line", fun _ s => .num (toString s.startLine)⟩

def colCc : Column := ⟨"CC", fun format s => .num (format.scalar s.cyclomatic)⟩

def colCognitive : Column := ⟨"Cognitive", fun format s => .num (format.scalar s.cognitive)⟩

def colSloc : Column := ⟨"SLOC", fun _ s => .num (thousands s.sloc)⟩

def colTokens : Column := ⟨"Tokens", fun _ s => .num (thousands s.tokens)⟩

/-! ### Sections -/

inductive SortDir where
  | asc | desc
  deriving DecidableEq, Repr

inductive Source where
  | units | funcs | all
  deriving DecidableEq, Repr

/-- `ccNote` marks the section that comes with statistics of its rows. -/
structure HotspotSpec where
  concept : String
  source : Source
  keep : FunctionSummary → Bool
  metric : FunctionSummary → ℚ
  dir : SortDir
  metricKind : Metric
  columns : List Column
  ccNote : Bool
  secondaryMetric : Option (FunctionSummary → ℚ)

def isClassLike (kind : SpaceKind) : Bool :=
  kind ∈ [SpaceKind.class, .struct, .trait, .impl, .namespace, .interface]

def nexitsHotspotFloor : ℕ := 2

/-- A section over functions, by a metric of which more is worse. -/
def functionSpec (concept : String) (keep : FunctionSummary → Bool) (metric : FunctionSummary → ℚ)
    (metricKind : Metric) (columns : List Column) (ccNote : Bool) : HotspotSpec :=
  ⟨concept, .funcs, keep, metric, .desc, metricKind, colFunction :: colFile :: colLine :: columns,
    ccNote, none⟩

def maintainabilityIndex : HotspotSpec where
  concept := "Maintainability Index"
  source := .units
  keep s := !s.miIsEmpty
  metric s := s.miVisualStudio
  dir := .asc
  metricKind := .mi
  columns := [colFile, ⟨"MI", fun format s => .num (format.tenths s.miVisualStudio)⟩, colSloc,
    colTokens]
  ccNote := false
  secondaryMetric := some fun s => s.miOriginal

def cyclomaticComplexity : HotspotSpec :=
  functionSpec "Cyclomatic complexity" (fun s => 0 < s.cyclomatic) (fun s => s.cyclomatic)
    .cyclomatic [colCc, colCognitive, colSloc, colTokens] true

def cognitiveComplexity : HotspotSpec :=
  functionSpec "Cognitive complexity" (fun s => 0 < s.cognitive) (fun s => s.cognitive)
    .cognitive [colCognitive, colCc, colSloc, colTokens] false

def halsteadEffort : HotspotSpec :=
  functionSpec "Halstead effort" (fun s => 0 < s.halsteadEffort) (fun s => s.halsteadEffort)
    .halstead [⟨"Effort", fun format s => .num (format.thousandsRound s.halsteadEffort)⟩,
      ⟨"Volume", fun format s => .num (format.thousandsRound s.halsteadVolume)⟩,
      ⟨"Est. Bugs", fun format s => .num (format.hundredths s.halsteadBugs)⟩, colSloc, colTokens]
    false

def functionSize : HotspotSpec :=
  functionSpec "Function size" (fun s => 0 < s.sloc) (fun s => s.sloc) .loc
    [colSloc, colTokens, colCc, colCognitive] false

def manyParameters : HotspotSpec :=
  functionSpec "Many parameters" (fun s => 3 < s.nargs) (fun s => s.nargs) .nargs
    [⟨"Args", fun _ s => .num (toString s.nargs)⟩, colSloc, colTokens] false

def types : HotspotSpec where
  concept := "Type"
  source := .all
  keep s := isClassLike s.kind && 0 < s.wmc
  metric s := s.wmc
  dir := .desc
  metricKind := .wmc
  columns := [⟨"Type", fun _ s => .name s.name⟩, colFile, colLine,
    ⟨"WMC", fun format s => .num (format.scalar s.wmc)⟩,
    ⟨"Methods", fun _ s => .num (toString s.nom)⟩,
    ⟨"NPA", fun format s => .num (format.scalar s.npa)⟩,
    ⟨"NPM", fun format s => .num (format.scalar s.npm)⟩, colSloc, colTokens]
  ccNote := false
  secondaryMetric := none

def exitPoints : HotspotSpec :=
  functionSpec "Exit points" (fun s => nexitsHotspotFloor < s.nexits) (fun s => s.nexits) .nexits
    [⟨"Exits", fun _ s => .num (toString s.nexits)⟩, colCc, colSloc, colTokens] false

def abcMagnitude : HotspotSpec :=
  functionSpec "ABC magnitude" (fun s => 0 < s.abc) (fun s => s.abc) .abc
    [⟨"ABC", fun format s => .num (format.tenths s.abc)⟩, colCc, colSloc, colTokens] false

/-- The sections in the order of the report. -/
def specs : List HotspotSpec :=
  [maintainabilityIndex, cyclomaticComplexity, cognitiveComplexity, halsteadEffort, functionSize,
    manyParameters, types, exitPoints, abcMagnitude]

/-! ### Order -/

def tiebreak (a b : FunctionSummary) : Ordering :=
  ((cmp a.file b.file).then (cmp a.startLine b.startLine)).then (cmp a.name b.name)

variable (metric secondary : FunctionSummary → ℚ)

def byMetricDesc (a b : FunctionSummary) : Ordering :=
  (cmp (metric b) (metric a)).then (tiebreak a b)

def byMetricAsc (a b : FunctionSummary) : Ordering :=
  (cmp (metric a) (metric b)).then (tiebreak a b)

def byMetricAscThen (a b : FunctionSummary) : Ordering :=
  ((cmp (metric a) (metric b)).then (cmp (secondary a) (secondary b))).then (tiebreak a b)

def sortByMetricAsc (items : List FunctionSummary) : List FunctionSummary :=
  items.insertionSort (Before (byMetricAsc metric))

def sortByMetricAscThen (items : List FunctionSummary) : List FunctionSummary :=
  items.insertionSort (Before (byMetricAscThen metric secondary))

/-! ### Selection -/

/-- 0 is no cap. -/
def cap (topN : ℕ) : Option ℕ := if topN ≠ 0 then some topN else none

variable (nth : SelectNth FunctionSummary)

def partialTopNDesc (v : List FunctionSummary) (topN : ℕ) : List FunctionSummary :=
  nth.partialSort (byMetricDesc metric) ((cap topN).elim v.length fun c => min v.length c) v

def topNDesc (entries : List FunctionSummary) (topN : ℕ) (keep : FunctionSummary → Bool) :
    Option (List FunctionSummary) :=
  let filtered := entries.filter keep
  if filtered = [] then none else some (partialTopNDesc metric nth filtered topN)

variable (spec : HotspotSpec) (advisory : AdvisoryThresholds) (policy : SuppressionPolicy)

/-- The floor of the section on parameters is the cutoff, not its own. -/
def onSectionFloor (s : FunctionSummary) : Bool :=
  match spec.metricKind with
  | .nargs => advisory.nargs < s.nargs
  | _ => spec.keep s

def sectionKeep (s : FunctionSummary) : Bool :=
  onSectionFloor spec advisory s && !s.isHiddenFor spec.metricKind policy

def HotspotSpec.sortAsc (v : List FunctionSummary) : List FunctionSummary :=
  match spec.secondaryMetric with
  | some secondary => sortByMetricAscThen spec.metric secondary v
  | none => sortByMetricAsc spec.metric v

def select (base : List FunctionSummary) (topN : ℕ) : List FunctionSummary :=
  match spec.dir with
  | .desc => (topNDesc spec.metric nth base topN (sectionKeep spec advisory policy)).getD []
  | .asc =>
    let v := spec.sortAsc (base.filter (sectionKeep spec advisory policy))
    match cap topN with
    | some c => v.take (min v.length c)
    | none => v

/-- The rows of the section that comes with statistics. -/
def selectCc (base : List FunctionSummary) (topN : ℕ) : List FunctionSummary :=
  partialTopNDesc spec.metric nth (base.filter (sectionKeep spec advisory policy)) topN

/-! ### What is hidden -/

def hiddenOn (base : List FunctionSummary) : List FunctionSummary :=
  base.filter fun s => onSectionFloor spec advisory s && s.isHiddenFor spec.metricKind policy

def fullySuppressedCount (base : List FunctionSummary) : ℕ :=
  let matched := (base.filter (onSectionFloor spec advisory)).length
  let hidden := (hiddenOn spec advisory policy base).length
  if 0 < matched ∧ hidden = matched then hidden else 0

/-- Only what is hidden is reported. -/
def breakdownEntry (kind : Metric) (hidden : ℕ) : Option (Metric × ℕ) :=
  if 0 < hidden then some (kind, hidden) else none

def suppressedMetricBreakdown (funcs : List FunctionSummary) : List (Metric × ℕ) :=
  if policy = .ignore then []
  else (specs.filter fun spec => spec.source = .funcs).filterMap fun spec =>
    breakdownEntry spec.metricKind (hiddenOn spec advisory policy funcs).length

inductive SpecOutcome where
  | rows (rows : List FunctionSummary)
  | fullySuppressed (count : ℕ)

def HotspotSpec.base (units funcs entries : List FunctionSummary) : List FunctionSummary :=
  match spec.source with
  | .units => units
  | .funcs => funcs
  | .all => entries

def selectFor (units funcs entries : List FunctionSummary) (topN : ℕ) : SpecOutcome :=
  let base := spec.base units funcs entries
  let rows :=
    if spec.ccNote then selectCc nth spec advisory policy base topN
    else select nth spec advisory policy base topN
  if rows = [] then .fullySuppressed (fullySuppressedCount spec advisory policy base)
  else .rows rows

/-- The caption stands in for the table unless nothing is hidden. -/
def SpecOutcome.omitted : SpecOutcome → Bool
  | .rows _ => false
  | .fullySuppressed count => count ≠ 0

end BigCodeAnalysis.Output.Hotspot
