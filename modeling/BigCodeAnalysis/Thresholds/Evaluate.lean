import BigCodeAnalysis.Spaces.FuncSpace
import BigCodeAnalysis.Thresholds.Set

/-! The gate over one file's spaces: one violation for each space and threshold in scope whose
value is past the limit and which no marker silences. -/

namespace BigCodeAnalysis.Thresholds

open Catalog Spaces Trees

variable {R ρ : Type*}

/-! ### Names -/

/-- One segment of a qualified symbol. -/
def spaceSegment (space : FuncSpace R) : String :=
  match space.name with
  | some name => if name ≠ "<anonymous>" then name else s!"<anon@L{space.startLine}>"
  | none => s!"<anon@L{space.startLine}>"

def qualifiedSymbol (space : FuncSpace R) (parentPrefix : String) : String :=
  if space.kind = .unit then "<file>"
  else if parentPrefix = "" then spaceSegment space
  else parentPrefix ++ "::" ++ spaceSegment space

/-! ### One threshold on one space -/

/-- What the gate reads of a space's metrics. -/
structure Reading (R : Type*) where
  extract : String → CodeMetrics R → F64
  miIsEmpty : CodeMetrics R → Bool
  functionArgs : CodeMetrics R → ℕ
  closureArgs : CodeMetrics R → ℕ

structure NargsSplit where
  own : ℕ
  lambda : ℕ
  deriving DecidableEq, Repr

/-- `ρ` is the type of paths. The body hash is filled in after the walk. -/
structure Violation (ρ : Type*) where
  path : ρ
  startLine : ℕ
  endLine : ℕ
  function : String
  value : F64
  threshold : Threshold
  nargsSplit : Option NargsSplit
  hardBreach : Bool
  suppressed : Bool

inductive SuppressionPolicy where
  | honor
  | ignore
  deriving DecidableEq, Repr

structure SuppressionContext where
  honor : Bool
  reportSuppressed : Bool
  fileScope : SuppressionScope

def parseMetric : String → Option Metric
  | "cognitive" => some .cognitive
  | "cyclomatic" => some .cyclomatic
  | "halstead" => some .halstead
  | "loc" => some .loc
  | "nom" => some .nom
  | "tokens" => some .tokens
  | "nargs" => some .nargs
  | "nexits" => some .nexits
  | "abc" => some .abc
  | "npm" => some .npm
  | "npa" => some .npa
  | "mi" => some .mi
  | "wmc" => some .wmc
  | _ => none

/-- No marker silences `tokens`. -/
def thresholdMetricForName (name : String) : Option Metric :=
  let family := String.ofList (name.toList.takeWhile (· ≠ '.'))
  if family = "tokens" then none else parseMetric family

def SuppressionContext.suppresses (ctx : SuppressionContext) (name : String)
    (space : FuncSpace R) : Bool :=
  ctx.honor &&
    (thresholdMetricForName name).any fun kind =>
      ctx.fileScope.covers kind || space.suppressed.covers kind

/-- The split behind an `nargs` value, where closures add to it and it is not a closure's own. -/
def nargsSplitFor (reading : Reading R) (name : String) (space : FuncSpace R) :
    Option NargsSplit :=
  if name = "nargs" then
    let own := reading.functionArgs space.metrics
    let lambda := reading.closureArgs space.metrics
    if 0 < lambda ∧ space.name ≠ some "<anonymous>" then some ⟨own, lambda⟩ else none
  else none

def ResolvedThreshold.violationFor (entry : ResolvedThreshold) (reading : Reading R)
    (space : FuncSpace R) (qualified : String) (path : ρ) (ctx : SuppressionContext) :
    Option (Violation ρ) :=
  if !entry.threshold.info.scope.admits space.kind then none
  else if entry.extractor.metric = .mi && reading.miIsEmpty space.metrics then none
  else
    let value := reading.extract entry.extractor.name space.metrics
    if !entry.threshold.breaches value then none
    else
      let suppressed := ctx.suppresses entry.extractor.name space
      if suppressed && !ctx.reportSuppressed then none
      else some
        { path
          startLine := space.startLine
          endLine := space.endLine
          function := qualified
          value
          threshold := entry.threshold
          nargsSplit := nargsSplitFor reading entry.extractor.name space
          hardBreach := entry.hardLimit.any fun hard => hard.breaches value
          suppressed }

/-! ### The walk -/

/-- The frames of a space's children, in source order: what is pushed in reverse. -/
def childFrames (current : FuncSpace R) (qualified : String) : List (FuncSpace R × String) :=
  let childPrefix := if current.kind = .unit then "" else qualified
  current.spaces.map fun child => (child, childPrefix)

def stackSize (stack : List (FuncSpace R × String)) : ℕ :=
  Rose.forestSize (FuncSpace.trees (stack.map Prod.fst))

theorem stackSize_childFrames (current : FuncSpace R) (parentPrefix qualified : String)
    (stack : List (FuncSpace R × String)) :
    stackSize (childFrames current qualified ++ stack) <
      stackSize ((current, parentPrefix) :: stack) := by
  have hspaces : (childFrames current qualified).map Prod.fst = current.spaces := by
    rw [childFrames, List.map_map]
    exact List.map_id' ..
  simp only [stackSize, List.map_append, List.map_cons, hspaces, FuncSpace.trees_append,
    Rose.forestSize_append, FuncSpace.trees, Rose.forestSize_cons, FuncSpace.tree_eq,
    Rose.size_node]
  omega

namespace ThresholdSet

/-- The loop over the stack of spaces, top first, each with the symbol of what encloses it. -/
def evaluateLoop (set : ThresholdSet) (reading : Reading R) (path : ρ) (ctx : SuppressionContext) :
    List (FuncSpace R × String) → List (Violation ρ)
  | [] => []
  | (current, parentPrefix) :: stack =>
    let qualified := qualifiedSymbol current parentPrefix
    set.entries.filterMap (fun entry => entry.violationFor reading current qualified path ctx) ++
      evaluateLoop set reading path ctx (childFrames current qualified ++ stack)
termination_by stack => stackSize stack
decreasing_by exact stackSize_childFrames ..

def evaluateWithPolicy (set : ThresholdSet) (reading : Reading R) (path : ρ) (space : FuncSpace R)
    (policy : SuppressionPolicy) (reportSuppressed : Bool) : List (Violation ρ) :=
  set.evaluateLoop reading path ⟨policy = .honor, reportSuppressed, space.suppressed⟩ [(space, "")]

/-! ### The spaces the loop visits -/

/-- The spaces in the order the loop visits them, with their symbols. -/
def visits : List (FuncSpace R × String) → List (FuncSpace R × String)
  | [] => []
  | (current, parentPrefix) :: stack =>
    let qualified := qualifiedSymbol current parentPrefix
    (current, qualified) :: visits (childFrames current qualified ++ stack)
termination_by stack => stackSize stack
decreasing_by exact stackSize_childFrames ..

/-- Which spaces are visited, and in which order, does not depend on the thresholds. -/
theorem evaluateLoop_eq (set : ThresholdSet) (reading : Reading R) (path : ρ)
    (ctx : SuppressionContext) (stack : List (FuncSpace R × String)) :
    set.evaluateLoop reading path ctx stack =
      (visits stack).flatMap fun v =>
        set.entries.filterMap fun entry => entry.violationFor reading v.1 v.2 path ctx := by
  induction stack using visits.induct with
  | case1 => rw [evaluateLoop, visits, List.flatMap_nil]
  | case2 current parentPrefix stack qualified ih =>
    rw [evaluateLoop, visits, List.flatMap_cons, ih]

/-- A violation is one of some entry on some visited space. -/
theorem mem_evaluateWithPolicy {set : ThresholdSet} {reading : Reading R} {path : ρ}
    {space : FuncSpace R} {policy : SuppressionPolicy} {reportSuppressed : Bool}
    {violation : Violation ρ} :
    violation ∈ set.evaluateWithPolicy reading path space policy reportSuppressed ↔
      ∃ v ∈ visits [(space, "")], ∃ entry ∈ set.entries,
        entry.violationFor reading v.1 v.2 path
          ⟨policy = .honor, reportSuppressed, space.suppressed⟩ = some violation := by
  rw [evaluateWithPolicy, evaluateLoop_eq]
  simp only [List.mem_flatMap, List.mem_filterMap]

end ThresholdSet

end BigCodeAnalysis.Thresholds
