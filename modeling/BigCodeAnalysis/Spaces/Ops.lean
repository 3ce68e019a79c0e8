import BigCodeAnalysis.Spaces.Compute
import Mathlib.Order.Basic

/-! The operands-and-operators walk, written separately from the metrics walk: it keeps
its own frames, synthetic root and finalisation, and lists a space's Halstead
vocabulary where the metrics walk counts it. -/

namespace BigCodeAnalysis.Spaces

open Trees Trees.StackWalk
open Metrics.Halstead (HalsteadMaps CountMap)

structure Ops where
  name : Option String
  nameWasLossy : Bool
  startLine : ℕ
  endLine : ℕ
  kind : SpaceKind
  spaces : List Ops
  operands : List String
  operators : List String

structure OpsState where
  ops : Ops
  halsteadMaps : HalsteadMaps

structure OpsWalkState where
  chain : Ancestors
  lastLevel : ℕ
  stateStack : List OpsState

/-- How vocabulary keys become text: the spelling of an operator symbol, and
`String::from_utf8_lossy`, which says whether it replaced anything. -/
structure Rendering where
  getOperatorIdAsStr : UInt16 → List UInt8
  fromUtf8Lossy : List UInt8 → String × Bool

section
variable {R : Type*} (lang : Language) (suite : MetricSuite R) (rendering : Rendering)

/-- `Ops::new`: unlike `FuncSpace::new` it keeps the getter's name as it is. -/
def Ops.new (ancestors : Ancestors) (node : Node) (kind : SpaceKind) : Ops where
  name := if kind = .unit then none else lang.getFuncSpaceName ancestors node
  nameWasLossy := false
  startLine := (lineSpan node kind).1
  endLine := (lineSpan node kind).2
  kind := kind
  spaces := []
  operands := []
  operators := []

def OpsState.new (ancestors : Ancestors) (node : Node) (kind : SpaceKind) : OpsState :=
  ⟨Ops.new lang ancestors node kind, .new⟩

def opsPushSyntheticUnitRoot (node : Node) : List OpsState :=
  if lang.getSpaceKindWithCode [] node ≠ .unit then [OpsState.new lang [] node .unit] else []

/-- Bytewise order of the keys, and of the rendered texts where rendering lost bytes. -/
def sortedVocabulary (keys : List (List UInt8)) : List String :=
  let rendered := (keys.mergeSort (fun a b => decide (a ≤ b))).map rendering.fromUtf8Lossy
  let texts := rendered.map Prod.fst
  if rendered.any Prod.snd then texts.mergeSort (fun a b => decide (a ≤ b)) else texts

def computeOperatorsAndOperands (state : OpsState) : OpsState :=
  let maps := state.halsteadMaps
  let operators := maps.operators.keys.map rendering.getOperatorIdAsStr ++
    maps.primitiveOperators.keys
  { state with ops := { state.ops with
      operators := sortedVocabulary rendering operators
      operands := sortedVocabulary rendering maps.operands.keys } }

/-- What closing a child does to its parent. -/
def opsAbsorb (parent child : OpsState) : OpsState where
  ops := { parent.ops with spaces := parent.ops.spaces ++ [child.ops] }
  halsteadMaps := parent.halsteadMaps.merge child.halsteadMaps

def OpsWalkState.initial (root : Node) : OpsWalkState :=
  ⟨[], 0, opsPushSyntheticUnitRoot lang root⟩

end

end BigCodeAnalysis.Spaces
