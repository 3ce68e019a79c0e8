import BigCodeAnalysis.Spaces.Ops
import BigCodeAnalysis.Wire.MapTree
import BigCodeAnalysis.Wire.SerializeBounded

/-! The documents a thread serializes: spaces and operator trees, as the walks compute them or
in their wire form. A computed space is converted first; a computed operator tree is written
through a view that borrows it. -/

namespace BigCodeAnalysis.Wire

open Spaces Trees

/-- The deepest nesting that is serialized. -/
def maxSpaceSerializeDepth : ℕ := 128

/-! ### Events -/

inductive Value (M : Type*) where
  | text (text : Option String)
  | flag (flag : Bool)
  | number (number : ℕ)
  | kind (kind : SpaceKind)
  | metrics (metrics : M)
  | scope (scope : SuppressionScope)
  | texts (texts : List String)

inductive Event (M : Type*) where
  | structStart (name : String) (len : ℕ)
  | field (key : String) (value : Value M)
  | key (key : String)
  | skipField (key : String)
  | seqStart (len : ℕ)
  | seqEnd
  | structEnd

variable {R M : Type*}

/-! ### Spaces -/

/-- The fields of a space's wire form, less its children. -/
structure FuncSpaceFields (M : Type*) where
  name : Option String
  startLine : ℕ
  endLine : ℕ
  kind : SpaceKind
  metrics : M
  suppressed : SuppressionScope

abbrev FuncSpace (M : Type*) := Rose (FuncSpaceFields M)

mutual
def unfoldSpace : Spaces.FuncSpace R → Rose (Spaces.FuncSpace R)
  | ⟨name, startLine, endLine, kind, spaces, metrics, suppressed⟩ =>
    .node ⟨name, startLine, endLine, kind, spaces, metrics, suppressed⟩ (unfoldSpaces spaces)

def unfoldSpaces : List (Spaces.FuncSpace R) → List (Rose (Spaces.FuncSpace R))
  | [] => []
  | space :: spaces => unfoldSpace space :: unfoldSpaces spaces
end

theorem unfoldSpaces_eq_map (spaces : List (Spaces.FuncSpace R)) :
    unfoldSpaces spaces = spaces.map unfoldSpace := by
  induction spaces with
  | nil => rw [unfoldSpaces, List.map_nil]
  | cons space spaces ih => rw [unfoldSpaces, List.map_cons, ih]

def spaceTree : TreeType (Spaces.FuncSpace R) where
  childrenOf source := source.spaces
  unfold := unfoldSpace
  unfold_eq space := by
    cases space
    rw [unfoldSpace, unfoldSpaces_eq_map]

def spaceFields (metricsFrom : CodeMetrics R → M) (source : Spaces.FuncSpace R) :
    FuncSpaceFields M where
  name := source.name
  startLine := source.startLine
  endLine := source.endLine
  kind := source.kind
  metrics := metricsFrom source.metrics
  suppressed := source.suppressed

def buildSpace (metricsFrom : CodeMetrics R → M) (source : Spaces.FuncSpace R)
    (spaces : List (FuncSpace M)) : FuncSpace M :=
  .node (spaceFields metricsFrom source) spaces

/-- `FuncSpace::from`. -/
def FuncSpace.fromSpace (metricsFrom : CodeMetrics R → M) (source : Spaces.FuncSpace R) :
    Option (FuncSpace M) :=
  (mapTree (buildSpace metricsFrom) spaceTree source).map Prod.fst

def scopeIsEmpty (scope : SuppressionScope) : Bool := decide (scope = .some ∅)

def spaceFormat : Format (FuncSpaceFields M) (Event M) where
  typeName := "FuncSpace"
  before fields :=
    [.structStart "FuncSpace" (if scopeIsEmpty fields.suppressed then 6 else 7),
      .field "name" (.text fields.name), .field "start_line" (.number fields.startLine),
      .field "end_line" (.number fields.endLine), .field "kind" (.kind fields.kind), .key "spaces"]
  seqStart := .seqStart
  seqEnd := .seqEnd
  after fields :=
    [.field "metrics" (.metrics fields.metrics),
      if scopeIsEmpty fields.suppressed then .skipField "suppressed"
      else .field "suppressed" (.scope fields.suppressed), .structEnd]

/-! ### Operator trees -/

/-- The fields of an operator tree's wire form, less its children. -/
structure OpsFields where
  name : Option String
  nameWasLossy : Bool
  startLine : ℕ
  endLine : ℕ
  kind : SpaceKind
  operands : List String
  operators : List String

abbrev Ops := Rose OpsFields

mutual
def unfoldOps : Spaces.Ops → Rose Spaces.Ops
  | ⟨name, lossy, startLine, endLine, kind, spaces, operands, operators⟩ =>
    .node ⟨name, lossy, startLine, endLine, kind, spaces, operands, operators⟩ (unfoldOpss spaces)

def unfoldOpss : List Spaces.Ops → List (Rose Spaces.Ops)
  | [] => []
  | ops :: rest => unfoldOps ops :: unfoldOpss rest
end

theorem unfoldOpss_eq_map (spaces : List Spaces.Ops) : unfoldOpss spaces = spaces.map unfoldOps := by
  induction spaces with
  | nil => rw [unfoldOpss, List.map_nil]
  | cons ops rest ih => rw [unfoldOpss, List.map_cons, ih]

def opsTree : TreeType Spaces.Ops where
  childrenOf source := source.spaces
  unfold := unfoldOps
  unfold_eq ops := by
    cases ops
    rw [unfoldOps, unfoldOpss_eq_map]

def opsFields (source : Spaces.Ops) : OpsFields where
  name := source.name
  nameWasLossy := source.nameWasLossy
  startLine := source.startLine
  endLine := source.endLine
  kind := source.kind
  operands := source.operands
  operators := source.operators

def buildOps (source : Spaces.Ops) (spaces : List Ops) : Ops := .node (opsFields source) spaces

/-- `Ops::from`. -/
def Ops.fromOps (source : Spaces.Ops) : Option Ops :=
  (mapTree buildOps opsTree source).map Prod.fst

/-- The wire form and the view that borrows differ in the name of their struct alone. -/
def opsFormat (structName : String) : Format OpsFields (Event M) where
  typeName := "Ops"
  before fields :=
    .structStart structName (if fields.nameWasLossy then 8 else 7) ::
      .field "name" (.text fields.name) ::
      (if fields.nameWasLossy then .field "name_was_lossy" (.flag fields.nameWasLossy)
        else .skipField "name_was_lossy") ::
      [.field "start_line" (.number fields.startLine), .field "end_line" (.number fields.endLine),
        .field "kind" (.kind fields.kind), .key "spaces"]
  seqStart := .seqStart
  seqEnd := .seqEnd
  after fields :=
    [.field "operands" (.texts fields.operands), .field "operators" (.texts fields.operators),
      .structEnd]

/-- Each child of a computed operator tree is written through the view again. -/
def opsViewFormat : Format Spaces.Ops (Event M) where
  typeName := "Ops"
  before source := (opsFormat "OpsView").before (opsFields source)
  seqStart := .seqStart
  seqEnd := .seqEnd
  after source := (opsFormat "OpsView").after (opsFields source)

/-! ### Documents -/

inductive Document (R M : Type*) where
  | funcSpace (space : Spaces.FuncSpace R)
  | wireFuncSpace (space : FuncSpace M)
  | ops (ops : Spaces.Ops)
  | wireOps (ops : Ops)

namespace Document

variable {σ ε : Type*}

/-- The nested lists of children that are not empty. -/
def levels : Document R M → ℕ
  | .funcSpace space => (spaceTree.unfold space).levels
  | .wireFuncSpace space => space.levels
  | .ops tree => (opsTree.unfold tree).levels
  | .wireOps tree => tree.levels

/-- The serialization of a document; `none` would be a conversion that does not end. -/
def serialize (metricsFrom : CodeMetrics R → M) (serializer : Serializer (Event M) σ ε) :
    Document R M → Option (Step σ ε)
  | .funcSpace space =>
    (FuncSpace.fromSpace metricsFrom space).map
      (Wire.serialize spaceFormat serializer maxSpaceSerializeDepth)
  | .wireFuncSpace space => some (Wire.serialize spaceFormat serializer maxSpaceSerializeDepth space)
  | .ops tree =>
    some (Wire.serialize opsViewFormat serializer maxSpaceSerializeDepth (opsTree.unfold tree))
  | .wireOps tree => some (Wire.serialize (opsFormat "Ops") serializer maxSpaceSerializeDepth tree)

end Document

/-- A document given to a serializer. -/
structure Job (R M σ ε : Type*) where
  document : Document R M
  serializer : Serializer (Event M) σ ε
  start : σ

/-- The serializations of one thread, one after the other. -/
def serializeAll {σ ε : Type*} (metricsFrom : CodeMetrics R → M) :
    List (Job R M σ ε) → ℕ → Option (List (Except ε σ) × ℕ)
  | [], depth => some ([], depth)
  | job :: jobs, depth => do
    let step ← job.document.serialize metricsFrom job.serializer
    let (result, depth) := step job.start depth
    let (results, depth) ← serializeAll metricsFrom jobs depth
    return (result :: results, depth)

/-! ### What a thread's serializations come to -/

section
variable {metricsFrom : CodeMetrics R → M}

theorem levels_fold {α β : Type*} (f : α → β) :
    (∀ t : Rose α, (t.fold fun a ds => Rose.node (f a) ds).levels = t.levels) ∧
      ∀ ts : List (Rose α), Rose.forestLevels (ts.map (Rose.fold fun a ds => Rose.node (f a) ds)) =
        Rose.forestLevels ts := by
  refine Rose.tree_forest_induction (fun a cs ih => ?_) rfl (fun t ts iht ihts => ?_)
  · rw [Rose.fold_node, Rose.levels, Rose.levels, ih]
  · rw [List.map_cons, Rose.forestLevels, Rose.forestLevels, iht, ihts]

theorem fromSpace_eq (space : Spaces.FuncSpace R) :
    FuncSpace.fromSpace metricsFrom space =
      some (spaceTree.convert (buildSpace metricsFrom) space) := by
  rw [FuncSpace.fromSpace, mapTree_eq, Option.map_some]

variable (metricsFrom) in
/-- A document's serialization restores the counter, and from a counter at zero it succeeds
exactly if the document is not nested past the limit. -/
theorem Document.serialize_eq {σ ε : Type*} (document : Document R M)
    (serializer : Serializer (Event M) σ ε) :
    ∃ step, document.serialize metricsFrom serializer = some step ∧ step.Restores ∧
      (serializer.NeverFails →
        step.SucceedsIff 0 (document.levels ≤ maxSpaceSerializeDepth)) := by
  cases document with
  | funcSpace space =>
    refine ⟨_, by rw [Document.serialize, fromSpace_eq, Option.map_some], ?_⟩
    have hlevels : (spaceTree.convert (buildSpace metricsFrom) space).levels =
        (spaceTree.unfold space).levels := (levels_fold _).1 _
    rw [Document.levels, ← hlevels]
    exact serialize_spec spaceFormat _ serializer _
  | wireFuncSpace space => exact ⟨_, rfl, serialize_spec spaceFormat _ serializer space⟩
  | ops tree => exact ⟨_, rfl, serialize_spec opsViewFormat _ serializer _⟩
  | wireOps tree => exact ⟨_, rfl, serialize_spec (opsFormat "Ops") _ serializer tree⟩

variable {σ ε : Type*}

theorem serializeAll_restores (jobs : List (Job R M σ ε)) (depth : ℕ) :
    ∃ results, serializeAll metricsFrom jobs depth = some (results, depth) := by
  induction jobs with
  | nil => exact ⟨[], rfl⟩
  | cons job jobs ih =>
    obtain ⟨step, hstep, hrestores, -⟩ :=
      Document.serialize_eq metricsFrom job.document job.serializer
    obtain ⟨results, hresults⟩ := ih
    have hdepth := hrestores job.start depth
    exact ⟨(step job.start depth).1 :: results, by simp [serializeAll, hstep, hdepth, hresults]⟩

/-- On a thread whose counter is at zero each job is judged by its own nesting, whatever the
ones before it came to. -/
theorem serializeAll_zero (jobs : List (Job R M σ ε)) :
    ∃ results, serializeAll metricsFrom jobs 0 = some (results, 0) ∧
      List.Forall₂ (fun job result => job.serializer.NeverFails →
        (result.isOk = true ↔ job.document.levels ≤ maxSpaceSerializeDepth)) jobs results := by
  induction jobs with
  | nil => exact ⟨[], rfl, .nil⟩
  | cons job jobs ih =>
    obtain ⟨step, hstep, hrestores, hsucceeds⟩ :=
      Document.serialize_eq metricsFrom job.document job.serializer
    obtain ⟨results, hresults, hjobs⟩ := ih
    have hdepth := hrestores job.start 0
    refine ⟨(step job.start 0).1 :: results, by simp [serializeAll, hstep, hdepth, hresults],
      .cons (fun h => hsucceeds h job.start) hjobs⟩

/-- The conversion is the recursion on the tree, with one call for each node after the calls
for its children. Serialization leaves the counter where it was, and from zero takes the
documents that are not nested past the limit and no others. -/
theorem conversion_and_serialization {Src Dst : Type*} (tree : TreeType Src)
    (build : Src → List Dst → Dst) (root : Src) (jobs : List (Job R M σ ε)) :
    (mapTree build tree root = some (tree.convert build root, tree.conversions build root) ∧
      (∀ a, tree.convert build a = build a ((tree.childrenOf a).map (tree.convert build))) ∧
      ((tree.conversions build root).map Prod.fst).Perm
        ((tree.unfold root).nodes.map Rose.label)) ∧
    (∀ depth, ∃ results, serializeAll metricsFrom jobs depth = some (results, depth)) ∧
    ∃ results, serializeAll metricsFrom jobs 0 = some (results, 0) ∧
      List.Forall₂ (fun job result => job.serializer.NeverFails →
        (result.isOk = true ↔ job.document.levels ≤ maxSpaceSerializeDepth)) jobs results := by
  refine ⟨⟨mapTree_eq build tree root, tree.convert_eq build, ?_⟩, serializeAll_restores jobs,
    serializeAll_zero jobs⟩
  rw [TreeType.conversions, List.map_map]
  exact (Rose.postorder_perm_nodes.1 _).map Rose.label

end

end BigCodeAnalysis.Wire
