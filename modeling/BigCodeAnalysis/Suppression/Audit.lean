import BigCodeAnalysis.Spaces.Compute

/-! The suppression audit: a walk of its own that lists every directive of a file with
the function it is attributed to. -/

namespace BigCodeAnalysis.Suppression

open Trees Trees.StackWalk Spaces

inductive SuppressionTarget where
  | function | file
  deriving DecidableEq, Repr

def SuppressionTarget.ofKind : SuppressionKind → SuppressionTarget
  | .function => .function
  | .file => .file

inductive SuppressionDialect where
  | native | lizard
  deriving DecidableEq, Repr

def SuppressionDialect.ofSource : SuppressionSource → SuppressionDialect
  | .native => .native
  | .lizard => .lizard

/-- A directive as the audit lists it. -/
structure SuppressionMarker where
  line : ℕ
  target : SuppressionTarget
  scope : SuppressionScope
  dialect : SuppressionDialect
  function : Option String
  deriving DecidableEq

/-- A stacked node: the name of the enclosing function and the depth. -/
structure AuditTag where
  enclosing : Option String
  depth : ℕ

structure AuditState where
  chain : Ancestors
  markers : List SuppressionMarker

section
variable (lang : Language)

/-- File directives are attributed to no function. -/
def markerFunction (kind : SuppressionKind) (enclosing : Option String) : Option String :=
  match kind with
  | .function => enclosing
  | .file => none

/-- The marker a node carries. -/
def markerAt (node : Node) (enclosing : Option String) : Option SuppressionMarker :=
  (lang.suppressionOf node).map fun suppression =>
    { line := node.startRow + 1
      target := .ofKind suppression.kind
      scope := suppression.scope
      dialect := .ofSource suppression.source
      function := markerFunction suppression.kind enclosing }

/-- The function name the children of a node inherit. -/
def childEnclosing (ancestors : Ancestors) (node : Node) (enclosing : Option String) :
    Option String :=
  if lang.isFuncWithCode ancestors node then (lang.getFuncName ancestors node).or enclosing
  else enclosing

/-- One pop of the audit. -/
def auditVisit (s : AuditState) (node : Node) (tag : AuditTag) :
    AuditState × Option AuditTag :=
  let chain := s.chain.take tag.depth
  let markers := s.markers ++ (markerAt lang node tag.enclosing).toList
  (⟨chain ++ [node], markers⟩,
    some ⟨childEnclosing lang chain node tag.enclosing, tag.depth + 1⟩)

/-- The children are pushed as they come, so the rightmost is popped first; the final sort
by line is stable. -/
def suppressionMarkers (root : Node) : List SuppressionMarker :=
  (run .rightmostOnTop (auditVisit lang) root ⟨none, 0⟩ ⟨[], []⟩).markers.mergeSort
    (fun a b => a.line ≤ b.line)

end

/-! ### What the audit and the walk do at one comment -/

section
variable {R : Type*} (lang : Language) (suite : MetricSuite R) (options : MetricsOptions)

/-- A directive the audit lists, with the node that carries it. -/
structure Listed where
  ancestors : Ancestors
  node : Node
  marker : SuppressionMarker

def auditLog (s : AuditState) (node : Node) (tag : AuditTag) : List Listed :=
  ((markerAt lang node tag.enclosing).map (Listed.mk (s.chain.take tag.depth) node)).toList

/-- The directives the audit lists, in the order in which it meets them. -/
def auditTrace (root : Node) : List Listed :=
  trace .rightmostOnTop (auditVisit lang) (auditLog lang) root ⟨none, 0⟩ ⟨[], []⟩

/-- A directive the metrics walk applies. `silenced` is the function frame it is merged
into, by its name; a directive that finds no frame silences nothing. -/
structure Applied where
  ancestors : Ancestors
  node : Node
  suppression : Suppression
  silenced : Option (Option String)

/-- The frame a function directive is merged into. -/
def functionFrame (stateStack : List (State R)) : Option (State R) :=
  stateStack.find? fun s => s.space.kind = .function

def enforcementLog (s : WalkState R) (node : Node) (walk : Walk) : List Applied :=
  let s := closeDeeper suite options walk.level { s with chain := s.chain.take walk.depth }
  if (skipVerdict lang options s.chain node s.runVerdict).1 then []
  else
    let stateStack := (openNode lang suite options s node walk.level).1
    ((lang.suppressionOf node).map fun suppression =>
      { ancestors := s.chain
        node := node
        suppression := suppression
        silenced := (functionFrame stateStack).map fun frame => frame.space.name }).toList

/-- The directives the metrics walk applies, in the order in which it meets them. -/
def enforcementTrace (root : Node) : List Applied :=
  trace .leftmostOnTop (metricsVisit lang suite options) (enforcementLog lang suite options) root
    .root (WalkState.initial lang suite root)

end

end BigCodeAnalysis.Suppression
