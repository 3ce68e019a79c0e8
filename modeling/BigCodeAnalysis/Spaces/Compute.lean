import BigCodeAnalysis.Spaces.FuncSpace
import BigCodeAnalysis.Trees.StackWalk
import Mathlib.Logic.Function.Basic

/-! The metrics walk. One explicit stack holds the nodes to visit, another the open
spaces with the innermost on top. A space is not closed when its subtree ends but when
the next shallower node is popped, from the difference of the two nesting levels. -/

namespace BigCodeAnalysis.Spaces

open Trees Trees.StackWalk
open Metrics.Halstead (HalsteadMaps)

variable {R : Type*}

/-- The tag of a stacked node: the number of spaces and of nodes above it, and whether
an ancestor is a comment. -/
structure Walk where
  level : ℕ
  depth : ℕ
  inComment : Bool

def Walk.root : Walk := ⟨0, 0, false⟩

/-- The heads of `chain` and `stateStack` differ: the chain is root first, the stack
has its top first. -/
structure WalkState (R : Type*) where
  chain : Ancestors
  lastLevel : ℕ
  stateStack : List (State R)
  runVerdict : SubtreeSkip
  nestingMap : NestingMap

inductive MetricsError where
  | emptyRoot
  deriving DecidableEq, Repr

section
variable (lang : Language) (suite : MetricSuite R) (options : MetricsOptions)

/-! ### Spaces -/

def FuncSpace.new (ancestors : Ancestors) (node : Node) (kind : SpaceKind) : FuncSpace R where
  name := if kind = .unit then none else (lang.getFuncSpaceName ancestors node).map normalizeName
  startLine := (lineSpan node kind).1
  endLine := (lineSpan node kind).2
  kind := kind
  spaces := []
  metrics := ⟨suite.halsteadDefault, suite.withSelected⟩
  suppressed := .default

/-- The frame of a new space of kind `kind`. -/
def State.new (ancestors : Ancestors) (node : Node) (kind : SpaceKind) : State R where
  space := FuncSpace.new lang suite ancestors node kind
  halsteadMaps := .new

def State.markNonMember (state : State R) : State R :=
  { state with space := { state.space with metrics :=
    { state.space.metrics with rest := suite.markNonMember state.space.metrics.rest } } }

/-- The frame `open_func_space` pushes. -/
def openedState (ancestors : Ancestors) (node : Node) : State R :=
  let state := State.new lang suite ancestors node (lang.getSpaceKindWithCode ancestors node)
  if .wmc ∈ options.selected ∧ lang.isNonMemberFunction ancestors node then
    state.markNonMember suite
  else state

def openFuncSpace (stateStack : List (State R)) (ancestors : Ancestors) (node : Node)
    (level : ℕ) : List (State R) × ℕ :=
  (openedState lang suite options ancestors node :: stateStack, level + 1)

/-- A root whose kind is not `Unit` is wrapped; the root has no ancestors to hand over. -/
def pushSyntheticUnitRoot (node : Node) : List (State R) :=
  if lang.getSpaceKindWithCode [] node ≠ .unit then [State.new lang suite [] node .unit] else []

/-! ### Finalisation -/

def finalizeState (state : State R) : State R :=
  let space := state.space
  let rest := suite.settle space.kind (space.startLine, space.endLine) space.metrics.rest
  let halstead :=
    if .halstead ∈ options.selected then state.halsteadMaps.finalize else space.metrics.halstead
  { state with space := { space with metrics := ⟨halstead, suite.derive space.kind halstead rest⟩ } }

/-- What `finalize` does to the parent of a popped frame. `halstead::Stats` has a no-op
merge, so the parent keeps its own. -/
def absorb (parent child : State R) : State R where
  halsteadMaps := parent.halsteadMaps.merge child.halsteadMaps
  space := { parent.space with
    metrics := ⟨parent.space.metrics.halstead,
      suite.merge (suite.computeWmc parent.space.kind parent.space.metrics.rest)
        child.space.metrics.rest⟩
    spaces := parent.space.spaces ++ [child.space] }

/-- Close up to `diffLevel` spaces. The last frame is finalised in place, and ends the loop. -/
def finalize : ℕ → List (State R) → List (State R)
  | 0, stateStack => stateStack
  | _ + 1, [] => []
  | _ + 1, [lastState] => [finalizeState suite options lastState]
  | n + 1, state :: lastState :: stateStack =>
    finalize n (absorb suite lastState (finalizeState suite options state) :: stateStack)

/-! ### Suppression -/

/-- Rewrite the first element that satisfies `p`. -/
def updateFirst {α : Type*} (p : α → Bool) (f : α → α) : List α → List α
  | [] => []
  | a :: as => if p a then f a :: as else a :: updateFirst p f as

def State.suppress (scope : SuppressionScope) (state : State R) : State R :=
  { state with space := { state.space with suppressed := state.space.suppressed.merge scope } }

/-- A file directive goes to the first `Unit` frame from the bottom, a function directive
to the first `Function` frame from the top. -/
def applySuppression (stateStack : List (State R)) (suppression : Suppression) :
    List (State R) :=
  match suppression.kind with
  | .file =>
    (updateFirst (fun s => s.space.kind = .unit) (State.suppress suppression.scope)
      stateStack.reverse).reverse
  | .function =>
    updateFirst (fun s => s.space.kind = .function) (State.suppress suppression.scope) stateStack

def applyCommentSuppression (stateStack : List (State R)) (node : Node) : List (State R) :=
  match lang.suppressionOf node with
  | none => stateStack
  | some suppression => applySuppression stateStack suppression

/-! ### One visit -/

def computePerNode (facts : NodeFacts) (ancestors : Ancestors) (node : Node)
    (state : State R) (nestingMap : NestingMap) : State R × NestingMap :=
  let (rest, nestingMap) :=
    if .cognitive ∈ options.selected then
      suite.computeCognitive ancestors node (state.space.metrics.rest, nestingMap)
    else (state.space.metrics.rest, nestingMap)
  let maps :=
    if .halstead ∈ options.selected then suite.halsteadCompute ancestors node state.halsteadMaps
    else state.halsteadMaps
  let rest := suite.computeRest ancestors node facts rest
  (⟨{ state.space with metrics := { state.space.metrics with rest := rest } }, maps⟩, nestingMap)

/-- Free the slot of the visited node and seed the children that have none. -/
def propagateNestingToChildren (node : Node) (nestingMap : NestingMap) : NestingMap :=
  match nestingMap node.id with
  | none => nestingMap
  | some inherited =>
    node.children.foldl
      (fun map (child : Node) => if (map child.id).isSome then map
        else Function.update map child.id (some inherited))
      (Function.update nestingMap node.id none)

def State.excludeTestSpan (node : Node) (state : State R) : State R :=
  { state with space := { state.space with metrics := { state.space.metrics with
    rest := suite.excludeTestSpan node.startRow node.endLine state.space.metrics.rest } } }

/-- Charge the rows of a pruned node to the innermost open space. -/
def pruneNode (stateStack : List (State R)) (node : Node) (nestingMap : NestingMap) :
    List (State R) × NestingMap :=
  (if .loc ∈ options.selected then stateStack.modifyHead (State.excludeTestSpan suite node)
    else stateStack,
   if .cognitive ∈ options.selected then Function.update nestingMap node.id none else nestingMap)

/-- Whether `exclude_tests` elides the node, and the verdict kept for the next one. -/
def skipVerdict (ancestors : Ancestors) (node : Node) (runVerdict : SubtreeSkip) :
    Bool × SubtreeSkip :=
  if options.excludeTests then lang.prunesSubtree ancestors node runVerdict
  else (false, runVerdict)

/-- Close the spaces a deeper, already walked subtree left open. -/
def closeDeeper (level : ℕ) (s : WalkState R) : WalkState R :=
  if level < s.lastLevel then
    { s with stateStack := finalize suite options (s.lastLevel - level) s.stateStack
             lastLevel := level }
  else s

/-- The stack, `last_level` and the level of the children once the node had the chance to
open a space. -/
def openNode (s : WalkState R) (node : Node) (level : ℕ) : List (State R) × ℕ × ℕ :=
  if lang.promotesToFuncSpaceWithCode s.chain node then
    let (stateStack, lastLevel) :=
      openFuncSpace lang suite options s.stateStack s.chain node level
    (stateStack, lastLevel, lastLevel)
  else (s.stateStack, s.lastLevel, level)

/-- The body of the walk's loop after the stack has been brought to the node's level. -/
def visitNode (s : WalkState R) (node : Node) (walk : Walk) : WalkState R × Option Walk :=
  let (skipped, runVerdict) := skipVerdict lang options s.chain node s.runVerdict
  if skipped then
    let (stateStack, nestingMap) := pruneNode suite options s.stateStack node s.nestingMap
    ({ s with stateStack, runVerdict, nestingMap }, none)
  else
    let funcSpace := lang.promotesToFuncSpaceWithCode s.chain node
    let (stateStack, lastLevel, newLevel) := openNode lang suite options s node walk.level
    let isComment := lang.isComment node
    let stateStack := applyCommentSuppression lang stateStack node
    let subtreeInComment := walk.inComment || isComment
    let (stateStack, nestingMap) :=
      match stateStack with
      | [] => ([], s.nestingMap)
      | state :: below =>
        let (state, nestingMap) :=
          computePerNode suite options ⟨funcSpace, subtreeInComment⟩ s.chain node state s.nestingMap
        (state :: below, nestingMap)
    let nestingMap :=
      if .cognitive ∈ options.selected then propagateNestingToChildren node nestingMap
      else nestingMap
    ({ chain := s.chain ++ [node], lastLevel, stateStack, runVerdict, nestingMap },
      some ⟨newLevel, walk.depth + 1, subtreeInComment⟩)

/-- One pop of the walk. -/
def metricsVisit (s : WalkState R) (node : Node) (walk : Walk) : WalkState R × Option Walk :=
  visitNode lang suite options
    (closeDeeper suite options walk.level { s with chain := s.chain.take walk.depth }) node walk

def WalkState.initial (root : Node) : WalkState R where
  chain := []
  lastLevel := 0
  stateStack := pushSyntheticUnitRoot lang suite root
  runVerdict := .retain
  nestingMap := fun _ => none

/-- The walk of a whole tree. The final drain asks for more levels than any stack holds. -/
def metricsInner (name : Option String) (root : Node) : Except MetricsError (FuncSpace R) :=
  let s := run .leftmostOnTop (metricsVisit lang suite options) root .root
    (WalkState.initial lang suite root)
  match finalize suite options s.stateStack.length s.stateStack with
  | [] => .error .emptyRoot
  | state :: _ => .ok { state.space with name := name }

end

end BigCodeAnalysis.Spaces
