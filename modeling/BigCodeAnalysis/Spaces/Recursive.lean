import BigCodeAnalysis.Spaces.Compute
import BigCodeAnalysis.Trees.Timeline

/-! The space tree by recursion. A tree is first marked: which subtrees are pruned and
which nodes open a space. The marks fix the timeline of every space, and running the
timelines gives the spaces with their metrics, each closed right where its subtree ends. -/

namespace BigCodeAnalysis.Spaces

open Trees

variable {R : Type*}

/-- A visited node with what the walk knows about it. -/
structure Visited where
  ancestors : Ancestors
  node : Node
  facts : NodeFacts

inductive Mark where
  | pruned (node : Node)
  | kept (v : Visited)

/-- A tree whose pruned nodes have lost their subtrees. -/
abbrev Marked := Rose Mark

abbrev SpaceStep := Step Visited Node Visited

section Marking
variable (lang : Language) (options : MetricsOptions)

mutual
/-- Mark a subtree. The verdict is handed on in pre-order. -/
def markNode (ancestors : Ancestors) (inComment : Bool) : Node → SubtreeSkip → Marked × SubtreeSkip
  | .node a cs, verdict =>
    let (skipped, verdict) := skipVerdict lang options ancestors (.node a cs) verdict
    if skipped then (.node (.pruned (.node a cs)) [], verdict)
    else
      let inComment := inComment || lang.isComment (.node a cs)
      let v : Visited := ⟨ancestors, .node a cs,
        ⟨lang.promotesToFuncSpaceWithCode ancestors (.node a cs), inComment⟩⟩
      let (children, verdict) := markForest (ancestors ++ [.node a cs]) inComment cs verdict
      (.node (.kept v) children, verdict)

def markForest (ancestors : Ancestors) (inComment : Bool) :
    List Node → SubtreeSkip → List Marked × SubtreeSkip
  | [], verdict => ([], verdict)
  | t :: ts, verdict =>
    let (m, verdict) := markNode ancestors inComment t verdict
    let (ms, verdict) := markForest ancestors inComment ts verdict
    (m :: ms, verdict)
end

def markRoot (root : Node) : Marked := (markNode lang options [] false root .retain).1

end Marking

/-! ### What the marks fix -/

namespace Marked

mutual
def steps : Marked → List SpaceStep
  | .node (.pruned node) _ => [.prune node]
  | .node (.kept v) cs =>
    if v.facts.funcSpace then [.child v (.visit v :: stepsForest cs)]
    else .visit v :: stepsForest cs

/-- The timeline of a space over the part of its body that lies in a forest. -/
def stepsForest : List Marked → List SpaceStep
  | [] => []
  | m :: ms => steps m ++ stepsForest ms
end

mutual
def attributed (opener : Option Visited) : Marked → List (Option Visited × (Visited ⊕ Node))
  | .node (.pruned node) _ => [(opener, .inr node)]
  | .node (.kept v) cs =>
    let opener := if v.facts.funcSpace then some v else opener
    (opener, .inl v) :: attributedForest opener cs

/-- The retained and the pruned nodes in pre-order, each with its innermost opener: the
retained node itself if it opens a space. -/
def attributedForest (opener : Option Visited) :
    List Marked → List (Option Visited × (Visited ⊕ Node))
  | [] => []
  | m :: ms => attributed opener m ++ attributedForest opener ms
end

mutual
def openers : Marked → List (Rose Visited)
  | .node (.pruned _) _ => []
  | .node (.kept v) cs =>
    if v.facts.funcSpace then [.node v (openersForest cs)] else openersForest cs

/-- The tree of the space-opening nodes that are not pruned. -/
def openersForest : List Marked → List (Rose Visited)
  | [] => []
  | m :: ms => openers m ++ openersForest ms
end

/-- The timelines visit every retained node and prune every pruned one once, in
pre-order, in the scope of its innermost opener. -/
theorem events_steps :
    (∀ (m : Marked) (opener : Option Visited),
      Step.eventsAll opener (steps m) = attributed opener m) ∧
    ∀ (ms : List Marked) (opener : Option Visited),
      Step.eventsAll opener (stepsForest ms) = attributedForest opener ms := by
  refine Rose.tree_forest_induction (fun mark cs ih opener => ?_)
    (by simp [stepsForest, attributedForest]) (fun m ms ihm ihms opener => ?_)
  · cases mark with
    | pruned node => simp [steps, attributed, Step.events]
    | kept v => simp only [steps, attributed]; split_ifs <;> simp [Step.events, ih]
  · simp only [stepsForest, attributedForest, Step.eventsAll_append, ihm, ihms]

/-- The child scopes of the timelines are the openers. -/
theorem scopes_steps :
    (∀ m : Marked, Step.scopesAll (steps m) = openers m) ∧
      ∀ ms : List Marked, Step.scopesAll (stepsForest ms) = openersForest ms := by
  refine Rose.tree_forest_induction (fun mark cs ih => ?_) (by simp [stepsForest, openersForest])
    (fun m ms ihm ihms => ?_)
  · cases mark with
    | pruned node => simp [steps, openers, Step.scopes]
    | kept v => simp only [steps, openers]; split_ifs <;> simp [Step.scopes, ih]
  · simp only [stepsForest, openersForest, Step.scopesAll_append, ihm, ihms]

end Marked

/-! ### Running a space -/

/-- A space while its timeline runs. `outer` collects, in order, the directives that
belong to an enclosing space. -/
structure SpaceRun (R : Type*) where
  state : State R
  isRoot : Bool
  nestingMap : NestingMap
  outer : List Suppression

section Running
variable (lang : Language) (suite : MetricSuite R) (options : MetricsOptions)

/-- A file directive belongs to the root, a function directive to the innermost function. -/
def SpaceRun.raise (r : SpaceRun R) (suppression : Suppression) : SpaceRun R :=
  let own : Bool := match suppression.kind with
    | .file => r.isRoot
    | .function => r.state.space.kind = .function
  if own then { r with state := r.state.suppress suppression.scope }
  else { r with outer := r.outer ++ [suppression] }

def SpaceRun.raiseComment (r : SpaceRun R) (node : Node) : SpaceRun R :=
  match lang.suppressionOf node with
  | none => r
  | some suppression => r.raise suppression

/-- Hand a node to the per-node computation on the state of this space. -/
def SpaceRun.visit (v : Visited) (r : SpaceRun R) : SpaceRun R :=
  let r := r.raiseComment lang v.node
  let (state, nestingMap) :=
    computePerNode suite options v.facts v.ancestors v.node r.state r.nestingMap
  let nestingMap :=
    if .cognitive ∈ options.selected then propagateNestingToChildren v.node nestingMap
    else nestingMap
  { r with state, nestingMap }

/-- Charge a pruned node to this space. -/
def SpaceRun.prune (node : Node) (r : SpaceRun R) : SpaceRun R :=
  { r with
    state := if .loc ∈ options.selected then r.state.excludeTestSpan suite node else r.state
    nestingMap :=
      if .cognitive ∈ options.selected then Function.update r.nestingMap node.id none
      else r.nestingMap }

/-- Finalise a finished child and merge it into this space. -/
def SpaceRun.leave (r child : SpaceRun R) : SpaceRun R :=
  let r := child.outer.foldl SpaceRun.raise r
  { r with
    state := absorb suite r.state (finalizeState suite options child.state)
    nestingMap := child.nestingMap }

def spaceAlgebra : ScopeAlgebra Visited Node Visited (SpaceRun R) where
  visit := SpaceRun.visit lang suite options
  prune := SpaceRun.prune suite options
  enter v r := ⟨openedState lang suite options v.ancestors v.node, false, r.nestingMap, []⟩
  leave := SpaceRun.leave suite options

/-- The file-level space from its frame and its timeline. -/
def runRoot (frame : State R) (steps : List SpaceStep) : SpaceRun R :=
  Step.execAll (spaceAlgebra lang suite options) steps ⟨frame, true, fun _ => none, []⟩

/-- The file-level space of a marked tree. A root of kind `Unit` is that space itself;
any other root is wrapped in one. -/
def rootRun (root : Node) : Option (SpaceRun R) :=
  if lang.getSpaceKindWithCode [] root ≠ .unit then
    some (runRoot lang suite options (State.new lang suite [] root .unit)
      (markRoot lang options root).steps)
  else
    match (markRoot lang options root).steps with
    | [.child v steps] =>
      some (runRoot lang suite options (openedState lang suite options v.ancestors v.node) steps)
    | _ => none

/-- The space tree of a file by recursion. -/
def recursiveSpaces (name : Option String) (root : Node) : Option (FuncSpace R) :=
  (rootRun lang suite options root).map fun r =>
    { (finalizeState suite options r.state).space with name := name }

end Running

/-! ### The tree of openers -/

section Openers
variable (lang : Language) (suite : MetricSuite R) (options : MetricsOptions)

/-- The label of the space a node opens. -/
def openedLabel (v : Visited) : SpaceLabel :=
  let kind := lang.getSpaceKindWithCode v.ancestors v.node
  ⟨if kind = .unit then none else (lang.getFuncSpaceName v.ancestors v.node).map normalizeName,
    kind, (lineSpan v.node kind).1, (lineSpan v.node kind).2⟩

/-- The space tree a file should have: the openers, under a synthetic unit when the root's
own kind is not `Unit`, with the caller's name on top. -/
def openerTree (name : Option String) (root : Node) : Option (Rose SpaceLabel) :=
  let openers := Rose.mapForest (openedLabel lang) (markRoot lang options root).openers
  if lang.getSpaceKindWithCode [] root ≠ .unit then
    some (.node ⟨name, .unit, (lineSpan root .unit).1, (lineSpan root .unit).2⟩ openers)
  else
    match openers with
    | [.node label children] => some (.node { label with name := name } children)
    | _ => none

end Openers

end BigCodeAnalysis.Spaces
