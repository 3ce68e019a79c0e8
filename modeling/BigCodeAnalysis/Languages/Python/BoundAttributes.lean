import BigCodeAnalysis.Languages.Python.Node
import BigCodeAnalysis.Trees.StackWalk
import Mathlib.Data.Finset.Card

/-! The attributes of a Python class: the names its body assigns, and the attributes of `self`
and `cls` that its methods assign. An assignment's target is walked from the top, and each
attribute met climbs back to the assignment. -/

namespace BigCodeAnalysis.Languages.Python

open Trees

/-! ### The climb -/

/-- `self` and `cls`. -/
def pythonSelfReceivers : List (List UInt8) := [[115, 101, 108, 102], [99, 108, 115]]

def pythonSelfReceiver (attr : Node) : Option Node :=
  ((attr.child 0).filter fun receiver : Node => receiver.kind = .identifier).filter
    fun receiver : Node => pythonSelfReceivers.contains receiver.text

/-- The name `x` of `self.x`. -/
def pythonSelfAttributeName (attr : Node) : Option (List UInt8) :=
  (pythonSelfReceiver attr).bind fun receiver : Node =>
    ((attr.children.filter fun c : Node => c.kind = .identifier).getLast?.filter
      fun id : Node => id.startByte ≠ receiver.startByte).map Node.text

def pythonTargetPatternKinds : List Kind :=
  [.patternList, .expressionList, .tuplePattern, .tuplePattern2, .listPattern, .listPattern2]

def isTargetPattern (node : Node) : Bool := node.kind ∈ pythonTargetPatternKinds

/-- Up through the patterns of a target, from the node given, nearest ancestor first. -/
def climbsToAssignment (below : Node) : List Node → Bool
  | [] => false
  | ancestor :: up =>
    if ancestor.kind = .assignment then
      (ancestor.child 0).any fun first : Node => first.id = below.id
    else if !isTargetPattern ancestor then false
    else climbsToAssignment ancestor up

/-- The ancestors stand root first. -/
def pythonIsBoundSelfAttribute (node : Node) (ancestors : List Node) : Bool :=
  (pythonSelfReceiver node).isSome && climbsToAssignment node ancestors.reverse

/-- What counts as a member. -/
def memberOwns (node : Node) (ancestors : List Node) : Bool :=
  node.kind = .attribute && pythonIsBoundSelfAttribute node ancestors

/-! ### The walk through a target -/

section
variable {σ : Type*} (collect : σ → Node → List Node → σ)

/-- One pop. A node is pushed with the length that the chain above it has. -/
def elementVisit : StackWalk.Visit (Labelled NodeData) ℕ (List Node × σ) :=
  fun (chain, s) (node : Node) depth =>
    let chain := chain.take depth
    if isTargetPattern node then ((chain ++ [node], s), some (chain.length + 1))
    else ((chain, collect s node chain), none)

/-- The chain and what was collected. -/
def pythonWalkTargetElements (target : Node) (chain : List Node) (s : σ) : List Node × σ :=
  let base := chain.length
  let (chain, s) := StackWalk.run .leftmostOnTop (elementVisit collect) target base (chain, s)
  (chain.take base, s)

end

/-! ### Names of the class body -/

def collectName (seen : Finset (List UInt8)) (element : Node) : Finset (List UInt8) :=
  if element.kind = .identifier then insert element.text seen else seen

/-- An assignment's target, then that of the assignment it is chained to. Each turn goes one
level down. -/
def boundNamesWithin : ℕ → Node → Finset (List UInt8) → Finset (List UInt8)
  | 0, _, seen => seen
  | depth + 1, assignment, seen =>
    match assignment.child 0 with
    | none => seen
    | some target =>
      let seen := (pythonWalkTargetElements (fun seen element _ => collectName seen element)
        target [] seen).2
      match (assignment.child (assignment.childCount - 1)).filter fun value : Node =>
          value.kind = .assignment with
      | some value => boundNamesWithin depth value seen
      | none => seen

def pythonCollectBoundNamesFromTarget (assignment : Node) (seen : Finset (List UInt8)) :
    Finset (List UInt8) := boundNamesWithin assignment.size assignment seen

/-- The assignments of a class body that have a value. -/
def classLevelAssignments (body : Node) : List Node :=
  (body.children.filter fun stmt : Node => stmt.kind = .expressionStatement).flatMap
    fun stmt : Node => stmt.children.filter fun child : Node =>
      child.kind = .assignment && child.children.any fun id : Node => id.kind = .eq

def pythonCollectClassLevelAttrs (body : Node) (seen : Finset (List UInt8)) :
    Finset (List UInt8) :=
  (classLevelAssignments body).foldl
    (fun seen child => pythonCollectBoundNamesFromTarget child seen) seen

/-! ### Attributes of methods -/

/-- Where a walk through a method stops. -/
def isBoundary (node : Node) : Bool :=
  node.kind = .functionDefinition || node.kind = .classDefinition ||
    node.kind = .decoratedDefinition || node.kind = .lambda

section
variable {σ : Type*} (collect : σ → Node → List UInt8 → σ)

def collectMember (s : σ) (element : Node) (chain : List Node) : σ :=
  if memberOwns element chain then
    match pythonSelfAttributeName element with
    | some name => collect s element name
    | none => s
  else s

/-- The buffer of the chain is cleared for each assignment. -/
def pythonCollectSelfAttrsFromTarget (assignment : Node) : List Node × σ → List Node × σ
  | (chain, s) =>
    match assignment.child 0 with
    | none => (chain, s)
    | some target => pythonWalkTargetElements (collectMember collect) target [assignment] s

def subtreeVisit : StackWalk.Visit (Labelled NodeData) Unit (List Node × σ) :=
  fun s (node : Node) _ =>
    if isBoundary node then (s, none)
    else if node.kind = .assignment then
      (pythonCollectSelfAttrsFromTarget collect node s, some ())
    else (s, some ())

/-- The walk through a method, from its children on. The last one is popped first. -/
def pythonCollectSelfAttrsInSubtree (root : Node) (s : σ) : σ :=
  (StackWalk.loop .rightmostOnTop (subtreeVisit collect) (Rose.forestSize root.children)
    (root.children.reverse.map (·, ())) ([], s)).2

end

/-- The `def` of a statement, decorated or not. -/
def pythonUnwrapFunction (node : Node) : Option Node :=
  if node.kind = .functionDefinition then some node
  else if node.kind = .decoratedDefinition then
    node.children.find? fun c : Node => c.kind = .functionDefinition
  else none

def insertName (seen : Finset (List UInt8)) (_ : Node) (name : List UInt8) :
    Finset (List UInt8) := insert name seen

def pythonCollectUniqueSelfAttrs (body : Node) (seen : Finset (List UInt8)) :
    Finset (List UInt8) :=
  body.children.foldl (fun seen stmt =>
    match pythonUnwrapFunction stmt with
    | some func => pythonCollectSelfAttrsInSubtree insertName func seen
    | none => seen) seen

/-! ### Classes -/

structure NpaStats where
  classNa : ℕ
  classNpa : ℕ
  deriving DecidableEq, Repr

def pythonClassBody (classDef : Node) : Option Node := classDef.children.find? pythonIsBlock

/-- The names a class body and its methods bind. -/
def seenNames (body : Node) : Finset (List UInt8) :=
  pythonCollectUniqueSelfAttrs body (pythonCollectClassLevelAttrs body ∅)

/-- Every attribute is public. -/
def npaCompute (node : Node) (stats : NpaStats) : NpaStats :=
  if node.kind = .classDefinition then
    match pythonClassBody node with
    | none => stats
    | some body =>
      let total := (seenNames body).card
      ⟨stats.classNa + total, stats.classNpa + total⟩
  else stats

end BigCodeAnalysis.Languages.Python
