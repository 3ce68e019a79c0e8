import BigCodeAnalysis.Metrics.Ruby.VisibilityCalls
import BigCodeAnalysis.Trees.Rose
import Mathlib.Algebra.GroupWithZero.Nat

/-! The syntax tree of a Ruby class body, and the walk over it that the metrics share. Of one node
the walk asks whether it is read through, which of its children are statements, and what it does
to visibility. It runs on an explicit stack of nodes whose children are partly read. A consumer
is told of every statement and call argument before the walk enters it, and of every call once
its arguments are read. -/

namespace BigCodeAnalysis.Metrics.Ruby

open Trees

/-- The kinds the walk tells apart. Aliases of one rule are kinds of their own. -/
inductive Kind where
  | identifier | self | method | singletonMethod
  | call | call2 | call3 | call4 | argumentList | argumentList2
  | «if» | unless | elsif | «else» | «then» | case | caseMatch | when | inClause
  | «while» | «until» | «for» | «do» | begin | rescue | ensure
  | ifModifier | unlessModifier | whileModifier | untilModifier
  | rescueModifier | rescueModifier2 | rescueModifier3
  | parenthesizedStatements | assignment | assignment2
  | operatorAssignment | operatorAssignment2 | rightAssignmentList
  | leftAssignmentList | destructuredLeftAssignment | restAssignment | exceptionVariable
  | other (kind : ℕ)
  deriving DecidableEq, Repr

/-- The field of its parent that a node fills. -/
inductive Field where
  | body | left | right | pattern | variable | receiver | method
  | other (field : ℕ)
  deriving DecidableEq, Repr

/-- `text` is the source text of the node, where it is UTF-8. -/
structure Info where
  id : ℕ
  kind : Kind
  named : Bool
  field : Option Field
  text : Option String
  deriving DecidableEq, Repr

abbrev Node := Rose Info

namespace Node
variable (node : Node)

def id : ℕ := node.label.id

def kind : Kind := node.label.kind

def isNamed : Bool := node.label.named

def childByFieldName (field : Field) : Option Node :=
  node.children.find? fun child => child.label.field = some field

end Node

/-! ### Wrappers -/

/-- A wrapper is read for the statements under it. -/
def readsThrough : Kind → Bool
  | .if | .unless | .elsif | .else | .then | .case | .caseMatch | .when | .inClause | .while
  | .until | .for | .do | .begin | .rescue | .ensure | .ifModifier | .unlessModifier
  | .whileModifier | .untilModifier | .rescueModifier | .rescueModifier2 | .rescueModifier3
  | .parenthesizedStatements | .assignment | .assignment2 | .operatorAssignment
  | .operatorAssignment2 | .rightAssignmentList => true
  | _ => false

def isAssignment : Kind → Bool
  | .assignment | .assignment2 | .operatorAssignment | .operatorAssignment2 => true
  | _ => false

/-- The child fills this field of its parent. -/
def fills (parent : Node) (field : Field) (child : Node) : Bool :=
  (parent.childByFieldName field).any fun found => found.id = child.id

def isStatementOf (parent : Node) (parentKind : Kind) (child : Node) : Bool :=
  child.isNamed &&
    match parentKind with
    | .if | .unless | .elsif => child.kind ∈ [Kind.then, .else, .elsif]
    | .case | .caseMatch => child.kind ∈ [Kind.when, .inClause, .else]
    | .when | .inClause | .rescue => child.kind = .then
    | .while | .until | .for => child.kind = .do
    | .ifModifier | .unlessModifier | .whileModifier | .untilModifier => fills parent .body child
    | .rescueModifier | .rescueModifier2 | .rescueModifier3 => true
    | kind => if isAssignment kind then fills parent .right child else true

/-! ### Calls -/

inductive RubyBodyShape where
  | definition | call | wrapper | leaf
  deriving DecidableEq, Repr

/-- `func_opener::is_callable` has no gate for Ruby. -/
def isCallable : Kind → Bool
  | .method | .singletonMethod => true
  | _ => false

def listsCall : Kind → Bool
  | .call | .call2 | .call3 | .call4 => true
  | _ => false

def shape (kind : Kind) : RubyBodyShape :=
  if isCallable kind then .definition
  else if listsCall kind then .call
  else if readsThrough kind then .wrapper
  else .leaf

def rubyCallArgumentList (call : Node) : Option Node :=
  call.children.find? fun child => child.kind = .argumentList || child.kind = .argumentList2

def rubyCallNamedArguments (call : Node) : List Node :=
  match rubyCallArgumentList call with
  | some list => list.children.filter Node.isNamed
  | none => []

/-! ### Visibility -/

def keywordOf : String → Option RubyVisibility
  | "private" => some .isPrivate
  | "public" => some .isPublic
  | "protected" => some .isProtected
  | _ => none

/-- A bare keyword. -/
def rubyVisibilityMarker (node : Node) : Option RubyVisibility :=
  if node.kind = .identifier then node.label.text.bind keywordOf else none

inductive RubyVisibilityEffect where
  | flag (visibility : RubyVisibility)
  | arguments (keyword : RubyVisibilityCall)
  deriving DecidableEq, Repr

/-- A receiver other than `self` puts the call on another object. -/
def rubyCalleeName (call : Node) : Option String :=
  if (call.childByFieldName .receiver).any fun receiver => receiver.kind ≠ .self then none
  else (call.childByFieldName .method).bind fun method => method.label.text

def callKeyword : String → Option RubyVisibilityCall
  | "private" => some ⟨.isPrivate, false⟩
  | "public" => some ⟨.isPublic, false⟩
  | "protected" => some ⟨.isProtected, false⟩
  | "private_class_method" => some ⟨.isPrivate, true⟩
  | "public_class_method" => some ⟨.isPublic, true⟩
  | _ => none

/-- A keyword without arguments sets the flag; the class-method pair then does nothing. -/
def rubyVisibilityEffect (call : Node) : Option RubyVisibilityEffect :=
  ((rubyCalleeName call).bind callKeyword).bind fun keyword =>
    if rubyCallNamedArguments call = [] then
      if keyword.targetsSingleton then none else some (.flag keyword.visibility)
    else some (.arguments keyword)

/-! ### Locals that shadow a keyword -/

/-- A target that holds other targets. -/
def holdsTargets : Kind → Bool
  | .leftAssignmentList | .destructuredLeftAssignment | .restAssignment | .exceptionVariable => true
  | _ => false

/-- The keyword names the walk knows as locals. -/
abbrev Shadowed := RubyVisibility → Bool

/-- The loop over the targets still to look at, the last one first. -/
def shadowBindings (shadowed : Shadowed) : List Node → Shadowed
  | [] => shadowed
  | node :: stack =>
    match rubyVisibilityMarker node with
    | some marker => shadowBindings (Function.update shadowed marker true) stack
    | none =>
      if holdsTargets node.kind then
        shadowBindings shadowed ((node.children.filter Node.isNamed).reverse ++ stack)
      else shadowBindings shadowed stack
termination_by stack => Rose.forestSize stack
decreasing_by
  · rw [Rose.forestSize_cons, Rose.size_eq]
    omega
  · have hle := Rose.forestSize_le_of_sublist (List.filter_sublist (p := Node.isNamed)
      (l := node.children))
    rw [Rose.forestSize_append, Rose.forestSize_reverse, Rose.forestSize_cons, Rose.size_eq]
    omega
  · rw [Rose.forestSize_cons, Rose.size_eq]
    omega

/-- The field of a statement that holds its binding target. -/
def bindingField (kind : Kind) : Option Field :=
  if isAssignment kind then some .left
  else if kind = .for then some .pattern
  else if kind = .rescue then some .variable
  else none

def shadowStatementBindings (shadowed : Shadowed) (statement : Node) : Shadowed :=
  match (bindingField statement.kind).bind statement.childByFieldName with
  | some target => shadowBindings shadowed [target]
  | none => shadowed

/-! ### The chain of ancestors -/

/-- The chain of the children of a node, root first, where one is known. -/
structure ChildAncestors where
  chain : Option (List Node)
  /-- The length of the chain as built. -/
  floor : ℕ

namespace ChildAncestors

def descend (above : ChildAncestors) (child : Node) : ChildAncestors :=
  { above with chain := above.chain.map (· ++ [child]) }

/-- The chain never shrinks below the node it was built for. -/
def ascend (above : ChildAncestors) : ChildAncestors :=
  { above with
    chain := above.chain.map fun chain =>
      if above.floor < chain.length then chain.dropLast else chain }

end ChildAncestors

/-! ### Consumers -/

/-- What the walk is inside while it reads a node's children. -/
inductive RubyFrameKind (T : Type*) where
  | statements
  | arguments (call : RubyOpenCall T)

def RubyFrameKind.isArguments {T : Type*} : RubyFrameKind T → Bool
  | .arguments _ => true
  | .statements => false

/-- `T` is what a consumer gathers over one call's arguments and `σ` its own state. A consumer is
shown the visibility and the chain. -/
structure RubyBodyConsumer (T σ : Type*) where
  default : T
  statement : Node → RubyBodyShape → RubyVisibility → Option (List Node) → σ → σ
  argument : Node → RubyBodyShape → RubyOpenCall T → RubyVisibility → Option (List Node) → σ →
    RubyOpenCall T × σ
  leaveCall : RubyOpenCall T → Option (RubyOpenCall T) → σ → Option (RubyOpenCall T) × σ

namespace RubyBodyConsumer
variable {T σ : Type*} (consumer : RubyBodyConsumer T σ)

/-- Hand a node to the consumer, as a statement or as an argument of the open call. -/
def tell (kind : RubyFrameKind T) (node : Node) (shape : RubyBodyShape)
    (visibility : RubyVisibility) (chain : Option (List Node)) (s : σ) : RubyFrameKind T × σ :=
  match kind with
  | .arguments call =>
    let (call, s) := consumer.argument node shape call visibility chain s
    (.arguments call, s)
  | .statements => (.statements, consumer.statement node shape visibility chain s)

/-- Hand over a call that is left, with the call it is an argument of. -/
def leave (call : RubyOpenCall T) (kind : RubyFrameKind T) (s : σ) : RubyFrameKind T × σ :=
  match kind with
  | .arguments outer =>
    let (outer', s) := consumer.leaveCall call (some outer) s
    (.arguments (outer'.getD outer), s)
  | .statements => (.statements, (consumer.leaveCall call none s).2)

end RubyBodyConsumer

/-! ### The walk -/

/-- One node the walk is reading the children of, and the children still to read. -/
structure RubyFrame (T : Type*) where
  node : Node
  children : List Node
  kind : RubyFrameKind T

structure RubyBodyState where
  chain : ChildAncestors
  visibility : RubyVisibility
  shadowed : Shadowed

namespace RubyBodyState

/-- A shadowed marker does nothing, and is one all the same. -/
def applyMarker (state : RubyBodyState) (node : Node) : Option RubyBodyState :=
  (rubyVisibilityMarker node).map fun marker =>
    if state.shadowed marker then state else { state with visibility := marker }

section Frames
variable {T : Type*} (default : T)

/-- A bare keyword call sets the flag; any other call with arguments is entered. -/
def openCall (state : RubyBodyState) (call : Node) (stack : List (RubyFrame T)) :
    RubyBodyState × List (RubyFrame T) :=
  let enter (keyword : Option RubyVisibilityCall) : RubyBodyState × List (RubyFrame T) :=
    match rubyCallArgumentList call with
    | some list =>
      ({ state with chain := (state.chain.descend call).descend list },
        ⟨call, list.children, .arguments ⟨keyword, default⟩⟩ :: stack)
    | none => (state, stack)
  match rubyVisibilityEffect call with
  | some (.flag flag) => ({ state with visibility := flag }, stack)
  | some (.arguments keyword) => enter (some keyword)
  | none => enter none

def openWrapper (state : RubyBodyState) (wrapper : Node) (stack : List (RubyFrame T)) :
    RubyBodyState × List (RubyFrame T) :=
  ({ state with chain := state.chain.descend wrapper },
    ⟨wrapper, wrapper.children, .statements⟩ :: stack)

end Frames

variable {T σ : Type*} (consumer : RubyBodyConsumer T σ)

/-- Read one child of the frame on top. -/
def read (state : RubyBodyState) (node : Node) (frame : RubyFrame T) (stack : List (RubyFrame T))
    (s : σ) : RubyBodyState × List (RubyFrame T) × σ :=
  match state.applyMarker node with
  | some state => (state, frame :: stack, s)
  | none =>
    let state := { state with shadowed := shadowStatementBindings state.shadowed node }
    let (kind, s) :=
      consumer.tell frame.kind node (shape node.kind) state.visibility state.chain.chain s
    let stack := { frame with kind } :: stack
    match shape node.kind with
    | .call =>
      let (state, stack) := state.openCall consumer.default node stack
      (state, stack, s)
    | .wrapper =>
      let (state, stack) := state.openWrapper node stack
      (state, stack, s)
    | .definition | .leaf => (state, stack, s)

/-- The children a frame reads. -/
def selects (body : Node) (frame : RubyFrame T) (child : Node) : Bool :=
  if frame.kind.isArguments || frame.node.id = body.id then child.isNamed
  else isStatementOf frame.node frame.node.kind child

/-- Leave a frame whose children are all read. -/
def closeFrame (state : RubyBodyState) (body : Node) (done : RubyFrame T)
    (stack : List (RubyFrame T)) (s : σ) : RubyBodyState × List (RubyFrame T) × σ :=
  match done.kind with
  | .arguments call =>
    let state := { state with chain := state.chain.ascend.ascend }
    match stack with
    | outer :: stack =>
      let (kind, s) := consumer.leave call outer.kind s
      (state, { outer with kind } :: stack, s)
    | [] => (state, [], (consumer.leaveCall call none s).2)
  | .statements =>
    (if done.node.id = body.id then state else { state with chain := state.chain.ascend },
      stack, s)

/-- Twice the nodes the frames still hold, and the frames. -/
def stackWeight (stack : List (RubyFrame T)) : ℕ :=
  (stack.map fun frame => 2 * Rose.forestSize frame.children + 1).sum

theorem stackWeight_cons (frame : RubyFrame T) (stack : List (RubyFrame T)) :
    stackWeight (frame :: stack) =
      2 * Rose.forestSize frame.children + 1 + stackWeight stack := by
  rw [stackWeight, List.map_cons, List.sum_cons]
  rfl

theorem stackWeight_closeFrame (state : RubyBodyState) (body : Node) (done : RubyFrame T)
    (stack : List (RubyFrame T)) (s : σ) :
    stackWeight (state.closeFrame consumer body done stack s).2.1 = stackWeight stack := by
  unfold closeFrame
  cases done.kind with
  | statements => rfl
  | arguments call =>
    cases stack with
    | nil => rfl
    | cons outer stack => rfl

theorem stackWeight_openCall (default : T) (state : RubyBodyState) (call : Node)
    (stack : List (RubyFrame T)) :
    stackWeight (state.openCall default call stack).2 < stackWeight stack + 2 * call.size := by
  have hcall := Rose.size_eq call
  have henter : ∀ list, rubyCallArgumentList call = some list →
      2 * Rose.forestSize list.children + 1 + stackWeight stack <
        stackWeight stack + 2 * call.size := by
    intro list hlist
    have hle := Rose.size_le_forestSize (List.mem_of_find?_eq_some hlist)
    have hsize := Rose.size_eq list
    omega
  unfold openCall
  cases hlist : rubyCallArgumentList call with
  | none =>
    cases rubyVisibilityEffect call with
    | none => dsimp only; omega
    | some effect => cases effect <;> dsimp only <;> omega
  | some list =>
    have hlist' := henter list hlist
    cases rubyVisibilityEffect call with
    | none => exact hlist'
    | some effect =>
      cases effect with
      | flag flag => dsimp only; omega
      | arguments keyword => exact hlist'

/-- What reading a child adds weighs less than the child did. -/
theorem stackWeight_read (state : RubyBodyState) (node : Node) (frame : RubyFrame T)
    (stack : List (RubyFrame T)) (s : σ) :
    stackWeight (state.read consumer node frame stack s).2.1 <
      stackWeight (frame :: stack) + 2 * node.size := by
  have hsize := Rose.size_eq node
  unfold read
  cases state.applyMarker node with
  | some state => dsimp only; omega
  | none =>
    dsimp only
    cases shape node.kind with
    | definition => simp only [stackWeight_cons]; omega
    | leaf => simp only [stackWeight_cons]; omega
    | call =>
      dsimp only
      apply lt_of_lt_of_le (stackWeight_openCall ..)
      simp only [stackWeight_cons]
      omega
    | wrapper =>
      simp only [openWrapper, stackWeight_cons]
      omega

/-- Pop the top frame, read its next child with the frame put back, or close it. -/
def loop (body : Node) (state : RubyBodyState) (stack : List (RubyFrame T)) (s : σ) :
    RubyBodyState × σ :=
  match stack with
  | [] => (state, s)
  | frame :: stack =>
    match _h : frame.children.dropWhile fun child => !selects body frame child with
    | [] =>
      let next := state.closeFrame consumer body frame stack s
      loop body next.1 next.2.1 next.2.2
    | child :: rest =>
      let next := state.read consumer child { frame with children := rest } stack s
      loop body next.1 next.2.1 next.2.2
termination_by stackWeight stack
decreasing_by
  · rw [stackWeight_closeFrame, stackWeight_cons]
    omega
  · have hread := stackWeight_read consumer state child { frame with children := rest } stack s
    have hle := Rose.forestSize_le_of_sublist (List.dropWhile_sublist
      (fun child => !selects body frame child) (l := frame.children))
    rw [_h, Rose.forestSize_cons] at hle
    rw [stackWeight_cons] at hread ⊢
    dsimp only at hread
    omega

theorem loop_nil (body : Node) (state : RubyBodyState) (s : σ) :
    loop consumer body state [] s = (state, s) := by
  rw [loop]

theorem loop_close {body : Node} {state : RubyBodyState} {frame : RubyFrame T}
    {stack : List (RubyFrame T)} {s : σ}
    (h : frame.children.dropWhile (fun child => !selects body frame child) = []) :
    loop consumer body state (frame :: stack) s =
      let next := state.closeFrame consumer body frame stack s
      loop consumer body next.1 next.2.1 next.2.2 := by
  rw [loop]
  split
  · rfl
  · next child rest hrest =>
    rw [h] at hrest
    cases hrest

theorem loop_read {body child : Node} {rest : List Node} {state : RubyBodyState}
    {frame : RubyFrame T} {stack : List (RubyFrame T)} {s : σ}
    (h : frame.children.dropWhile (fun child => !selects body frame child) = child :: rest) :
    loop consumer body state (frame :: stack) s =
      let next := state.read consumer child { frame with children := rest } stack s
      loop consumer body next.1 next.2.1 next.2.2 := by
  rw [loop]
  split
  · next hrest =>
    rw [h] at hrest
    cases hrest
  · next child' rest' hrest =>
    rw [h] at hrest
    cases hrest
    rfl

/-- Read every statement of `body`, whose children `chain` describes. -/
def walk (chain : Option (List Node)) (body : Node) (s : σ) : RubyBodyState × σ :=
  let state : RubyBodyState :=
    ⟨⟨chain, (chain.map List.length).getD 0⟩, .isPublic, fun _ => false⟩
  loop consumer body state [⟨body, body.children, .statements⟩] s

end RubyBodyState

end BigCodeAnalysis.Metrics.Ruby
