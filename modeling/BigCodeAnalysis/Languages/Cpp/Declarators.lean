import BigCodeAnalysis.Trees.Cursor

/-! The declarators of a C++ class member as the metrics read them: whether a declaration
declares a function, which the method metric asks, and how many data members it declares,
which the attribute metric asks. Member pointers that the grammar does not read are taken from
what its error recovery makes of them. Apart from the code stand the declarators as C++ reads
them, from the declared name outward, and the trees that mirror them. -/

namespace BigCodeAnalysis.Languages.Cpp

open Trees

/-- The kinds of node that are told apart. -/
inductive Kind where
  | comment | comma | colon | error
  | fieldDeclaration | declaration | functionDefinition | operatorCast
  | functionDeclarator | parenthesizedDeclarator | pointerDeclarator | referenceDeclarator
  | arrayDeclarator | initDeclarator | abstractFunctionDeclarator | pointerTypeDeclarator
  | fieldIdentifier | typeIdentifier | qualifiedIdentifier
  | bitfieldClause | argumentList | parameterDeclaration
  | pointerExpression | callExpression | assignmentExpression
  | other (id : ℕ)
  deriving DecidableEq, Repr

structure NodeData where
  kind : Kind
  named : Bool
  startByte : ℕ
  endByte : ℕ
  deriving DecidableEq, Repr

abbrev Node := FieldTree NodeData

namespace Node

variable (node : Node)

def kind : Kind := node.label.data.kind

def isNamed : Bool := node.label.data.named

def isError : Bool := node.kind = .error

def startByte : ℕ := node.label.data.startByte

def endByte : ℕ := node.label.data.endByte

end Node

/-! ### Member pointers -/

/-- An `ERROR` that holds a `:` first. -/
def cppIsRecoveredColon (node : Node) : Bool :=
  node.isError && node.children.head?.any fun first : Node => first.kind = .colon

def innermostWithin : ℕ → Node → Node
  | 0, qualified => qualified
  | fuel + 1, qualified =>
    match (qualified.childByFieldName "name").filter fun name : Node =>
        name.kind = .qualifiedIdentifier with
    | some name => innermostWithin fuel name
    | none => qualified

/-- The last of nested qualified names. -/
def cppInnermostQualified (qualified : Node) : Node := innermostWithin qualified.size qualified

/-- The `pointer_type_declarator` a qualified name ends in. -/
def cppMemberPointer (qualified : Node) : Option Node :=
  ((cppInnermostQualified qualified).childByFieldName "name").filter fun name : Node =>
    name.kind = .pointerTypeDeclarator

/-! ### Recovered member pointers -/

def cppRecoveredMemberPointerInBitfield (clause : Node) (afterColon : Bool) : Option Node :=
  (clause.children.find? fun child : Node => child.isNamed && !(child.kind = .comment)).bind
    fun payload : Node =>
      (if afterColon || cppIsRecoveredColon payload then
        if payload.isError then payload.children.find? Node.isNamed else some payload
      else none).bind fun expression : Node =>
        if expression.kind = .assignmentExpression then expression.childByFieldName "left"
        else some expression

structure RecoveredMemberPointers where
  data : ℕ
  declaresFunction : Bool
  deriving DecidableEq, Repr

/-- Whether the name of a qualified name was invented, or stands after an `ERROR`. -/
def recoveredName : Bool → List Node → Bool
  | _, [] => false
  | errorSeen, child :: rest =>
    let errorSeen := errorSeen || child.isError
    (child.kind = .typeIdentifier && (errorSeen || child.startByte = child.endByte)) ||
      recoveredName errorSeen rest

/-- The next sibling is told whether it comes after a recovered `:`. Comments are passed over. -/
def anyChild (answer : Node → Bool → Bool) : Bool → List Node → Bool
  | _, [] => false
  | afterColon, child :: rest =>
    if child.kind = .comment then anyChild answer afterColon rest
    else answer child afterColon || anyChild answer (cppIsRecoveredColon child) rest

section
variable (declaresFunction : Node → Bool)

def cppRecoveredBitfieldDeclaresFunction (clause : Node) (afterColon : Bool) : Bool :=
  match cppRecoveredMemberPointerInBitfield clause afterColon with
  | none => false
  | some expression =>
    if expression.kind = .qualifiedIdentifier then
      (cppMemberPointer expression).any declaresFunction
    else if expression.kind ≠ .pointerExpression then false
    else (expression.childByFieldName "argument").any fun argument : Node =>
      argument.kind = .callExpression

def functionUnderRecovered (child : Node) : Bool :=
  match child.kind with
  | .abstractFunctionDeclarator => true
  | .pointerDeclarator => declaresFunction child
  | _ => false

/-- Whether a parameter is a recovered member pointer, and if so whether a function is under
it. -/
def cppRecoveredMemberPointerParameter (parameter : Node) : Option Bool :=
  ((parameter.childByFieldName "type").filter fun type : Node =>
    type.kind = .qualifiedIdentifier).bind fun qualified : Node =>
      if recoveredName false (cppInnermostQualified qualified).children then
        some (parameter.children.any (functionUnderRecovered declaresFunction))
      else none

/-- The parameters that one level of a declarator lists. -/
def parametersOf (level : Node) : List Node :=
  ((level.childByFieldName "parameters").toList.flatMap fun list : Node => list.children).filter
    fun parameter : Node => parameter.kind = .parameterDeclaration

def recoveredWithin : ℕ → Option Node → RecoveredMemberPointers → RecoveredMemberPointers
  | 0, _, recovered => recovered
  | fuel + 1, declarator, recovered =>
    match declarator.filter fun level : Node => level.kind = .functionDeclarator with
    | none => recovered
    | some level =>
      recoveredWithin fuel (level.childByFieldName "declarator")
        (((parametersOf level).filterMap
          (cppRecoveredMemberPointerParameter declaresFunction)).foldl
            (fun recovered declares =>
              ⟨recovered.data + (!declares).toNat, recovered.declaresFunction || declares⟩)
            recovered)

/-- The member pointers in the parameter lists of nested function declarators. -/
def cppRecoveredMemberPointers (outer : Node) : RecoveredMemberPointers :=
  recoveredWithin declaresFunction (outer.size + 1) (some outer) ⟨0, false⟩

end

/-! ### Functions -/

section
variable (declaresFunction parenthesized : Node → Bool)

def childDeclaresFunction (child : Node) (afterColon : Bool) : Bool :=
  match child.kind with
  | .functionDeclarator =>
    match child.childByFieldName "declarator" with
    | none => true
    | some inner =>
      match Node.kind inner with
      | .parenthesizedDeclarator => parenthesized inner
      | .functionDeclarator =>
        let recovered := cppRecoveredMemberPointers declaresFunction child
        recovered.declaresFunction || recovered.data = 0
      | _ => true
  | .functionDefinition | .operatorCast => true
  | .pointerDeclarator | .referenceDeclarator | .declaration => declaresFunction child
  | .initDeclarator =>
    ((child.childByFieldName "value").any fun value : Node => value.kind = .argumentList) ||
      declaresFunction child
  | .qualifiedIdentifier => (cppMemberPointer child).any declaresFunction
  | .bitfieldClause => cppRecoveredBitfieldDeclaresFunction declaresFunction child afterColon
  | _ => false

def parenthesizedChild (child : Node) : Bool :=
  match child.kind with
  | .pointerDeclarator | .referenceDeclarator => declaresFunction child
  | .parenthesizedDeclarator => parenthesized child
  | .qualifiedIdentifier => (cppMemberPointer child).all declaresFunction
  | _ => true

end

mutual
def declaresWithin : ℕ → Node → Bool
  | 0, _ => false
  | depth + 1, node =>
    anyChild (childDeclaresFunction (declaresWithin depth) (parenthesizedWithin depth)) false
      node.children

def parenthesizedWithin : ℕ → Node → Bool
  | 0, _ => false
  | depth + 1, paren =>
    paren.children.all (parenthesizedChild (declaresWithin depth) (parenthesizedWithin depth))
end

/-- Whether a declaration declares a function. Each turn goes down at least one level. -/
def cppDeclaresFunction (node : Node) : Bool := declaresWithin node.size node

def cppParenthesizedDeclaresFunction (paren : Node) : Bool := parenthesizedWithin paren.size paren

def cppChildDeclaresFunction (child : Node) (afterColon : Bool) : Bool :=
  childDeclaresFunction cppDeclaresFunction cppParenthesizedDeclaresFunction child afterColon

/-! ### Data members -/

mutual
/-- The names one child of a declarator declares. -/
def cppDeclaratorNames : Node → ℕ
  | .node a cs =>
    match a.data.kind with
    | .fieldIdentifier => 1
    | .functionDeclarator | .parenthesizedDeclarator | .pointerDeclarator | .arrayDeclarator
    | .initDeclarator | .referenceDeclarator => namesOfChildren cs
    | .qualifiedIdentifier => (cppMemberPointer (.node a cs)).isSome.toNat
    | _ => 0

def namesOfChildren : List Node → ℕ
  | [] => 0
  | t :: ts => cppDeclaratorNames t + namesOfChildren ts
end

def cppCountFieldIdentifiers (node : Node) : ℕ := namesOfChildren node.children

/-- One of the comma-separated declarators of a declaration, as far as it is read. -/
structure DeclaratorSegment where
  declaresFunction : Bool
  names : ℕ
  afterColon : Bool
  deriving DecidableEq, Repr

namespace DeclaratorSegment

def default : DeclaratorSegment := ⟨false, 0, false⟩

def dataMembers (segment : DeclaratorSegment) : ℕ :=
  if segment.declaresFunction then 0 else segment.names

def read (segment : DeclaratorSegment) (child : Node) : DeclaratorSegment where
  declaresFunction := segment.declaresFunction ||
    cppChildDeclaresFunction child segment.afterColon
  names := segment.names + cppDeclaratorNames child
  afterColon := cppIsRecoveredColon child

end DeclaratorSegment

def dataMembersFrom (total : ℕ) (segment : DeclaratorSegment) : List Node → ℕ
  | [] => total + segment.dataMembers
  | child :: rest =>
    if child.kind = .comma then dataMembersFrom (total + segment.dataMembers) .default rest
    else if child.kind = .comment then dataMembersFrom total segment rest
    else dataMembersFrom total (segment.read child) rest

def cppFieldDataMembers (field : Node) : ℕ := dataMembersFrom 0 .default field.children

/-! ### Declarators as C++ reads them -/

/-- A type constructor a declarator puts around its name. -/
inductive Constructor where
  | pointer | reference | memberPointer | array | function
  deriving DecidableEq, Repr

/-- A declarator from the outside. Its name is a field's, or an operator's. -/
inductive Declarator where
  | name (field : Bool)
  | pointer (d : Declarator)
  | reference (d : Declarator)
  | memberPointer (d : Declarator)
  | array (d : Declarator)
  | parenthesized (d : Declarator)
  | function (d : Declarator)
  deriving DecidableEq, Repr

namespace Declarator

/-- The first constructor met going outward from the name. -/
def firstConstructor : Declarator → Option Constructor
  | .name _ => none
  | .parenthesized d => d.firstConstructor
  | .pointer d => d.firstConstructor.or (some .pointer)
  | .reference d => d.firstConstructor.or (some .reference)
  | .memberPointer d => d.firstConstructor.or (some .memberPointer)
  | .array d => d.firstConstructor.or (some .array)
  | .function d => d.firstConstructor.or (some .function)

def declaresFunction (d : Declarator) : Bool := d.firstConstructor = some .function

def namesField : Declarator → Bool
  | .name field => field
  | .parenthesized d | .pointer d | .reference d | .memberPointer d | .array d | .function d =>
    d.namesField

/-- A name found by the attribute metric: a field's, or whatever a member pointer holds. -/
def isCounted : Declarator → Bool
  | .name field => field
  | .memberPointer _ => true
  | .parenthesized d | .pointer d | .reference d | .array d | .function d => d.isCounted

mutual
/-- Going inward over pointers and references, no parenthesis and no array is met that is
around a function; a parameter list is. -/
def Plain : Declarator → Prop
  | .name _ => True
  | .pointer d | .reference d | .memberPointer d => d.Plain
  | .array d | .parenthesized d => d.declaresFunction = false
  | .function d => d.PlainUnder

/-- Right under a parameter list, in any parentheses: no array and no other parameter list is
met that is not around a function. -/
def PlainUnder : Declarator → Prop
  | .name _ => True
  | .parenthesized d => d.PlainInside
  | .pointer d => (Declarator.pointer d).declaresFunction = true
  | .reference d => (Declarator.reference d).declaresFunction = true
  | .memberPointer d => (Declarator.memberPointer d).declaresFunction = true
  | .array d => (Declarator.array d).declaresFunction = true
  | .function d => (Declarator.function d).declaresFunction = true

def PlainInside : Declarator → Prop
  | .name _ => True
  | .parenthesized d => d.PlainInside
  | .pointer d | .reference d | .memberPointer d => d.Plain
  | .array d => (Declarator.array d).declaresFunction = true
  | .function d => (Declarator.function d).declaresFunction = true
end

end Declarator

/-! ### Trees -/

/-- What a qualified name ends in. -/
inductive Qualifies : Node → Node → Prop where
  | last {node name : Node} (hname : node.childByFieldName "name" = some name)
      (hkind : name.kind ≠ .qualifiedIdentifier) : Qualifies node name
  | nested {node inner name : Node} (hinner : node.childByFieldName "name" = some inner)
      (hkind : inner.kind = .qualifiedIdentifier) (h : Qualifies inner name) : Qualifies node name

/-- The kinds that stand beside a declarator or inside it: specifiers, tokens, comments. -/
def Kind.isInert : Kind → Bool
  | .comment | .colon | .abstractFunctionDeclarator | .pointerTypeDeclarator | .typeIdentifier
  | .argumentList | .parameterDeclaration | .pointerExpression | .callExpression
  | .assignmentExpression | .other _ => true
  | _ => false

/-- What declares nothing: a node of such a kind, a plain qualified name, the width of a
bit-field. -/
inductive Inert (node : Node) : Prop where
  | kind (h : node.kind.isInert = true)
  | qualified (hkind : node.kind = .qualifiedIdentifier) {name : Node}
      (hname : Qualifies node name) (hplain : name.kind ≠ .pointerTypeDeclarator)
  | width (hkind : node.kind = .bitfieldClause)
      (hclean : ∀ child : Node, child ∈ node.children → child.kind ≠ .error)

/-- Parameters without an `ERROR` or an invented name. -/
def CleanParameters (node : Node) : Prop :=
  ∀ list : Node, node.childByFieldName "parameters" = some list → ∀ x : Node, x ∈ list.nodes →
    x.kind ≠ .error ∧ (x.kind = .typeIdentifier → x.startByte ≠ x.endByte)

/-- A node whose children are one of them and what declares nothing. -/
def Holds (node child : Node) : Prop :=
  ∃ us vs, node.children = us ++ child :: vs ∧ (∀ u ∈ us, Inert u) ∧ ∀ v ∈ vs, Inert v

/-- The trees of a declarator, outside of any member pointer or `inside` one, where a template
has a type's name. -/
inductive Mirrors : Bool → Node → Declarator → Prop where
  | field {inside : Bool} {node : Node} (hkind : node.kind = .fieldIdentifier) :
      Mirrors inside node (.name true)
  | typeName {node : Node} (hkind : node.kind = .typeIdentifier) : Mirrors true node (.name true)
  | operator {inside : Bool} {node : Node} {id : ℕ} (hkind : node.kind = .other id) :
      Mirrors inside node (.name false)
  | pointer {inside : Bool} {node child : Node} {d : Declarator}
      (hkind : node.kind = .pointerDeclarator) (hholds : Holds node child)
      (h : Mirrors inside child d) : Mirrors inside node (.pointer d)
  | reference {inside : Bool} {node child : Node} {d : Declarator}
      (hkind : node.kind = .referenceDeclarator) (hholds : Holds node child)
      (h : Mirrors inside child d) : Mirrors inside node (.reference d)
  | array {inside : Bool} {node child : Node} {d : Declarator}
      (hkind : node.kind = .arrayDeclarator) (hholds : Holds node child)
      (h : Mirrors inside child d) : Mirrors inside node (.array d)
  | parenthesized {inside : Bool} {node child : Node} {d : Declarator}
      (hkind : node.kind = .parenthesizedDeclarator) (hholds : Holds node child)
      (h : Mirrors inside child d) : Mirrors inside node (.parenthesized d)
  | function {inside : Bool} {node child : Node} {d : Declarator}
      (hkind : node.kind = .functionDeclarator) (hholds : Holds node child)
      (hfield : node.childByFieldName "declarator" = some child) (hclean : CleanParameters node)
      (h : Mirrors inside child d) : Mirrors inside node (.function d)
  | memberPointer {inside : Bool} {node pointer child : Node} {d : Declarator}
      (hkind : node.kind = .qualifiedIdentifier) (hname : Qualifies node pointer)
      (hpointer : pointer.kind = .pointerTypeDeclarator) (hholds : Holds pointer child)
      (h : Mirrors true child d) : Mirrors inside node (.memberPointer d)

/-- The children of a declaration: comma-separated declarators. -/
inductive Declares : List Node → List Declarator → Prop where
  | last {us vs : List Node} {child : Node} {d : Declarator} (hus : ∀ u ∈ us, Inert u)
      (hvs : ∀ v ∈ vs, Inert v) (h : Mirrors false child d) : Declares (us ++ child :: vs) [d]
  | more {us vs rest : List Node} {child comma : Node} {d : Declarator} {ds : List Declarator}
      (hus : ∀ u ∈ us, Inert u) (hvs : ∀ v ∈ vs, Inert v) (h : Mirrors false child d)
      (hcomma : comma.kind = .comma) (hrest : Declares rest ds) :
      Declares (us ++ child :: (vs ++ comma :: rest)) (d :: ds)

/-- A declaration of a class body: a field's, or a templated or a constructor's, which has one
declarator. An operator is a function. -/
structure MemberDeclaration where
  outer : Node
  node : Node
  declarators : List Declarator
  wraps : outer = node ∨ node.kind = .declaration ∧ Holds outer node
  mirrors : Declares node.children declarators
  single : node.kind ≠ .fieldDeclaration → ∃ d, declarators = [d]
  operators : node.kind = .fieldDeclaration → ∀ d ∈ declarators, d.namesField = false →
    d.declaresFunction = true

/-- The segments that the loop over a declaration's children has read at its commas and at its
end. -/
def segmentsFrom (segment : DeclaratorSegment) : List Node → List DeclaratorSegment
  | [] => [segment]
  | child :: rest =>
    if child.kind = .comma then segment :: segmentsFrom .default rest
    else if child.kind = .comment then segmentsFrom segment rest
    else segmentsFrom (segment.read child) rest

namespace MemberDeclaration

variable (member : MemberDeclaration)

/-- The declaration is a function to the method metric exactly if some declarator declares one,
and each declarator of a field that declares none is one data member to the attribute metric. -/
def CountsDeclarators : Prop :=
  cppDeclaresFunction member.outer = member.declarators.any Declarator.declaresFunction ∧
    (member.node.kind = .fieldDeclaration →
      (segmentsFrom .default member.node.children).map DeclaratorSegment.dataMembers =
          member.declarators.map (fun d => (!d.declaresFunction).toNat) ∧
        cppFieldDataMembers member.node =
          member.declarators.countP fun d => !d.declaresFunction)

end MemberDeclaration

end BigCodeAnalysis.Languages.Cpp
