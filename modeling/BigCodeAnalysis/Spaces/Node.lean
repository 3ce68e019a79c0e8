import BigCodeAnalysis.Trees.Rose
import Mathlib.Data.Finset.Basic

/-! Syntax-tree nodes as the walks see them, and the questions a language answers
about a node. A predicate gets the node with its whole subtree and the ancestor
chain the walk descended through, root first. -/

namespace BigCodeAnalysis.Spaces

open Trees

/-- What the walks read of a node itself. -/
structure NodeInfo where
  id : ℕ
  kindId : ℕ
  startByte : ℕ
  startRow : ℕ
  endRow : ℕ
  endColumn : ℕ
  deriving DecidableEq, Repr

abbrev Node := Rose NodeInfo

/-- The ancestors of a node, root first. -/
abbrev Ancestors := List Node

namespace Node

def id (node : Node) : ℕ := node.label.id

def startByte (node : Node) : ℕ := node.label.startByte

def startRow (node : Node) : ℕ := node.label.startRow

/-- The 1-based last line the node occupies: the row it ends on counts only when it
ends past the first column. -/
def endLine (node : Node) : ℕ :=
  if node.label.endColumn = 0 then node.label.endRow else node.label.endRow + 1

end Node

inductive SpaceKind where
  | unknown | function | «class» | struct | trait | impl | unit | namespace | interface
  deriving DecidableEq, Repr

inductive Metric where
  | cognitive | cyclomatic | halstead | loc | nom | tokens | nargs | nexits | abc | npm | npa
  | mi | wmc
  deriving DecidableEq, Repr

/-! ### Suppression directives -/

/-- The metrics a directive silences. -/
inductive SuppressionScope where
  | all
  | some (metrics : Finset Metric)
  deriving DecidableEq

namespace SuppressionScope

/-- A new space suppresses nothing. -/
def default : SuppressionScope := .some ∅

def covers : SuppressionScope → Metric → Bool
  | .all, _ => true
  | .some s, metric => metric ∈ s

def merge : SuppressionScope → SuppressionScope → SuppressionScope
  | .all, _ => .all
  | .some _, .all => .all
  | .some a, .some b => .some (a ∪ b)

end SuppressionScope

inductive SuppressionKind where
  | function | file
  deriving DecidableEq, Repr

inductive SuppressionSource where
  | native | lizard
  deriving DecidableEq, Repr

structure Suppression where
  kind : SuppressionKind
  scope : SuppressionScope
  source : SuppressionSource
  deriving DecidableEq

/-! ### Test exclusion -/

/-- A prune verdict with its reach: it also answers for every node that starts before a
byte, and for one node named by its id. -/
structure SubtreeSkip where
  skipped : Bool
  coversThroughByte : Option ℕ
  coversNode : Option ℕ
  deriving DecidableEq, Repr

namespace SubtreeSkip

def retain : SubtreeSkip := ⟨false, none, none⟩

def skip : SubtreeSkip := ⟨true, none, none⟩

def answersFor (verdict : SubtreeSkip) (node : Node) : Bool :=
  verdict.coversNode = some node.id ||
    verdict.coversThroughByte.any fun through => node.startByte < through

end SubtreeSkip

/-! ### Languages -/

/-- The answers of one language's checker and getter on one source text. -/
structure Language where
  isComment : Node → Bool
  isFuncWithCode : Ancestors → Node → Bool
  promotesToFuncSpaceWithCode : Ancestors → Node → Bool
  isNonMemberFunction : Ancestors → Node → Bool
  shouldSkipSubtree : Ancestors → Node → SubtreeSkip
  getSpaceKindWithCode : Ancestors → Node → SpaceKind
  getFuncName : Ancestors → Node → Option String
  getFuncSpaceName : Ancestors → Node → Option String
  /-- The text of a node, when it is valid UTF-8. -/
  utf8Text : Node → Option String
  /-- The directive a comment's text carries. -/
  parseMarker : String → Option Suppression

namespace Language

variable (lang : Language)

/-- The directive a node carries, if it is a comment that holds one. -/
def suppressionOf (node : Node) : Option Suppression :=
  if lang.isComment node then (lang.utf8Text node).bind lang.parseMarker else none

/-- The prune question for one node: the last verdict answers where its reach extends,
otherwise the classifier is asked and its answer kept. -/
def prunesSubtree (ancestors : Ancestors) (node : Node) (runVerdict : SubtreeSkip) :
    Bool × SubtreeSkip :=
  let verdict :=
    if runVerdict.answersFor node then runVerdict else lang.shouldSkipSubtree ancestors node
  (verdict.skipped, verdict)

end Language

end BigCodeAnalysis.Spaces
