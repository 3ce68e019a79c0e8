import BigCodeAnalysis.Metrics.Halstead
import BigCodeAnalysis.Spaces.Node

/-! Function spaces, the frames of the metrics walk, and what a metric suite does to
them. Halstead counts are spelled out because both walks of the repository compute
them; the other metrics of a space are one value of a type of their own. -/

namespace BigCodeAnalysis.Spaces

open Metrics.Halstead (HalsteadMaps)

/-- The 1-based line span of a space. The file-level unit starts at line 1 by
definition, and an empty file keeps `0..0`. -/
def lineSpan (node : Node) (kind : SpaceKind) : ℕ × ℕ :=
  if kind = .unit then
    if node.endLine = 0 then (0, 0) else (1, node.endLine)
  else (node.startRow + 1, node.endLine)

/-! ### Names -/

/-- The Unicode `White_Space` property. -/
def isWhitespace (c : Char) : Bool :=
  let n := c.toNat
  (9 ≤ n && n ≤ 13) || n = 0x20 || n = 0x85 || n = 0xA0 || n = 0x1680 ||
    (0x2000 ≤ n && n ≤ 0x200A) || n = 0x2028 || n = 0x2029 || n = 0x202F || n = 0x205F ||
    n = 0x3000

/-- `str::split_whitespace`, with the word being read in reverse. -/
def splitWhitespaceAux : List Char → List Char → List (List Char)
  | word, [] => if word = [] then [] else [word.reverse]
  | word, c :: cs =>
    if isWhitespace c then
      if word = [] then splitWhitespaceAux [] cs
      else word.reverse :: splitWhitespaceAux [] cs
    else splitWhitespaceAux (c :: word) cs

def splitWhitespace (s : List Char) : List (List Char) := splitWhitespaceAux [] s

/-- `name.split_whitespace().collect::<Vec<_>>().join(" ")`. -/
def normalizeName (name : String) : String :=
  String.ofList ((splitWhitespace name.toList).intersperse [' ']).flatten

/-! ### Spaces and frames -/

/-- The metrics of a space. -/
structure CodeMetrics (R : Type*) where
  halstead : Metrics.Halstead.Stats
  rest : R

structure FuncSpace (R : Type*) where
  name : Option String
  startLine : ℕ
  endLine : ℕ
  kind : SpaceKind
  spaces : List (FuncSpace R)
  metrics : CodeMetrics R
  suppressed : SuppressionScope

/-- A space without its metrics. -/
structure SpaceLabel where
  name : Option String
  kind : SpaceKind
  startLine : ℕ
  endLine : ℕ
  deriving DecidableEq, Repr

namespace FuncSpace

variable {R : Type*}

def label (space : FuncSpace R) : SpaceLabel :=
  ⟨space.name, space.kind, space.startLine, space.endLine⟩

mutual
/-- The tree of a space and the spaces in it. -/
def tree : FuncSpace R → Trees.Rose SpaceLabel
  | ⟨name, startLine, endLine, kind, spaces, _, _⟩ =>
    .node ⟨name, kind, startLine, endLine⟩ (trees spaces)

def trees : List (FuncSpace R) → List (Trees.Rose SpaceLabel)
  | [] => []
  | space :: spaces => space.tree :: trees spaces
end

theorem tree_eq (space : FuncSpace R) : space.tree = .node space.label (trees space.spaces) := by
  cases space; simp only [tree, label]

theorem trees_append (xs ys : List (FuncSpace R)) : trees (xs ++ ys) = trees xs ++ trees ys := by
  induction xs with
  | nil => simp [trees]
  | cons x xs ih => simp [trees, ih]

end FuncSpace

/-- An open space on the walk's stack. -/
structure State (R : Type*) where
  space : FuncSpace R
  halsteadMaps : HalsteadMaps

structure Nesting where
  conditional : ℕ
  functionDepth : ℕ
  lambda : ℕ
  deriving DecidableEq, Repr

/-- The cognitive nesting of the nodes that are seeded and not yet visited, by node id. -/
abbrev NestingMap := ℕ → Option Nesting

/-- What the walk knows about the node it visits: whether it opens a space, and whether
it or an ancestor is a comment. -/
structure NodeFacts where
  funcSpace : Bool
  inComment : Bool
  deriving DecidableEq, Repr

structure MetricsOptions where
  selected : Finset Metric
  excludeTests : Bool

/-- The per-space work of the selected metrics. -/
structure MetricSuite (R : Type*) where
  /-- The metrics of a space that has seen nothing. -/
  withSelected : R
  halsteadDefault : Metrics.Halstead.Stats
  markNonMember : R → R
  halsteadCompute : Ancestors → Node → HalsteadMaps → HalsteadMaps
  /-- Cognitive's `compute`, which alone reads and writes the nesting map. -/
  computeCognitive : Ancestors → Node → R × NestingMap → R × NestingMap
  /-- The `compute` of every metric but cognitive and Halstead. -/
  computeRest : Ancestors → Node → NodeFacts → R → R
  excludeTestSpan : ℕ → ℕ → R → R
  /-- The finalisation passes before Halstead: unit span, clamp, excluded rows, extrema
  and sums. -/
  settle : SpaceKind → ℕ × ℕ → R → R
  /-- The passes from Halstead on: maintainability, WMC, member scope, averages. -/
  derive : SpaceKind → Metrics.Halstead.Stats → R → R
  computeWmc : SpaceKind → R → R
  merge : R → R → R

end BigCodeAnalysis.Spaces
