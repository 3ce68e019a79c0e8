import BigCodeAnalysis.Catalog.Value
import BigCodeAnalysis.Spaces.Node

/-! The metric catalog: every offender id with its direction, its scope and its scale; the
families with the rows they are listed under, and the two spellings of a metric name. -/

namespace BigCodeAnalysis.Catalog

open Spaces

/-- The kind of space a metric gates. -/
inductive MetricScope where
  | file
  | function
  | container
  deriving DecidableEq, Repr

def MetricScope.admits : MetricScope → SpaceKind → Bool
  | .file, .unit => true
  | .function, .function => true
  | .container, .class | .container, .struct | .container, .trait | .container, .impl
  | .container, .namespace | .container, .interface => true
  | _, _ => false

/-- The arithmetic a metric's values allow. `unit` is one step of badness. -/
inductive Scale where
  | ratio
  | interval (min max : F64) (unit : ℚ)
  deriving DecidableEq, Repr

structure MetricInfo where
  id : String
  family : String
  direction : Direction
  scope : MetricScope
  scale : Scale
  deriving DecidableEq, Repr

def miVisualStudioUnit : ℚ := 10

def miOriginalUnit : ℚ := miVisualStudioUnit * 171 / 100

def miUnbounded : Scale := .interval (.infinite true) (.infinite false) miOriginalUnit

def miPercent : Scale := .interval (.finite 0) (.finite 100) miVisualStudioUnit

def metrics : List MetricInfo :=
  [ ⟨"cognitive", "cognitive", .higherIsWorse, .function, .ratio⟩,
    ⟨"cyclomatic", "cyclomatic", .higherIsWorse, .function, .ratio⟩,
    ⟨"cyclomatic.modified", "cyclomatic", .higherIsWorse, .function, .ratio⟩,
    ⟨"halstead.volume", "halstead", .higherIsWorse, .function, .ratio⟩,
    ⟨"halstead.difficulty", "halstead", .higherIsWorse, .function, .ratio⟩,
    ⟨"halstead.effort", "halstead", .higherIsWorse, .function, .ratio⟩,
    ⟨"halstead.time", "halstead", .higherIsWorse, .function, .ratio⟩,
    ⟨"halstead.bugs", "halstead", .higherIsWorse, .function, .ratio⟩,
    ⟨"loc.sloc", "loc", .higherIsWorse, .file, .ratio⟩,
    ⟨"loc.ploc", "loc", .higherIsWorse, .file, .ratio⟩,
    ⟨"loc.lloc", "loc", .higherIsWorse, .file, .ratio⟩,
    ⟨"loc.cloc", "loc", .higherIsWorse, .file, .ratio⟩,
    ⟨"loc.blank", "loc", .higherIsWorse, .file, .ratio⟩,
    ⟨"loc.dloc", "loc", .higherIsWorse, .file, .ratio⟩,
    ⟨"nom", "nom", .higherIsWorse, .container, .ratio⟩,
    ⟨"tokens", "tokens", .higherIsWorse, .function, .ratio⟩,
    ⟨"nexits", "nexits", .higherIsWorse, .function, .ratio⟩,
    ⟨"nargs", "nargs", .higherIsWorse, .function, .ratio⟩,
    ⟨"mi.original", "mi", .lowerIsWorse, .function, miUnbounded⟩,
    ⟨"mi.sei", "mi", .lowerIsWorse, .function, miUnbounded⟩,
    ⟨"mi.visual_studio", "mi", .lowerIsWorse, .function, miPercent⟩,
    ⟨"abc", "abc", .higherIsWorse, .function, .ratio⟩,
    ⟨"wmc", "wmc", .higherIsWorse, .container, .ratio⟩,
    ⟨"npm", "npm", .higherIsWorse, .container, .ratio⟩,
    ⟨"npa", "npa", .higherIsWorse, .container, .ratio⟩ ]

def lookup (id : String) : Option MetricInfo := metrics.find? fun m => m.id = id

def MetricInfo.cmpWorse (info : MetricInfo) (a b : F64) : Ordering :=
  Catalog.cmpWorse info.direction a b

/-! ### Families and rows -/

structure MetricFamily where
  name : String
  rows : List String
  deriving DecidableEq, Repr

def families : List MetricFamily :=
  [ ⟨"cognitive", ["cognitive"]⟩,
    ⟨"cyclomatic", ["cyclomatic"]⟩,
    ⟨"halstead", ["halstead"]⟩,
    ⟨"loc", ["sloc", "ploc", "lloc", "cloc", "blank", "dloc"]⟩,
    ⟨"nom", ["nom"]⟩,
    ⟨"tokens", ["tokens"]⟩,
    ⟨"nexits", ["nexits"]⟩,
    ⟨"nargs", ["nargs"]⟩,
    ⟨"mi", ["mi"]⟩,
    ⟨"abc", ["abc"]⟩,
    ⟨"wmc", ["wmc"]⟩,
    ⟨"npm", ["npm"]⟩,
    ⟨"npa", ["npa"]⟩ ]

/-- The rows of a family that is listed under other names than its own. -/
def expandedRows (family : MetricFamily) : Option (List String) :=
  if family.rows.any fun row => row ≠ family.name then some family.rows else none

/-- `str::strip_prefix`. -/
def stripName (name leaf : String) : Option (List Char) :=
  if name.toList <+: leaf.toList then some (leaf.toList.drop name.toList.length) else none

/-- A leaf names a row when it is the row's name, alone or with a suffix. -/
def namesRow (leaf row : String) : Bool :=
  match stripName row leaf with
  | some [] => true
  | some (c :: _) => c = '_' ∨ c = '.'
  | none => false

/-- `Iterator::max_by_key` of the length: the last of the longest. -/
def longest : List String → Option String
  | [] => none
  | row :: rows =>
    some (rows.foldl (fun best row => if best.utf8ByteSize ≤ row.utf8ByteSize then row else best) row)

/-- The bucket of a leaf below a family. -/
def diffBucket (family : MetricFamily) (leaf : String) : String :=
  ((expandedRows family).bind fun rows => longest (rows.filter (namesRow leaf))).getD family.name

/-- The last segment of a dotted id. -/
def leafOf (id : String) : String := String.ofList (id.toList.reverse.takeWhile (· ≠ '.')).reverse

/-- The bucket a dotted id or a bucket name means. -/
def normalizeForDiff (name : String) : String :=
  match lookup name with
  | none => name
  | some info =>
    match families.find? fun family => family.name = info.family with
    | none => info.family
    | some family => diffBucket family (leafOf info.id)

example : ["loc.sloc", "halstead.volume", "sloc", "cyclomatic.modified"].map normalizeForDiff =
    ["sloc", "halstead", "sloc", "cyclomatic"] := by decide +kernel

theorem longest_mem {rows : List String} {row : String} (h : longest rows = some row) :
    row ∈ rows := by
  cases rows with
  | nil => cases h
  | cons first rest =>
    obtain rfl := Option.some.inj h
    have hmem : ∀ (rest : List String) (best : String),
        rest.foldl (fun best row => if best.utf8ByteSize ≤ row.utf8ByteSize then row else best)
          best ∈ best :: rest := by
      intro rest
      induction rest with
      | nil => intro best; exact List.mem_cons_self ..
      | cons row rest ih =>
        intro best
        rw [List.foldl_cons]
        rcases List.mem_cons.mp (ih (if best.utf8ByteSize ≤ row.utf8ByteSize then row else best))
          with h | h
        · rw [h]
          split_ifs
          · exact List.mem_cons_of_mem _ (List.mem_cons_self ..)
          · exact List.mem_cons_self ..
        · exact List.mem_cons_of_mem _ (List.mem_cons_of_mem _ h)
    exact hmem rest first

/-- The bucket of a leaf is a row of its family, or the family. -/
theorem diffBucket_mem (family : MetricFamily) (leaf : String) :
    diffBucket family leaf = family.name ∨
      ∃ rows, expandedRows family = some rows ∧ diffBucket family leaf ∈ rows := by
  unfold diffBucket
  rcases expandedRows family with _ | rows
  · exact .inl rfl
  · rcases h : longest (rows.filter (namesRow leaf)) with _ | row
    · left
      simp [h]
    · right
      refine ⟨rows, rfl, ?_⟩
      simpa [h] using List.mem_of_mem_filter (longest_mem h)

end BigCodeAnalysis.Catalog
