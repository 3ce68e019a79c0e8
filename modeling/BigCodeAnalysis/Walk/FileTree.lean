import BigCodeAnalysis.Baseline.PathKey
import Mathlib.Data.List.Induction

/-! A file system without symbolic links. A path leads from the working directory, or from the
root, to a place, name by name. -/

namespace BigCodeAnalysis.Walk

open Baseline (PathBytes Component)

abbrev Name := PathBytes

/-- A path up to the equality of `PathBuf`, which sees components only. -/
abbrev Path := List Component

def isAbsolute (path : Path) : Bool := path.head? = some .rootDir

/-- `Path::strip_prefix`. -/
def stripPrefix (path base : Path) : Option Path :=
  if base <+: path then some (path.drop base.length) else none

/-- `Path::join`. A dot at the start of the second path is no component of the joined one. -/
def join (base path : Path) : Path :=
  if isAbsolute path ∨ base = [] then path else base ++ path.dropWhile (· = .curDir)

inductive FileKind where
  | file
  | dir
  | other
  deriving DecidableEq, Repr

/-- What is at a place, which is given by the names from the root. -/
structure FileTree where
  kind : List Name → Option FileKind
  root : kind [] = some .dir
  parent : ∀ place name, (kind (place ++ [name])).isSome → kind place = some .dir

/-- The path of a place. -/
def absolute (place : List Name) : Path := .rootDir :: place.map .normal

/-- A tree, the working directory, and what `current_dir` answers. -/
structure Process where
  tree : FileTree
  cwd : List Name
  currentDir : Option Path
  cwd_dir : tree.kind cwd = some .dir
  currentDir_eq : ∀ path, currentDir = some path → path = absolute cwd

namespace FileTree
variable (tree : FileTree)

/-- Follow one component from a place. -/
def enter (place : List Name) : Component → Option (List Name)
  | .rootDir => some []
  | .curDir => if tree.kind place = some .dir then some place else none
  | .parentDir => if tree.kind place = some .dir then some place.dropLast else none
  | .normal name => if (tree.kind (place ++ [name])).isSome then some (place ++ [name]) else none

def follow (place : List Name) (path : Path) : Option (List Name) := path.foldlM tree.enter place

variable {tree}

theorem follow_append (place : List Name) (p q : Path) :
    tree.follow place (p ++ q) = (tree.follow place p).bind fun middle => tree.follow middle q :=
  List.foldlM_append ..

theorem follow_cons (place : List Name) (c : Component) (p : Path) :
    tree.follow place (c :: p) = (tree.enter place c).bind fun next => tree.follow next p :=
  List.foldlM_cons ..

theorem kind_of_append {place names : List Name} (h : (tree.kind (place ++ names)).isSome) :
    (tree.kind place).isSome := by
  induction names using List.reverseRecOn with
  | nil => rwa [List.append_nil] at h
  | append_singleton names name ih =>
    rw [← List.append_assoc] at h
    have hdir := tree.parent _ _ h
    apply ih
    rw [hdir]
    rfl

/-- Names lead to the place they name. -/
theorem follow_names {place names : List Name} (h : (tree.kind (place ++ names)).isSome) :
    tree.follow place (names.map .normal) = some (place ++ names) := by
  induction names generalizing place with
  | nil => rw [List.append_nil]; rfl
  | cons name names ih =>
    rw [List.append_cons] at h
    have hnext := kind_of_append h
    rw [List.map_cons, follow_cons, enter, if_pos hnext, Option.bind_some, ih h,
      ← List.append_cons]

theorem eq_of_follow_names {place names last : List Name}
    (h : tree.follow place (names.map .normal) = some last) : last = place ++ names := by
  induction names generalizing place with
  | nil => exact (Option.some.inj h).symm.trans (List.append_nil _).symm
  | cons name names ih =>
    rw [List.map_cons, follow_cons] at h
    obtain ⟨next, hnext, hrest⟩ := Option.bind_eq_some_iff.mp h
    have heq : place ++ [name] = next := by
      unfold enter at hnext
      dsimp only at hnext
      split_ifs at hnext
      exact Option.some.inj hnext
    rw [ih hrest, ← heq, ← List.append_cons]

theorem enter_isSome {place next : List Name} {c : Component} (h : (tree.kind place).isSome)
    (hnext : tree.enter place c = some next) : (tree.kind next).isSome := by
  cases c with
  | rootDir =>
    cases hnext
    rw [tree.root]
    rfl
  | curDir =>
    unfold enter at hnext
    split_ifs at hnext
    cases hnext
    exact h
  | parentDir =>
    unfold enter at hnext
    split_ifs at hnext with hdir
    cases hnext
    induction place using List.reverseRecOn with
    | nil => exact h
    | append_singleton place name _ =>
      rw [List.dropLast_concat, tree.parent place name h]
      rfl
  | normal name =>
    unfold enter at hnext
    dsimp only at hnext
    split_ifs at hnext with hkind
    exact Option.some.inj hnext ▸ hkind

/-- A path that can be followed ends somewhere. -/
theorem follow_isSome {place last : List Name} {path : Path} (h : (tree.kind place).isSome)
    (hlast : tree.follow place path = some last) : (tree.kind last).isSome := by
  induction path generalizing place with
  | nil =>
    cases hlast
    exact h
  | cons c path ih =>
    rw [follow_cons] at hlast
    obtain ⟨next, hnext, hrest⟩ := Option.bind_eq_some_iff.mp hlast
    exact ih (enter_isSome h hnext) hrest

theorem follow_absolute {place : List Name} (h : (tree.kind place).isSome) (start : List Name)
    (rest : Path) : tree.follow start (absolute place ++ rest) = tree.follow place rest := by
  rw [absolute, List.cons_append, follow_cons, enter, Option.bind_some, follow_append,
    follow_names (by rwa [List.nil_append]), List.nil_append, Option.bind_some]

end FileTree

namespace Process
variable (process : Process)

/-- Where a path leads. The empty path leads nowhere. -/
def locate (path : Path) : Option (List Name) :=
  if path = [] then none else process.tree.follow process.cwd path

/-- `fs::canonicalize`. -/
def canonicalize (path : Path) : Option Path := (process.locate path).map absolute

variable {process}

theorem cwd_isSome : (process.tree.kind process.cwd).isSome := by
  rw [process.cwd_dir]
  rfl

theorem locate_isSome {path : Path} {place : List Name} (h : process.locate path = some place) :
    (process.tree.kind place).isSome := by
  unfold locate at h
  split_ifs at h
  exact FileTree.follow_isSome cwd_isSome h

theorem ne_nil_of_locate {path : Path} {place : List Name} (h : process.locate path = some place) :
    path ≠ [] := by
  rintro rfl
  cases h

theorem locate_append {path : Path} {place : List Name} (h : process.locate path = some place)
    (rest : Path) : process.locate (path ++ rest) = process.tree.follow place rest := by
  have hne := ne_nil_of_locate h
  unfold locate at h ⊢
  rw [if_neg hne] at h
  rw [if_neg (List.append_ne_nil_of_left_ne_nil hne _), FileTree.follow_append, h, Option.bind_some]

/-- The names behind a path lead on from its place. -/
theorem locate_append_names {path : Path} {place names : List Name}
    (h : process.locate path = some place)
    (hnames : (process.tree.kind (place ++ names)).isSome) :
    process.locate (path ++ names.map .normal) = some (place ++ names) := by
  rw [locate_append h, FileTree.follow_names hnames]

end Process

end BigCodeAnalysis.Walk
