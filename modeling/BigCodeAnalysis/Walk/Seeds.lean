import BigCodeAnalysis.Walk.FileTree
import Mathlib.Order.Compare

/-! From the seeds to the files of a run. A directory seed beneath the working directory is
re-anchored to it, and globs are matched against forms of a path that are relative to some root.
A file seed is admitted as it is spelled, a directory seed is walked, and a path that is already
there is not admitted again. -/

namespace BigCodeAnalysis.Walk

open Baseline (Component normalizeComponents)

section

variable (process : Process)

/-- `relative_tail_via`: what remains of a path beneath a root, first as spelled and then with
links resolved. -/
def relativeTailVia (path root : Path) (canonicalRoot : Option Path) : Option Path :=
  (stripPrefix path root).or <|
    (canonicalRoot.bind (stripPrefix path)).or <|
      (process.canonicalize path).bind fun canonical =>
        (stripPrefix canonical root).or <|
          (canonicalRoot.or (process.canonicalize root)).bind (stripPrefix canonical)

def relativeTail (path root : Path) : Option Path := relativeTailVia process path root none

inductive SeedKind where
  | file
  | dir
  deriving DecidableEq, Repr

/-- What a seed names. Anything that is no file is walked. -/
def seedKind (seed : Path) : Option SeedKind :=
  ((process.locate seed).bind process.tree.kind).map fun
    | .file => .file
    | _ => .dir

def isDir (path : Path) : Bool :=
  (process.locate path).bind process.tree.kind = some .dir

def reanchorSeed (seed : Path) : Path :=
  if !isAbsolute seed then seed
  else if !isDir process seed then seed
  else
    match process.currentDir with
    | none => seed
    | some cwd =>
      match relativeTail process seed cwd with
      | some [] => [.curDir]
      | some rel => rel
      | none => seed

/-! ### Match forms -/

def fileSeedMatchPath (seed : Path) : Path :=
  if !isAbsolute seed then seed
  else
    match process.currentDir with
    | none => seed
    | some cwd =>
      match relativeTail process seed cwd with
      | some (c :: rel) => c :: rel
      | _ => seed

def stripCurDir (matchPath : Path) : Path := (stripPrefix matchPath [.curDir]).getD matchPath

def matchPathFor (seed path : Path) : Path :=
  match stripPrefix path seed with
  | some rel => join [.curDir] rel
  | none => path

/-- What the first seed that holds the path makes of it, after the walk. -/
def anchorAgainstSeeds (seeds : List Path) (path : Path) : Path :=
  (seeds.findSome? fun seed =>
    match stripPrefix path seed with
    | some (_ :: _) => some (matchPathFor seed path)
    | _ => none).getD (fileSeedMatchPath process path)

/-! ### The filters -/

/-- A compiled glob set. -/
structure GlobSet where
  isEmpty : Bool
  isMatch : Path → Bool

structure ManifestAnchor where
  root : Option Path
  cwd : Path
  canonicalRoot : Option Path

def rootRelativeMatchPath (anchor : ManifestAnchor) (path : Path) : Option Path :=
  let absolute := if !isAbsolute path then join anchor.cwd path else path
  (anchor.root.bind fun root =>
    relativeTailVia process (normalizeComponents absolute) root anchor.canonicalRoot).filter (· ≠ [])

def manifestMatchPath (anchor : ManifestAnchor) (path cwdForm : Path) : Path :=
  (rootRelativeMatchPath process anchor path).getD cwdForm

structure AnchoredExcludes where
  cli : GlobSet
  manifest : GlobSet
  anchor : ManifestAnchor

def AnchoredExcludes.excludes (sets : AnchoredExcludes) (path cwdForm : Path) : Bool :=
  (!sets.cli.isEmpty && sets.cli.isMatch cwdForm) ||
    (!sets.manifest.isEmpty &&
      sets.manifest.isMatch (manifestMatchPath process sets.anchor path cwdForm))

structure WalkFilters where
  include_ : GlobSet
  excludes : AnchoredExcludes

def WalkFilters.passes (filters : WalkFilters) (path matchPath : Path) : Bool :=
  let matchPath := stripCurDir matchPath
  (filters.include_.isEmpty || filters.include_.isMatch matchPath) &&
    !filters.excludes.excludes process path matchPath

def WalkFilters.includes (filters : WalkFilters) (matchPath : Path) : Bool :=
  let matchPath := stripCurDir matchPath
  filters.include_.isEmpty || filters.include_.isMatch matchPath

/-! ### Re-anchoring keeps the place -/

variable {process}

theorem stripPrefix_eq_some {path base rel : Path} :
    stripPrefix path base = some rel ↔ path = base ++ rel := by
  unfold stripPrefix
  split_ifs with h
  · obtain ⟨rest, rfl⟩ := h
    simp [eq_comm]
  · constructor
    · intro hnone
      cases hnone
    · rintro rfl
      exact absurd (List.prefix_append _ _) h

theorem stripPrefix_append (base rel : Path) : stripPrefix (base ++ rel) base = some rel :=
  stripPrefix_eq_some.mpr rfl

theorem locate_cwd : process.locate (absolute process.cwd) = some process.cwd := by
  have hfollow := FileTree.follow_absolute process.cwd_isSome process.cwd []
  rw [List.append_nil] at hfollow
  rw [Process.locate, if_neg (by simp [absolute]), hfollow]
  rfl

/-- What remains of a path beneath the working directory: as spelled, or name by name. -/
theorem relativeTail_cases {path rel : Path}
    (h : relativeTail process path (absolute process.cwd) = some rel) :
    path = absolute process.cwd ++ rel ∨
      ∃ names, rel = names.map .normal ∧ process.locate path = some (process.cwd ++ names) := by
  rw [relativeTail, relativeTailVia, Option.bind_none, Option.none_or, Option.none_or] at h
  rcases Option.or_eq_some_iff.mp h with hlexical | ⟨-, htail⟩
  · exact .inl (stripPrefix_eq_some.mp hlexical)
  · obtain ⟨canonical, hcanonical, hstrip⟩ := Option.bind_eq_some_iff.mp htail
    obtain ⟨place, hplace, rfl⟩ := Option.map_eq_some_iff.mp hcanonical
    rw [Process.canonicalize, locate_cwd, Option.map_some, Option.bind_some, Option.or_self] at hstrip
    have heq := (List.cons_eq_cons.mp (stripPrefix_eq_some.mp hstrip)).2
    obtain ⟨cwd, names, rfl, hcwd, rfl⟩ := List.map_eq_append_iff.mp heq
    have hinj : Function.Injective (List.map Component.normal) :=
      List.map_injective_iff.mpr fun _ _ hab => Component.normal.inj hab
    exact .inr ⟨names, rfl, hinj hcwd ▸ hplace⟩

/-- What remains of a path beneath the working directory leads from there to the same place. -/
theorem follow_relativeTail {path rel : Path} {place : List Name}
    (hplace : process.locate path = some place)
    (h : relativeTail process path (absolute process.cwd) = some rel) :
    process.tree.follow process.cwd rel = some place := by
  rcases relativeTail_cases h with rfl | ⟨names, rfl, hnames⟩
  · rwa [process.locate_append locate_cwd] at hplace
  · obtain rfl := Option.some.inj (hnames.symm.trans hplace)
    exact FileTree.follow_names (process.locate_isSome hplace)

theorem locate_reanchorSeed {seed : Path} {place : List Name}
    (h : process.locate seed = some place) :
    process.locate (reanchorSeed process seed) = some place := by
  unfold reanchorSeed
  split_ifs with habs hdir
  · exact h
  · exact h
  · cases hcwd : process.currentDir with
    | none => exact h
    | some cwd =>
      obtain rfl := process.currentDir_eq cwd hcwd
      dsimp only
      cases htail : relativeTail process seed (absolute process.cwd) with
      | none => exact h
      | some rel =>
        have hfollow := follow_relativeTail h htail
        cases rel with
        | nil =>
          dsimp only
          rw [Process.locate, if_neg (List.cons_ne_nil _ _), FileTree.follow_cons, FileTree.enter,
            if_pos process.cwd_dir, Option.bind_some]
          exact hfollow
        | cons c rel =>
          dsimp only
          rw [Process.locate, if_neg (List.cons_ne_nil _ _)]
          exact hfollow

end

section

open Baseline (PathBytes Component components)

/-! ### The order of paths -/

def componentRank : Component → ℕ
  | .rootDir => 0
  | .curDir => 1
  | .parentDir => 2
  | .normal _ => 3

def cmpBytes : List UInt8 → List UInt8 → Ordering
  | [], [] => .eq
  | [], _ => .lt
  | _, [] => .gt
  | a :: as, b :: bs => (cmp a.toNat b.toNat).then (cmpBytes as bs)

def cmpComponent : Component → Component → Ordering
  | .normal a, .normal b => cmpBytes a b
  | a, b => cmp (componentRank a) (componentRank b)

def cmpPath : Path → Path → Ordering
  | [], [] => .eq
  | [], _ => .lt
  | _, [] => .gt
  | a :: as, b :: bs => (cmpComponent a b).then (cmpPath as bs)

/-! ### One directory -/

/-- What the parallel walker hands to a visitor. -/
inductive WalkEntry where
  | error
  | entry (path : Path) (fileType : Option FileKind)

/-- The file an entry stands for. -/
def WalkEntry.filePath : WalkEntry → Option Path
  | .entry path (some .file) => some path
  | _ => none

variable (process : Process)

/-- The walker: beneath a seed that is no file it yields regular files, each at most once and
behind the seed as it is spelled. Which ones it leaves out is its own business. -/
structure DirWalker where
  entries : Path → List WalkEntry
  spec : ∀ seed place, process.locate seed = some place → process.tree.kind place ≠ some .file →
    ∃ rels : List (List Name), rels.Nodup ∧
      (∀ rel ∈ rels, process.tree.kind (place ++ rel) = some .file) ∧
      (entries seed).filterMap WalkEntry.filePath = rels.map fun rel => seed ++ rel.map .normal

variable (filters : WalkFilters)

/-- The path a visitor sends, if the entry is a file that passes. -/
def visitWalkEntry (seed : Path) : WalkEntry → Option Path
  | .error => none
  | .entry path fileType =>
    match fileType with
    | some .file => if filters.passes process path (matchPathFor seed path) then some path else none
    | _ => none

variable {process} (walker : DirWalker process)

def walkDirectorySeed (seed : Path) : List Path :=
  ((walker.entries seed).filterMap (visitWalkEntry process filters seed)).mergeSort
    fun a b => (cmpPath a b).isLE

/-! ### All seeds -/

structure SeedSet where
  files : List Path
  seen : List Path
  explicitFiles : List Path

namespace SeedSet

def empty : SeedSet := ⟨[], [], []⟩

def pushExplicit (found : SeedSet) (seed : Path) : SeedSet :=
  if seed ∈ found.seen then found
  else ⟨found.files ++ [seed], seed :: found.seen, seed :: found.explicitFiles⟩

def pushWalked (found : SeedSet) (path : Path) : SeedSet :=
  if path ∈ found.seen then found
  else { found with files := found.files ++ [path], seen := path :: found.seen }

end SeedSet

variable (process) in
def admitFileSeed (seed : Path) (found : SeedSet) : SeedSet :=
  if filters.includes (fileSeedMatchPath process seed) then found.pushExplicit seed else found

/-- One turn of the loop over the seeds. A seed that does not exist ends the program. -/
def expandSeed (found : SeedSet) (seed : Path) : Option SeedSet :=
  match seedKind process seed with
  | none => none
  | some .file => some (admitFileSeed process filters seed found)
  | some .dir => some ((walkDirectorySeed filters walker seed).foldl SeedSet.pushWalked found)

structure ResolvedFiles where
  files : List Path
  explicitFiles : List Path
  deriving DecidableEq

/-- The seeds as typed, with the working directory for none. -/
def typedSeeds (paths : List PathBytes) : List Path :=
  if paths = [] then [[.curDir]] else paths.map components

/-- `expand_seed_paths`, without its measurement of what ignore rules dropped. -/
def expandSeedPaths (paths : List PathBytes) : Option ResolvedFiles :=
  (((typedSeeds paths).map (reanchorSeed process)).foldlM (expandSeed filters walker) .empty).map
    fun found => ⟨found.files, found.explicitFiles⟩

end

end BigCodeAnalysis.Walk
