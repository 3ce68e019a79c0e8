import BigCodeAnalysis.Baseline.PathKey
import BigCodeAnalysis.Numbers.Binary64
import BigCodeAnalysis.Sequences.Ranking
import Mathlib.Algebra.GroupWithZero.Nat
import Mathlib.Algebra.Order.Ring.Rat
import Mathlib.Data.List.Dedup
import Mathlib.Data.List.Sort
import Mathlib.Data.Rat.Defs
import Mathlib.Data.String.Basic

/-! The bus factor of a set of files: how many developers, the one with the most files first,
have to leave until more than a share of the files is without an owner. A file is owned by those
whose degree of authorship comes near the highest one. Degrees, ratios and the share are numbers
of double precision, so every operation on them is rounded. -/

namespace BigCodeAnalysis.Vcs

open Sequences Baseline Numbers

structure AuthorId where
  key : String
  isDigest : Bool
  deriving DecidableEq, Repr

structure AuthorContribution where
  author : AuthorId
  deliveries : ℕ
  firstAuthorship : Bool
  deriving DecidableEq, Repr

structure FileAuthorship where
  path : PathBytes
  contributions : List AuthorContribution
  deriving DecidableEq, Repr

structure GroupBusFactor where
  busFactor : ℕ
  files : ℕ
  authors : ℕ
  keyAuthorIds : Option (List String)
  deriving DecidableEq, Repr

structure DirectoryBusFactor where
  directory : String
  group : GroupBusFactor
  deriving DecidableEq, Repr

structure BusFactor where
  busFactorSchemaVersion : ℕ
  coverageThreshold : ℚ
  doaThreshold : ℚ
  repo : GroupBusFactor
  byDirectory : List DirectoryBusFactor
  deriving DecidableEq, Repr

def busFactorSchemaVersion : ℕ := 2

def doaNormalizedThreshold : ℚ := 3 / 4

def defaultCoverageThreshold : ℚ := 1 / 2

def doaIntercept : ℚ := binary64 (3293 / 1000)

def doaFaWeight : ℚ := binary64 (1098 / 1000)

def doaDlWeight : ℚ := binary64 (164 / 1000)

def doaAcWeight : ℚ := binary64 (321 / 1000)

def u32Max : ℕ := 2 ^ 32 - 1

def saturatingAdd (a b : ℕ) : ℕ := min (a + b) u32Max

/-! ### Owners of a file -/

section Owners

-- the digest and the logarithm of double precision are library functions
variable (sha256Hex : String → String) (ln : ℚ → ℚ)

def AuthorId.hashed (a : AuthorId) : String := if a.isDigest then a.key else sha256Hex a.key

def doa (c : AuthorContribution) (acceptedChanges : ℕ) : ℚ :=
  let authored := binary64 (doaIntercept +
    binary64 (doaFaWeight * (if c.firstAuthorship then 1 else 0)))
  let delivered := binary64 (authored + binary64 (doaDlWeight * c.deliveries))
  binary64 (delivered - binary64 (doaAcWeight * ln (binary64 (1 + acceptedChanges))))

/-- `f64::MIN`, where the search for the maximum starts. -/
def f64Min : ℚ := -(2 ^ 1024 - 2 ^ 971)

def totalDeliveries (contributions : List AuthorContribution) : ℕ :=
  (contributions.map (·.deliveries)).foldl saturatingAdd 0

/-- Every contribution with its degree of authorship. -/
def scored (contributions : List AuthorContribution) : List (ℚ × AuthorId) :=
  contributions.map fun c =>
    (doa ln c (totalDeliveries contributions - c.deliveries), c.author)

def maxDoa (contributions : List AuthorContribution) : ℚ :=
  ((scored ln contributions).map Prod.fst).foldl max f64Min

/-- Highest degree first, then the smaller digest. -/
def cmpScored (a b : ℚ × AuthorId) : Ordering :=
  (cmp b.1 a.1).then (cmp (a.2.hashed sha256Hex) (b.2.hashed sha256Hex))

def authorsOfFile (file : FileAuthorship) : List AuthorId :=
  if maxDoa ln file.contributions ≤ 0 then
    ((minBy (cmpScored sha256Hex) (scored ln file.contributions)).map fun e => [e.2]).getD []
  else
    ((scored ln file.contributions).filter fun e =>
      doaNormalizedThreshold ≤ binary64 (e.1 / maxDoa ln file.contributions)).map Prod.snd

end Owners

/-! ### The working set of a group -/

structure GroupAuthor where
  hashed : String
  authoredFiles : List ℕ
  deriving DecidableEq, Repr

/-- The developers of a group in the order they were met, and the owners left to every file. -/
structure Registry where
  authorIndex : AuthorId → Option ℕ
  authors : List GroupAuthor
  remainingAuthors : List ℕ

/-- One owner of one file. -/
def register (sha256Hex : String → String) (s : Registry) (fileIdx : ℕ) (author : AuthorId) :
    Registry :=
  let known : Registry × ℕ :=
    match s.authorIndex author with
    | some idx => (s, idx)
    | none =>
      ({ s with
          authorIndex := Function.update s.authorIndex author (some s.authors.length)
          authors := s.authors ++ [⟨author.hashed sha256Hex, []⟩] },
        s.authors.length)
  { known.1 with
    authors := known.1.authors.modify known.2 fun a =>
      { a with authoredFiles := a.authoredFiles ++ [fileIdx] }
    remainingAuthors := known.1.remainingAuthors.modify fileIdx (· + 1) }

def registry (sha256Hex : String → String) (files : List (List AuthorId)) : Registry :=
  files.zipIdx.foldl
    (fun s file => file.1.foldl (fun s author => register sha256Hex s file.2 author) s)
    ⟨fun _ => none, [], List.replicate files.length 0⟩

/-! ### Removal -/

/-- The files of a developer that still have an owner. -/
def coveredBy (author : GroupAuthor) (remainingAuthors : List ℕ) : ℕ :=
  (author.authoredFiles.filter fun f => 0 < remainingAuthors.getD f 0).length

def hashedAt (authors : List GroupAuthor) (idx : ℕ) : String :=
  (authors[idx]?.map (·.hashed)).getD ""

/-- One turn of the search for the top author. -/
def pickStep (authors : List GroupAuthor) (removedSet : List Bool) (remainingAuthors : List ℕ)
    (best : Option (ℕ × ℕ)) (author : GroupAuthor × ℕ) : Option (ℕ × ℕ) :=
  if removedSet.getD author.2 false then best
  else
    let covered := coveredBy author.1 remainingAuthors
    if covered = 0 then best
    else
      match best with
      | none => some (covered, author.2)
      | some (bestCovered, bestIdx) =>
        if bestCovered < covered ∨
            covered = bestCovered ∧ hashedAt authors author.2 < hashedAt authors bestIdx then
          some (covered, author.2)
        else best

def pickTopAuthor (authors : List GroupAuthor) (removedSet : List Bool)
    (remainingAuthors : List ℕ) : Option ℕ :=
  (authors.zipIdx.foldl (pickStep authors removedSet remainingAuthors) none).map Prod.snd

structure Removal where
  orphaned : ℕ
  removed : ℕ
  removedSet : List Bool
  keyAuthors : Option (List String)
  remainingAuthors : List ℕ
  deriving DecidableEq, Repr

/-- One file of a developer who leaves. -/
def orphanFile (s : ℕ × List ℕ) (fileIdx : ℕ) : ℕ × List ℕ :=
  match s.2[fileIdx]? with
  | some (count + 1) =>
    (if count = 0 then s.1 + 1 else s.1, s.2.set fileIdx count)
  | _ => s

/-- The body of the loop once a developer has been picked. -/
def removeAuthor (authors : List GroupAuthor) (digest : String → String) (s : Removal)
    (pick : ℕ) : Removal :=
  let files := ((authors[pick]?.map (·.authoredFiles)).getD []).foldl orphanFile
    (s.orphaned, s.remainingAuthors)
  { orphaned := files.1
    removed := saturatingAdd s.removed 1
    removedSet := s.removedSet.set pick true
    keyAuthors := s.keyAuthors.map (· ++ [digest (hashedAt authors pick)])
    remainingAuthors := files.2 }

/-- The loop; it is entered with a turn for every developer. -/
def removalLoop (authors : List GroupAuthor) (digest : String → String) (target : ℚ) :
    ℕ → Removal → Removal
  | 0, s => s
  | turns + 1, s =>
    if binary64 s.orphaned ≤ target then
      match pickTopAuthor authors s.removedSet s.remainingAuthors with
      | none => s
      | some pick => removalLoop authors digest target turns (removeAuthor authors digest s pick)
    else s

/-- How many files may be orphaned before the loop ends. -/
def removalTarget (coverage : ℚ) (totalFiles : ℕ) : ℚ := binary64 (coverage * binary64 totalFiles)

def greedyTruckFactor (authors : List GroupAuthor) (remainingAuthors : List ℕ) (coverage : ℚ)
    (emit : Bool) (digest : String → String) : Removal :=
  removalLoop authors digest (removalTarget coverage remainingAuthors.length) authors.length
    { orphaned := 0
      removed := 0
      removedSet := List.replicate authors.length false
      keyAuthors := if emit then some [] else none
      remainingAuthors }

/-- The bus factor of a set of files; `digest` is the keyed hash of an emitted id. -/
def groupBusFactor (sha256Hex : String → String) (files : List (List AuthorId)) (coverage : ℚ)
    (emit : Bool) (digest : String → String) : GroupBusFactor :=
  if files = [] then ⟨0, 0, 0, none⟩
  else
    let s := registry sha256Hex files
    let busFactor := greedyTruckFactor s.authors s.remainingAuthors coverage emit digest
    { busFactor := busFactor.removed
      files := min files.length u32Max
      authors := min s.authors.length u32Max
      keyAuthorIds := busFactor.keyAuthors }

/-! ### The report -/

/-- The top-level directory of a file and the directory beneath it. -/
def directoryKeys (path : PathBytes) : List PathBytes :=
  match (components path).dropLast with
  | [] => []
  | [first] => [render [first]]
  | first :: second :: _ => [render [first], render [first, second]]

/-- A path as an identifier in output; there is none for a path that is not UTF-8. -/
def slashPath (path : PathBytes) : Option String := String.fromUTF8? ⟨path.toArray⟩

def minCoverage : ℚ := binary64 (1 / 10 ^ 6)

def maxCoverage : ℚ := binary64 (1 - minCoverage)

def clampThreshold (threshold : Option ℚ) : ℚ :=
  match threshold with
  | none => defaultCoverageThreshold
  | some threshold => max minCoverage (min threshold maxCoverage)

/-- The files that count: a file without a contribution has no author. -/
def contributed (authorship : List FileAuthorship) : List FileAuthorship :=
  authorship.filter fun f => f.contributions ≠ []

/-- The report over every file; a threshold that is no number is given as `none`. -/
def computeBusFactor (sha256Hex : String → String) (ln : ℚ → ℚ)
    (authorship : List FileAuthorship) (coverageThreshold : Option ℚ) (emitAuthorDetails : Bool)
    (authorHashKey : Option (String → String)) : BusFactor :=
  let coverage := clampThreshold coverageThreshold
  let digest := authorHashKey.getD id
  let files := contributed authorship
  let group := fun files : List FileAuthorship =>
    groupBusFactor sha256Hex (files.map (authorsOfFile sha256Hex ln)) coverage emitAuthorDetails
      digest
  { busFactorSchemaVersion
    coverageThreshold := coverage
    doaThreshold := doaNormalizedThreshold
    repo := group files
    byDirectory :=
      ((files.flatMap fun f => directoryKeys f.path).dedup.filterMap fun dir =>
        (slashPath dir).map fun directory =>
          ⟨directory, group (files.filter fun f => dir ∈ directoryKeys f.path)⟩).insertionSort
        fun a b => a.directory ≤ b.directory }

/-- The files beneath a directory of the report. -/
def filesUnder (authorship : List FileAuthorship) (dir : PathBytes) : List FileAuthorship :=
  (contributed authorship).filter fun f => dir ∈ directoryKeys f.path

end BigCodeAnalysis.Vcs
