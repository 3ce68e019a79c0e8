import BigCodeAnalysis.Baseline.Match
import BigCodeAnalysis.Catalog.Metrics
import BigCodeAnalysis.Sequences.Group

/-! The diff of two baselines: entries are paired on path, symbol and metric, by rank where
several share these, and reported as added, removed, worsened or improved. -/

namespace BigCodeAnalysis.Baseline

open Sequences Catalog

structure DiffEntry where
  path : String
  qualified : String
  metric : String
  startLine : Option ℕ
  value : F64
  deriving DecidableEq, Repr

def DiffEntry.key (e : DiffEntry) : SymbolKey := toLex (e.path, toLex (e.qualified, e.metric))

/-- `new` against `old`: greater when it is worse. -/
def worseOrder (metric : String) (new old : F64) : Option Ordering :=
  if new.isNan || old.isNan then none
  else
    match lookup metric with
    | some info => some (info.cmpWorse new old)
    | none => new.partialCmp old

structure EntryDelta where
  path : String
  qualified : String
  metric : String
  startLine : Option ℕ
  value : F64
  deriving DecidableEq, Repr

/-- A moved value. The line is that of the new side. -/
structure ValueDelta where
  path : String
  qualified : String
  metric : String
  startLine : Option ℕ
  old : F64
  new : F64
  deriving DecidableEq, Repr

def EntryDelta.identity (d : EntryDelta) : Identity :=
  toLex (d.path, toLex (d.qualified, toLex (d.metric, d.startLine)))

def ValueDelta.identity (d : ValueDelta) : Identity :=
  toLex (d.path, toLex (d.qualified, toLex (d.metric, d.startLine)))

structure BaselineDiff where
  added : List EntryDelta
  removed : List EntryDelta
  worsened : List ValueDelta
  improved : List ValueDelta
  deriving DecidableEq, Repr

structure SectionFilter where
  added : Bool
  removed : Bool
  worsened : Bool
  improved : Bool
  deriving DecidableEq, Repr

def SectionFilter.fromFlags (added removed worsened improved : Bool) : SectionFilter :=
  if added || removed || worsened || improved then ⟨added, removed, worsened, improved⟩
  else ⟨true, true, true, true⟩

def entryDelta (e : DiffEntry) : EntryDelta := ⟨e.path, e.qualified, e.metric, e.startLine, e.value⟩

def valueDelta (e : DiffEntry) (old new : F64) : ValueDelta :=
  ⟨e.path, e.qualified, e.metric, e.startLine, old, new⟩

/-- Lines in order, an absent one first. -/
def lineRank (line : Option ℕ) : WithBot ℕ := line

def cmpForPairing (a b : DiffEntry) : Ordering :=
  ((a.value.partialCmp b.value).getD .eq).then
    (cmp (lineRank a.startLine) (lineRank b.startLine))

def sortForPairing (l : List DiffEntry) : List DiffEntry :=
  l.insertionSort fun a b => cmpForPairing a b ≠ .gt

def sortByIdentity {α : Type*} (identity : α → Identity) (l : List α) : List α :=
  l.insertionSort fun a b => identity a ≤ identity b

namespace BaselineDiff

/-- The pairs of a group whose value moved in the given sense. -/
def moved (sense : Ordering) (pairs : List (DiffEntry × DiffEntry)) : List ValueDelta :=
  pairs.filterMap fun (o, n) =>
    if worseOrder n.metric n.value o.value = some sense then some (valueDelta n o.value n.value)
    else none

/-- One turn of the loop over the groups. -/
def pairGroup (diff : BaselineDiff) (olds news : List DiffEntry) : BaselineDiff :=
  let olds := sortForPairing olds
  let news := sortForPairing news
  let paired := min olds.length news.length
  { worsened := diff.worsened ++ moved .gt (olds.zip news)
    improved := diff.improved ++ moved .lt (olds.zip news)
    removed := diff.removed ++ (olds.drop paired).map entryDelta
    added := diff.added ++ (news.drop paired).map entryDelta }

def compute (old new : List DiffEntry) : BaselineDiff :=
  let diff := (keysOf DiffEntry.key (old ++ new)).foldl (fun diff key =>
    pairGroup diff (old.filter fun e => e.key = key) (new.filter fun e => e.key = key))
    ⟨[], [], [], []⟩
  { added := sortByIdentity EntryDelta.identity diff.added
    removed := sortByIdentity EntryDelta.identity diff.removed
    worsened := sortByIdentity ValueDelta.identity diff.worsened
    improved := sortByIdentity ValueDelta.identity diff.improved }

def isEmptyUnder (diff : BaselineDiff) (filter : SectionFilter) : Bool :=
  let added := filter.added && !diff.added.isEmpty
  let removed := filter.removed && !diff.removed.isEmpty
  let worsened := filter.worsened && !diff.worsened.isEmpty
  let improved := filter.improved && !diff.improved.isEmpty
  !(added || removed || worsened || improved)

end BaselineDiff

end BigCodeAnalysis.Baseline
