import BigCodeAnalysis.Vcs.Replay
import Mathlib.Algebra.GroupWithZero.Nat

/-! The persistent history cache. A run replays the entry stored for its tip, or walks down
to the first commit some entry is stored for and goes on with that entry's events, or walks
the whole window; what it used is written back under the tip. History is first-parent, and
a chain has its tip first. -/

namespace BigCodeAnalysis.Vcs

variable {Oid P : Type*}

/-- What the walk reads of a commit before it looks into it. -/
structure Commit (Oid : Type*) where
  oid : Oid
  time : ℤ
  isMerge : Bool
  deriving DecidableEq, Repr

/-- One run's options and what the repository gives for a commit: its participants without
the filtered bots, the class of its message and the diff against its first parent. -/
structure WalkContext (Oid P : Type*) where
  windows : Windows
  /-- A parsed window is a positive duration. -/
  window_pos : 0 < windows.longWindowSecs
  now : ℤ
  now_i64 : i64Min ≤ now
  includeMerges : Bool
  fullHistory : Bool
  fingerprint : ℕ
  shallow : Bool
  participants : Commit Oid → List String
  classifyCommit : Commit Oid → Classification
  diffCollect : Commit Oid → List (P × P) × List (P × ℕ)

namespace WalkContext
variable (walk : WalkContext Oid P)

def longBoundary : ℤ := windowBoundary walk.now walk.windows.longWindowSecs

/-- The same run at another time. -/
def atTime (t : ℤ) (ht : i64Min ≤ t) : WalkContext Oid P := { walk with now := t, now_i64 := ht }

def processCommit (commit : Commit Oid) : Option (CommitEvent Oid P) :=
  if commit.isMerge && !walk.includeMerges then none
  else
    let authors := walk.participants commit
    if authors.isEmpty then none
    else
      let flags := walk.classifyCommit commit
      let (renames, touched) := walk.diffCollect commit
      some ⟨commit.oid, commit.time, authors, flags.bugFix, flags.securityFix, flags.revert,
        renames, touched⟩

/-- The revision walk's cutoff drops a commit older than the boundary and all behind it. -/
def inCutoff (commit : Commit Oid) : Bool := walk.longBoundary ≤ commit.time

section Collect
variable [DecidableEq Oid] (stopOids : List Oid)

/-- The loop over the commits the revision walk hands out. -/
def collectLoop : List (Commit Oid) → List (CommitEvent Oid P) × Option Oid
  | [] => ([], none)
  | commit :: commits =>
    if commit.oid ∈ stopOids then ([], some commit.oid)
    else
      let (events, stopped) := collectLoop commits
      if min commit.time walk.now < walk.longBoundary then (events, stopped)
      else
        match walk.processCommit commit with
        | none => (events, stopped)
        | some event => (event :: events, stopped)

def collectEvents (chain : List (Commit Oid)) : List (CommitEvent Oid P) × Option Oid :=
  walk.collectLoop stopOids (chain.takeWhile walk.inCutoff)

end Collect

end WalkContext

/-! ### Entries -/

def cacheSchemaVersion : ℕ := 3

def vcsSchemaVersion : ℕ := 2

def riskScoreVersion : ℕ := 2

/-- A persisted walk. Its file is named by `headSha`. -/
structure HistoryCache (Oid P : Type*) where
  cacheSchemaVersion : ℕ
  vcsSchemaVersion : ℕ
  riskScoreVersion : ℕ
  optionsFingerprint : ℕ
  headSha : Oid
  walkLongBoundary : ℤ
  truncatedShallowClone : Bool
  events : List (CommitEvent Oid P)
  deriving DecidableEq, Repr

def HistoryCache.isCompatible (cache : HistoryCache Oid P) (optionsFingerprint : ℕ)
    (currentShallow : Bool) : Bool :=
  cache.cacheSchemaVersion = Vcs.cacheSchemaVersion ∧
    cache.vcsSchemaVersion = Vcs.vcsSchemaVersion ∧
    cache.riskScoreVersion = Vcs.riskScoreVersion ∧
    cache.optionsFingerprint = optionsFingerprint ∧
    cache.truncatedShallowClone = currentShallow

abbrev Store (Oid P : Type*) := List (HistoryCache Oid P)

structure CacheConfig where
  enabled : Bool
  clear : Bool
  deriving DecidableEq, Repr

section Cached
variable [DecidableEq Oid]

def Store.load (store : Store Oid P) (headSha : Oid) : Option (HistoryCache Oid P) :=
  store.find? (·.headSha = headSha)

/-- The tip's own entry, when it is compatible and reaches back far enough. -/
def pureHit (walk : WalkContext Oid P) (store : Store Oid P) (tip : Commit Oid) :
    Option (HistoryCache Oid P) :=
  (store.load tip.oid).filter fun entry =>
    entry.isCompatible walk.fingerprint walk.shallow &&
      decide (entry.walkLongBoundary ≤ walk.longBoundary)

def loadCompatible (walk : WalkContext Oid P) (store : Store Oid P) :
    List (HistoryCache Oid P) :=
  store.filter (·.isCompatible walk.fingerprint walk.shallow)

def loadCandidates (walk : WalkContext Oid P) (store : Store Oid P) :
    List (HistoryCache Oid P) :=
  if walk.fullHistory then []
  else (loadCompatible walk store).filter (·.walkLongBoundary ≤ walk.longBoundary)

/-- The second filter of `prune_and_dedup`: the first event of every commit. -/
def dedup (seen : List Oid) : List (CommitEvent Oid P) → List (CommitEvent Oid P)
  | [] => []
  | event :: events =>
    if event.oid ∈ seen then dedup seen events
    else event :: dedup (event.oid :: seen) events

def pruneAndDedup (walk : WalkContext Oid P) (events : List (CommitEvent Oid P)) :
    List (CommitEvent Oid P) :=
  dedup [] (events.filter fun event => walk.longBoundary ≤ min event.time walk.now)

/-- The entry the walk stops at. -/
def splicedTail (walk : WalkContext Oid P) (store : Store Oid P) (chain : List (Commit Oid)) :
    Option (HistoryCache Oid P) :=
  let candidates := loadCandidates walk store
  (walk.collectEvents (candidates.map (·.headSha)) chain).2.bind fun oid =>
    candidates.find? (·.headSha = oid)

/-- The merged event log and the head of the entry it supersedes. -/
def incrementalEvents (walk : WalkContext Oid P) (store : Store Oid P) (headSha : Oid)
    (chain : List (Commit Oid)) : List (CommitEvent Oid P) × Option Oid :=
  let newEvents := (walk.collectEvents ((loadCandidates walk store).map (·.headSha)) chain).1
  let spliced := splicedTail walk store chain
  let superseded := (spliced.filter (·.headSha ≠ headSha)).map (·.headSha)
  let events :=
    match spliced with
    | none => newEvents
    | some candidate => newEvents ++ candidate.events
  (pruneAndDedup walk events, superseded)

/-- The entry `persist` writes. -/
def persisted (walk : WalkContext Oid P) (headSha : Oid) (events : List (CommitEvent Oid P)) :
    HistoryCache Oid P where
  cacheSchemaVersion := Vcs.cacheSchemaVersion
  vcsSchemaVersion := Vcs.vcsSchemaVersion
  riskScoreVersion := Vcs.riskScoreVersion
  optionsFingerprint := walk.fingerprint
  headSha := headSha
  walkLongBoundary := walk.longBoundary
  truncatedShallowClone := walk.shallow
  events := events

/-- What a run replays and what it does to the store. -/
structure CachedRun (Oid P : Type*) where
  events : List (CommitEvent Oid P)
  store : Store Oid P

/-- `build_cached` up to the replay, for the chain `tip :: ancestors`. A reference time
before the tip is sent to the uncached build before any of this. -/
def buildCached (walk : WalkContext Oid P) (config : CacheConfig) (store : Store Oid P)
    (tip : Commit Oid) (ancestors : List (Commit Oid)) : CachedRun Oid P :=
  let chain := tip :: ancestors
  let store := if config.clear then [] else store
  if config.enabled then
    match pureHit walk store tip with
    | some entry => ⟨entry.events, store⟩
    | none =>
      let (events, superseded) := incrementalEvents walk store tip.oid chain
      let written := persisted walk tip.oid events :: store.filter (·.headSha ≠ tip.oid)
      ⟨events, written.filter fun entry => some entry.headSha ≠ superseded⟩
  else ⟨(walk.collectEvents [] chain).1, store⟩

/-- The events of a fresh walk of the tip. -/
def freshEvents (walk : WalkContext Oid P) (chain : List (Commit Oid)) :
    List (CommitEvent Oid P) :=
  (walk.collectEvents [] chain).1

end Cached

end BigCodeAnalysis.Vcs
