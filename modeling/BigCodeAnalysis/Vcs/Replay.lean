import BigCodeAnalysis.Sequences.Chain
import Mathlib.Algebra.Group.Int.Defs
import Mathlib.Data.List.Induction

/-! The replay of a recorded history. Commits come newest first; their renames collect in
one flat table of names, and each file a commit touched is credited to the name the table
leads to. What is folded from the credits is a parameter. -/

namespace BigCodeAnalysis.Vcs

open Sequences

/-- The keyword flags of a commit message. -/
structure Classification where
  bugFix : Bool
  securityFix : Bool
  revert : Bool
  deriving DecidableEq, Repr

/-- A commit as the walk recorded it. `touched` has the files' names at this commit. -/
structure CommitEvent (Oid P : Type*) where
  oid : Oid
  time : ℤ
  authors : List String
  bugFix : Bool
  securityFix : Bool
  revert : Bool
  renames : List (P × P)
  touched : List (P × ℕ)
  deriving DecidableEq, Repr

variable {Oid P : Type*}

def CommitEvent.classification (event : CommitEvent Oid P) : Classification :=
  ⟨event.bugFix, event.securityFix, event.revert⟩

/-- The two windows of the options, in seconds. -/
structure Windows where
  longWindowSecs : ℤ
  recentWindowSecs : ℤ
  deriving DecidableEq, Repr

def i64Min : ℤ := -2 ^ 63

def i64Max : ℤ := 2 ^ 63 - 1

/-- `saturating_sub` of two `i64`. -/
def saturatingSub (a b : ℤ) : ℤ := max i64Min (min i64Max (a - b))

def windowBoundary (reference windowSecs : ℤ) : ℤ := saturatingSub reference windowSecs

/-- Whether the replay at `now` keeps an event. -/
def CommitEvent.inWindow (event : CommitEvent Oid P) (windows : Windows) (now : ℤ) : Bool :=
  windowBoundary now windows.longWindowSecs ≤ min event.time now

/-- The facts of a commit that every file it touched shares. -/
structure FoldContext where
  commitTime : ℤ
  inRecent : Bool
  classification : Classification
  authors : List String
  deriving DecidableEq, Repr

def maxAliasDepth : ℕ := 10000

section Replay
variable [DecidableEq P]

/-- The name the chain of renames leads to. -/
def resolveAlias (aliases : P → Option P) (path : P) : P := follow aliases maxAliasDepth ∅ path

def insertRenames (aliases : P → Option P) (renames : List (P × P)) : P → Option P :=
  renames.foldl (fun aliases edge => Function.update aliases edge.1 (some edge.2)) aliases

/-- The replay's table and what `foldCommit` has made of the commits so far. -/
structure ReplayState (P σ : Type*) where
  aliases : P → Option P
  folded : σ

variable {σ : Type*} (foldCommit : List (P × ℕ) → FoldContext → σ → σ) (windows : Windows)
  (now : ℤ)

def foldContext (event : CommitEvent Oid P) : FoldContext where
  commitTime := min event.time now
  inRecent := windowBoundary now windows.recentWindowSecs ≤ min event.time now
  classification := event.classification
  authors := event.authors

/-- One pass of the replay's loop. -/
def replayEvent (state : ReplayState P σ) (event : CommitEvent Oid P) : ReplayState P σ :=
  let commitTime := min event.time now
  if commitTime < windowBoundary now windows.longWindowSecs then state
  else
    let aliases := insertRenames state.aliases event.renames
    let touched := event.touched.map fun (location, churn) => (resolveAlias aliases location, churn)
    ⟨aliases, foldCommit touched (foldContext windows now event) state.folded⟩

/-- The replay up to the finalisation: the accumulators and the co-change graph are what
`foldCommit` makes of the seed. -/
def replay (seed : σ) (events : List (CommitEvent Oid P)) : σ :=
  (events.foldl (replayEvent foldCommit windows now) ⟨fun _ => none, seed⟩).folded

/-- The calls of `foldCommit` the replay makes, in their order. -/
def replayCalls (events : List (CommitEvent Oid P)) : List (List (P × ℕ) × FoldContext) :=
  replay (fun touched context calls => calls ++ [(touched, context)]) windows now [] events

/-! ### The table -/

/-- The names one commit gives away. -/
def CommitEvent.renameMap (event : CommitEvent Oid P) : P → Option P :=
  insertRenames (fun _ => none) event.renames

theorem insertRenames_apply (renames : List (P × P)) :
    ∀ (aliases : P → Option P) (x : P), insertRenames aliases renames x =
      (insertRenames (fun _ => none) renames x).or (aliases x) := by
  induction renames using List.reverseRecOn with
  | nil => intro aliases x; rfl
  | append_singleton renames edge ih =>
    intro aliases x
    unfold insertRenames at ih ⊢
    simp only [List.foldl_append, List.foldl_cons, List.foldl_nil]
    by_cases hx : x = edge.1
    · subst hx
      simp only [Function.update_self, Option.some_or]
    · simp only [Function.update_of_ne hx]
      exact ih aliases x

/-- The first of the events that gives the name away decides. -/
def firstRename (events : List (CommitEvent Oid P)) (x : P) : Option P :=
  events.findSome? (·.renameMap x)

omit [DecidableEq P] in
theorem inWindow_iff (event : CommitEvent Oid P) :
    event.inWindow windows now = true ↔
      ¬ min event.time now < windowBoundary now windows.longWindowSecs := by
  simp [CommitEvent.inWindow]

/-- Credits as the flat table makes them. `newer` are the events already replayed, the last
one first. -/
def tableCalls (newer : List (CommitEvent Oid P)) :
    List (CommitEvent Oid P) → List (List (P × ℕ) × FoldContext)
  | [] => []
  | event :: events =>
    (event.touched.map fun t => (resolveAlias (firstRename (event :: newer)) t.1, t.2),
      foldContext windows now event) :: tableCalls (event :: newer) events

/-- The replay folds the credits of the table, whatever is folded. -/
theorem foldl_replayEvent (events : List (CommitEvent Oid P)) :
    ∀ (newer : List (CommitEvent Oid P)) (folded : σ),
      (events.foldl (replayEvent foldCommit windows now) ⟨firstRename newer, folded⟩).folded =
        (tableCalls windows now newer (events.filter (·.inWindow windows now))).foldl
          (fun folded call => foldCommit call.1 call.2 folded) folded := by
  induction events with
  | nil => intro newer folded; rfl
  | cons event events ih =>
    intro newer folded
    rw [List.foldl_cons, replayEvent]
    dsimp only
    by_cases h : min event.time now < windowBoundary now windows.longWindowSecs
    · have hout : event.inWindow windows now = false := by
        simpa using (not_congr (inWindow_iff windows now event)).mpr (not_not.mpr h)
      rw [if_pos h, List.filter_cons_of_neg (by simp [hout]), ih]
    · have haliases : insertRenames (firstRename newer) event.renames =
          firstRename (event :: newer) := by
        funext x
        rw [insertRenames_apply]
        show (event.renameMap x).or _ = _
        rw [firstRename, firstRename, List.findSome?_cons]
        cases event.renameMap x <;> rfl
      have hin : (event :: events).filter (·.inWindow windows now) =
          event :: events.filter (·.inWindow windows now) :=
        List.filter_cons_of_pos ((inWindow_iff windows now event).mpr h)
      rw [if_neg h, hin, haliases, ih]
      rfl

theorem replay_eq_tableCalls (seed : σ) (events : List (CommitEvent Oid P)) :
    replay foldCommit windows now seed events =
      (tableCalls windows now [] (events.filter (·.inWindow windows now))).foldl
        (fun folded call => foldCommit call.1 call.2 folded) seed :=
  foldl_replayEvent foldCommit windows now events [] seed

theorem replayCalls_eq (events : List (CommitEvent Oid P)) :
    replayCalls windows now events =
      tableCalls windows now [] (events.filter (·.inWindow windows now)) := by
  have hfold : ∀ calls folded : List (List (P × ℕ) × FoldContext),
      calls.foldl (fun folded call => folded ++ [(call.1, call.2)]) folded = folded ++ calls := by
    intro calls
    induction calls with
    | nil => simp
    | cons call calls ih => intro folded; rw [List.foldl_cons, ih]; simp
  rw [replayCalls, replay_eq_tableCalls, hfold, List.nil_append]

/-- Any replay is a fold over the calls. -/
theorem replay_eq_foldl_calls (seed : σ) (events : List (CommitEvent Oid P)) :
    replay foldCommit windows now seed events =
      (replayCalls windows now events).foldl
        (fun folded call => foldCommit call.1 call.2 folded) seed := by
  rw [replay_eq_tableCalls, replayCalls_eq]

/-- Events out of the window do not take part. -/
theorem replay_filter (seed : σ) (events : List (CommitEvent Oid P)) :
    replay foldCommit windows now seed (events.filter (·.inWindow windows now)) =
      replay foldCommit windows now seed events := by
  rw [replay_eq_tableCalls, replay_eq_tableCalls, List.filter_filter]
  simp only [Bool.and_self]

end Replay

end BigCodeAnalysis.Vcs
