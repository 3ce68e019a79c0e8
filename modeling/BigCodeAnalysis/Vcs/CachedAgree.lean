import BigCodeAnalysis.Sequences.Cutoff
import BigCodeAnalysis.Vcs.Cached

/-! When a cached run replays what a fresh walk would. Every entry the runs leave covers the
walk it was written by, and may hold events from behind it. A later run prunes them by
their own times, and by nothing that lies before them. -/

namespace BigCodeAnalysis.Vcs

open Sequences
open scoped List

variable {Oid P : Type*}

theorem saturatingSub_le {a b : ℤ} (ha : i64Min ≤ a) (hb : 0 ≤ b) : saturatingSub a b ≤ a := by
  unfold saturatingSub
  omega

namespace WalkContext
variable (walk : WalkContext Oid P)

theorem longBoundary_le_now : walk.longBoundary ≤ walk.now :=
  saturatingSub_le walk.now_i64 walk.window_pos.le

theorem processCommit_event {commit : Commit Oid} {event : CommitEvent Oid P}
    (h : walk.processCommit commit = some event) :
    event.oid = commit.oid ∧ event.time = commit.time := by
  unfold processCommit at h
  split_ifs at h
  dsimp only at h
  split_ifs at h
  cases h
  exact ⟨rfl, rfl⟩

/-- The events a list of commits makes. -/
def eventsOf (commits : List (Commit Oid)) : List (CommitEvent Oid P) :=
  commits.filterMap walk.processCommit

theorem inWindow_eq {commit : Commit Oid} {event : CommitEvent Oid P}
    (h : walk.processCommit commit = some event) :
    event.inWindow walk.windows walk.now = walk.inCutoff commit := by
  have hnow := walk.longBoundary_le_now
  obtain ⟨-, htime⟩ := walk.processCommit_event h
  unfold CommitEvent.inWindow inCutoff longBoundary at *
  rw [htime]
  apply decide_eq_decide.mpr
  omega

/-- The replay's window is the walk's cutoff, commit by commit. -/
theorem eventsOf_filter (commits : List (Commit Oid)) :
    (walk.eventsOf commits).filter (·.inWindow walk.windows walk.now) =
      walk.eventsOf (commits.filter walk.inCutoff) := by
  induction commits with
  | nil => rfl
  | cons commit commits ih =>
    unfold eventsOf at ih ⊢
    cases hevent : walk.processCommit commit with
    | none =>
      by_cases hin : walk.inCutoff commit = true <;> simp [hevent, hin, ih]
    | some event =>
      have hwindow := walk.inWindow_eq hevent
      by_cases hin : walk.inCutoff commit = true <;> simp [hevent, hin, hwindow, ih]

theorem eventsOf_oids (commits : List (Commit Oid)) :
    ((walk.eventsOf commits).map (·.oid)) <+ commits.map (·.oid) := by
  induction commits with
  | nil => exact List.Sublist.refl _
  | cons commit commits ih =>
    unfold eventsOf at ih ⊢
    cases hevent : walk.processCommit commit with
    | none =>
      rw [List.filterMap_cons_none hevent]
      exact ih.cons _
    | some event =>
      rw [List.filterMap_cons_some hevent, List.map_cons, List.map_cons,
        (walk.processCommit_event hevent).1]
      exact ih.cons_cons _

section Collect
variable [DecidableEq Oid]

/-- Above the cutoff the loop records every commit down to the first stop. -/
theorem collectLoop_eq (stopOids : List Oid) (commits : List (Commit Oid))
    (h : ∀ commit ∈ commits, walk.inCutoff commit = true) :
    walk.collectLoop stopOids commits =
      (walk.eventsOf (commits.takeWhile (·.oid ∉ stopOids)),
        (commits.dropWhile (·.oid ∉ stopOids)).head?.map (·.oid)) := by
  induction commits with
  | nil => rfl
  | cons commit commits ih =>
    have ih := ih fun c hc => h c (List.mem_cons_of_mem _ hc)
    rw [collectLoop]
    by_cases hstop : commit.oid ∈ stopOids
    · simp [hstop, eventsOf]
    · have hguard : ¬ min commit.time walk.now < walk.longBoundary := by
        have hnow := walk.longBoundary_le_now
        have hin : walk.longBoundary ≤ commit.time := by
          simpa [inCutoff] using h commit (List.mem_cons_self ..)
        omega
      rw [if_neg hstop, ih]
      dsimp only
      rw [if_neg hguard, List.takeWhile_cons_of_pos (by simpa using hstop),
        List.dropWhile_cons_of_pos (by simpa using hstop)]
      unfold eventsOf
      cases hevent : walk.processCommit commit with
      | none => rw [List.filterMap_cons_none hevent]
      | some event => rw [List.filterMap_cons_some hevent]

theorem collectEvents_eq (stopOids : List Oid) (chain : List (Commit Oid)) :
    walk.collectEvents stopOids chain =
      (walk.eventsOf ((chain.takeWhile walk.inCutoff).takeWhile (·.oid ∉ stopOids)),
        ((chain.takeWhile walk.inCutoff).dropWhile (·.oid ∉ stopOids)).head?.map (·.oid)) :=
  walk.collectLoop_eq stopOids _ fun _ hc => List.mem_takeWhile_imp hc

theorem freshEvents_eq (chain : List (Commit Oid)) :
    freshEvents walk chain = walk.eventsOf (chain.takeWhile walk.inCutoff) := by
  have hall : ∀ l : List (Commit Oid), l.takeWhile (fun c => decide (c.oid ∉ ([] : List Oid))) = l :=
    fun l => List.takeWhile_eq_self_iff.mpr fun c _ => by simp
  rw [freshEvents, collectEvents_eq, hall]

end Collect

end WalkContext

/-! ### What the runs leave in the store -/

section Runs
variable [DecidableEq Oid] (walk : WalkContext Oid P) (chain : List (Commit Oid))

/-- The compatible entries that runs on ancestors of the tip have left, at whatever times
and over whatever other such entries. -/
inductive Written : HistoryCache Oid P → Prop
  | run (t : ℤ) (ht : i64Min ≤ t) (config : CacheConfig) (store : Store Oid P)
      (hstore : ∀ entry ∈ store, entry.isCompatible walk.fingerprint walk.shallow = true →
        Written entry)
      (tip : Commit Oid) (ancestors : List (Commit Oid)) (hchain : tip :: ancestors <:+ chain)
      (entry : HistoryCache Oid P)
      (hentry : entry ∈ (buildCached (walk.atTime t ht) config store tip ancestors).store)
      (hcompatible : entry.isCompatible walk.fingerprint walk.shallow = true) : Written entry

/-- An entry that covers the walk from its head down to its boundary. -/
def Recorded (entry : HistoryCache Oid P) : Prop :=
  ∃ older kept, older <:+ chain ∧ older.head?.map (·.oid) = some entry.headSha ∧
    Covers (fun commit => decide (entry.walkLongBoundary ≤ commit.time)) older kept ∧
    entry.events = walk.eventsOf kept

variable {walk chain}

theorem dedup_eq_self (events : List (CommitEvent Oid P)) :
    ∀ seen : List Oid, (events.map (·.oid)).Nodup → (∀ event ∈ events, event.oid ∉ seen) →
      dedup seen events = events := by
  induction events with
  | nil => intro _ _ _; rfl
  | cons event events ih =>
    intro seen hnodup hseen
    obtain ⟨hevent, hnodup⟩ := List.nodup_cons.mp hnodup
    rw [dedup, if_neg (hseen event (List.mem_cons_self ..)), ih (event.oid :: seen) hnodup]
    intro later hlater hmem
    rcases List.mem_cons.mp hmem with h | h
    · exact hevent (List.mem_map.mpr ⟨later, hlater, h⟩)
    · exact hseen later (List.mem_cons_of_mem _ hlater) h

/-- Pruning a log made of distinct commits of the chain cuts it at the boundary. -/
theorem pruneAndDedup_eq {commits : List (Commit Oid)}
    (hnodup : (commits.map (·.oid)).Nodup) :
    pruneAndDedup walk (walk.eventsOf commits) = walk.eventsOf (commits.filter walk.inCutoff) := by
  have hfilter := walk.eventsOf_filter commits
  unfold CommitEvent.inWindow at hfilter
  rw [pruneAndDedup]
  have hprune : (walk.eventsOf commits).filter
      (fun event => decide (walk.longBoundary ≤ min event.time walk.now)) =
        walk.eventsOf (commits.filter walk.inCutoff) := hfilter
  rw [hprune]
  apply dedup_eq_self
  · exact hnodup.sublist
      ((walk.eventsOf_oids _).trans (List.filter_sublist.map _))
  · simp

omit [DecidableEq Oid] in
theorem mem_loadCandidates {store : Store Oid P} {entry : HistoryCache Oid P}
    (h : entry ∈ loadCandidates walk store) :
    entry ∈ store ∧ entry.isCompatible walk.fingerprint walk.shallow = true ∧
      entry.walkLongBoundary ≤ walk.longBoundary := by
  unfold loadCandidates loadCompatible at h
  split_ifs at h
  · cases h
  · simp only [List.mem_filter, decide_eq_true_eq] at h
    exact ⟨h.1.1, h.1.2, h.2⟩

theorem pureHit_spec {store : Store Oid P} {tip : Commit Oid} {entry : HistoryCache Oid P}
    (h : pureHit walk store tip = some entry) :
    entry ∈ store ∧ entry.headSha = tip.oid ∧
      entry.isCompatible walk.fingerprint walk.shallow = true ∧
      entry.walkLongBoundary ≤ walk.longBoundary := by
  obtain ⟨hload, hfilter⟩ := Option.filter_eq_some_iff.mp h
  simp only [Bool.and_eq_true, decide_eq_true_eq] at hfilter
  have hhead := List.find?_some hload
  exact ⟨List.mem_of_find?_eq_some hload, by simpa using hhead, hfilter⟩

/-- The walk down to the entry it stops at: above it no commit is older than the boundary. -/
theorem splicedTail_spec {store : Store Oid P} {candidate : HistoryCache Oid P}
    (h : splicedTail walk store chain = some candidate) :
    candidate ∈ loadCandidates walk store ∧ ∃ newer older, chain = newer ++ older ∧
      older.head?.map (·.oid) = some candidate.headSha ∧
      (∀ commit ∈ newer, walk.inCutoff commit = true) ∧
      (walk.collectEvents ((loadCandidates walk store).map (·.headSha)) chain).1 =
        walk.eventsOf newer := by
  set stops := (loadCandidates walk store).map (·.headSha) with hstops
  obtain ⟨oid, hstopped, hfind⟩ := Option.bind_eq_some_iff.mp h
  rw [← hstops] at hstopped
  rw [walk.collectEvents_eq] at hstopped ⊢
  have hhead : candidate.headSha = oid := by simpa using List.find?_some hfind
  set reached := chain.takeWhile walk.inCutoff with hreached
  refine ⟨List.mem_of_find?_eq_some hfind, reached.takeWhile (·.oid ∉ stops),
    reached.dropWhile (·.oid ∉ stops) ++ chain.dropWhile walk.inCutoff, ?_, ?_, ?_, rfl⟩
  · rw [← List.append_assoc, List.takeWhile_append_dropWhile, hreached,
      List.takeWhile_append_dropWhile]
  · dsimp only at hstopped
    rw [List.head?_append, hhead]
    obtain ⟨commit, hcommit, rfl⟩ := Option.map_eq_some_iff.mp hstopped
    rw [hcommit]
    rfl
  · intro commit hcommit
    have hmem := (List.takeWhile_sublist _).subset hcommit
    rw [hreached] at hmem
    exact List.mem_takeWhile_imp hmem

theorem splicedTail_none {store : Store Oid P} (h : splicedTail walk store chain = none) :
    (walk.collectEvents ((loadCandidates walk store).map (·.headSha)) chain).1 =
      walk.eventsOf (chain.takeWhile walk.inCutoff) := by
  set stops := (loadCandidates walk store).map (·.headSha) with hstops
  have hnone := Option.bind_eq_none_iff.mp h
  rw [← hstops, walk.collectEvents_eq] at hnone
  rw [walk.collectEvents_eq]
  dsimp only at hnone ⊢
  set reached := chain.takeWhile walk.inCutoff
  cases hdrop : reached.dropWhile (·.oid ∉ stops) with
  | nil =>
    have hsplit := List.takeWhile_append_dropWhile (p := fun c => decide (c.oid ∉ stops))
      (l := reached)
    rw [hdrop, List.append_nil] at hsplit
    rw [hsplit]
  | cons commit rest =>
    exfalso
    have hcommit : commit.oid ∈ stops := by
      have hhead := List.head?_dropWhile_not (fun c => decide (c.oid ∉ stops)) reached
      rw [hdrop] at hhead
      simpa using hhead
    obtain ⟨entry, hentry, heq⟩ := List.mem_map.mp hcommit
    have hfind := hnone commit.oid (by rw [hdrop]; rfl)
    have := List.find?_eq_none.mp hfind entry hentry
    simp [heq] at this

/-- The log of a run without an entry for its tip covers its walk, and ends with the pruned
events of the entry the walk stops at. -/
theorem incrementalEvents_covers (hnodup : (chain.map (·.oid)).Nodup) {store : Store Oid P}
    (hstore : ∀ entry ∈ store, entry.isCompatible walk.fingerprint walk.shallow = true →
      Recorded walk chain entry)
    {tip : Commit Oid} {older : List (Commit Oid)} (hsuffix : older <:+ chain) :
    ∃ kept, Covers walk.inCutoff older kept ∧ (∀ commit ∈ kept, walk.inCutoff commit = true) ∧
      (incrementalEvents walk store tip.oid older).1 = walk.eventsOf kept ∧
      match splicedTail walk store older with
      | none => kept = older.takeWhile walk.inCutoff
      | some candidate => ∃ newer, walk.eventsOf kept = walk.eventsOf newer ++
          candidate.events.filter (·.inWindow walk.windows walk.now) ∧
            ∀ commit ∈ newer, commit ∈ older.takeWhile walk.inCutoff := by
  have holder : (older.map (·.oid)).Nodup := hnodup.sublist (hsuffix.sublist.map _)
  cases hspliced : splicedTail walk store older with
  | none =>
    have hcovers := Covers.walk walk.inCutoff older
    refine ⟨older.takeWhile walk.inCutoff, hcovers, fun _ hc => List.mem_takeWhile_imp hc, ?_, rfl⟩
    rw [incrementalEvents, hspliced]
    dsimp only
    rw [splicedTail_none hspliced, pruneAndDedup_eq (holder.sublist (hcovers.sublist.map _)),
      Covers.filter_takeWhile]
  | some candidate =>
    obtain ⟨hcandidate, newer, rest, rfl, hhead, hnewer, hcollected⟩ := splicedTail_spec hspliced
    obtain ⟨hmem, hcompatible, hreach⟩ := mem_loadCandidates hcandidate
    obtain ⟨recorded, kept, hrecorded, hrecordedHead, hcovers, hevents⟩ :=
      hstore candidate hmem hcompatible
    -- the entry was recorded on the part of the chain the walk stopped at
    have hrest : rest <:+ chain := (List.suffix_append newer rest).trans hsuffix
    obtain rfl : recorded = rest := suffix_eq_of_head hnodup hrecorded hrest hrecordedHead hhead
    have hcut : ∀ commit : Commit Oid, walk.inCutoff commit = true →
        decide (candidate.walkLongBoundary ≤ commit.time) = true := by
      intro commit hcommit
      have hin : walk.longBoundary ≤ commit.time := by simpa [WalkContext.inCutoff] using hcommit
      exact decide_eq_true (hreach.trans hin)
    have hextend := (hcovers.restrict hcut).extend hnewer
    have hlog : candidate.events.filter (·.inWindow walk.windows walk.now) =
        walk.eventsOf (kept.filter walk.inCutoff) := by
      rw [hevents, walk.eventsOf_filter]
    have hall : (newer ++ kept).filter walk.inCutoff = newer ++ kept.filter walk.inCutoff := by
      rw [List.filter_append, List.filter_eq_self.mpr hnewer]
    have hmerged : ((newer ++ kept).map (·.oid)).Nodup :=
      holder.sublist (((List.Sublist.refl newer).append hcovers.sublist).map _)
    refine ⟨newer ++ kept.filter walk.inCutoff, hextend, ?_, ?_, newer, ?_, ?_⟩
    · intro commit hcommit
      rcases List.mem_append.mp hcommit with hcommit | hcommit
      · exact hnewer commit hcommit
      · exact (List.mem_filter.mp hcommit).2
    · rw [incrementalEvents, hspliced]
      dsimp only
      rw [hcollected, hevents]
      have hjoin : walk.eventsOf newer ++ walk.eventsOf kept = walk.eventsOf (newer ++ kept) :=
        List.filterMap_append.symm
      rw [hjoin, pruneAndDedup_eq hmerged, hall]
    · rw [hlog]
      exact List.filterMap_append
    · intro commit hcommit
      rw [List.takeWhile_append_of_pos hnewer]
      exact List.mem_append_left _ hcommit

/-- The entry a run writes is recorded when those it found are. -/
theorem recorded_persisted (hnodup : (chain.map (·.oid)).Nodup) {store : Store Oid P}
    (hstore : ∀ entry ∈ store, entry.isCompatible walk.fingerprint walk.shallow = true →
      Recorded walk chain entry)
    {tip : Commit Oid} {ancestors : List (Commit Oid)} (hsuffix : tip :: ancestors <:+ chain) :
    Recorded walk chain
      (persisted walk tip.oid (incrementalEvents walk store tip.oid (tip :: ancestors)).1) := by
  obtain ⟨kept, hcovers, -, hevents, -⟩ :=
    @incrementalEvents_covers _ _ _ _ _ hnodup _ hstore tip _ hsuffix
  exact ⟨tip :: ancestors, kept, hsuffix, rfl, hcovers, hevents⟩

/-- What a run leaves in the store was there before, or is what it wrote. -/
theorem mem_store_of_run {config : CacheConfig} {store : Store Oid P} {tip : Commit Oid}
    {ancestors : List (Commit Oid)} {entry : HistoryCache Oid P}
    (h : entry ∈ (buildCached walk config store tip ancestors).store) :
    entry ∈ store ∨ ∃ found : Store Oid P, (∀ e ∈ found, e ∈ store) ∧
      entry = persisted walk tip.oid
        (incrementalEvents walk found tip.oid (tip :: ancestors)).1 := by
  have hfound : ∀ e ∈ (if config.clear then [] else store), e ∈ store := by
    intro e he
    split_ifs at he
    · cases he
    · exact he
  unfold buildCached at h
  dsimp only at h
  generalize (if config.clear = true then [] else store) = found at h hfound
  split_ifs at h with henabled
  · split at h
    · exact .inl (hfound _ h)
    · dsimp only at h
      rcases List.mem_cons.mp (List.mem_of_mem_filter h) with rfl | hold
      · exact .inr ⟨found, hfound, rfl⟩
      · exact .inl (hfound _ (List.mem_of_mem_filter hold))
  · exact .inl (hfound _ h)

/-- Every entry the runs have left is recorded. -/
theorem recorded_of_written (hnodup : (chain.map (·.oid)).Nodup) {entry : HistoryCache Oid P}
    (h : Written walk chain entry) : Recorded walk chain entry := by
  induction h with
  | run t ht config store _ tip ancestors hchain entry hentry hcompatible ih =>
    rcases mem_store_of_run hentry with hold | ⟨found, hfound, rfl⟩
    · exact ih entry hold hcompatible
    · exact @recorded_persisted _ _ _ (walk.atTime t ht) _ hnodup _
        (fun e he hcompatible => ih e (hfound e he) hcompatible) _ _ hchain

/-- The entry a run takes events from: the tip's own, or the one its walk stops at. -/
def reusedEntry (walk : WalkContext Oid P) (config : CacheConfig) (store : Store Oid P)
    (tip : Commit Oid) (ancestors : List (Commit Oid)) : Option (HistoryCache Oid P) :=
  let store := if config.clear then [] else store
  if config.enabled then
    (pureHit walk store tip).or (splicedTail walk store (tip :: ancestors))
  else none

/-- The in-window events of a run are a record of the chain; apart from commits the fresh
walk reaches they are the in-window events of the reused entry. -/
theorem buildCached_covers {config : CacheConfig} {store : Store Oid P} {tip : Commit Oid}
    {ancestors : List (Commit Oid)} (hnodup : ((tip :: ancestors).map (·.oid)).Nodup)
    (hstore : ∀ entry ∈ store, entry.isCompatible walk.fingerprint walk.shallow = true →
      Recorded walk (tip :: ancestors) entry) :
    ∃ kept, Covers walk.inCutoff (tip :: ancestors) kept ∧
      (∀ commit ∈ kept, walk.inCutoff commit = true) ∧
      (buildCached walk config store tip ancestors).events.filter
          (·.inWindow walk.windows walk.now) = walk.eventsOf kept ∧
      match reusedEntry walk config store tip ancestors with
      | none => kept = (tip :: ancestors).takeWhile walk.inCutoff
      | some entry => ∃ newer, walk.eventsOf kept = walk.eventsOf newer ++
          entry.events.filter (·.inWindow walk.windows walk.now) ∧
            ∀ commit ∈ newer, commit ∈ (tip :: ancestors).takeWhile walk.inCutoff := by
  have hfound : ∀ e ∈ (if config.clear then [] else store),
      e.isCompatible walk.fingerprint walk.shallow = true → Recorded walk (tip :: ancestors) e := by
    intro e he
    split_ifs at he
    · cases he
    · exact hstore e he
  unfold buildCached reusedEntry
  dsimp only
  generalize (if config.clear = true then [] else store) = found at hfound
  split_ifs with henabled
  · cases hhit : pureHit walk found tip with
    | some entry =>
      obtain ⟨hmem, hhead, hcompatible, hreach⟩ := pureHit_spec hhit
      obtain ⟨older, kept, hsuffix, holderHead, hcovers, hevents⟩ :=
        hfound entry hmem hcompatible
      obtain rfl : older = tip :: ancestors := suffix_eq_of_head hnodup hsuffix
        (List.suffix_refl _) holderHead (by rw [hhead]; rfl)
      have hcut : ∀ commit : Commit Oid, walk.inCutoff commit = true →
          decide (entry.walkLongBoundary ≤ commit.time) = true := by
        intro commit hcommit
        have hin : walk.longBoundary ≤ commit.time := by simpa [WalkContext.inCutoff] using hcommit
        exact decide_eq_true (hreach.trans hin)
      have hlog : entry.events.filter (·.inWindow walk.windows walk.now) =
          walk.eventsOf (kept.filter walk.inCutoff) := by
        rw [hevents, walk.eventsOf_filter]
      refine ⟨kept.filter walk.inCutoff, hcovers.restrict hcut, fun _ hc => (List.mem_filter.mp hc).2,
        hlog, [], ?_, by simp⟩
      rw [hlog]
      rfl
    | none =>
      obtain ⟨kept, hcovers, hin, hevents, hshape⟩ :=
        @incrementalEvents_covers _ _ _ walk _ hnodup _ hfound tip _
          (List.suffix_refl (tip :: ancestors))
      refine ⟨kept, hcovers, hin, ?_, hshape⟩
      dsimp only
      rw [hevents, walk.eventsOf_filter, List.filter_eq_self.mpr hin]
  · have hfresh := walk.freshEvents_eq (tip :: ancestors)
    rw [freshEvents] at hfresh
    refine ⟨_, Covers.walk _ _, fun _ hc => List.mem_takeWhile_imp hc, ?_, rfl⟩
    rw [hfresh, walk.eventsOf_filter, Covers.filter_takeWhile]

variable (walk) [DecidableEq P]

/-- Two event logs that replay to the same: the same in-window events in the same order,
hence the same of whatever is folded from them. -/
structure SameReplay (cached fresh : List (CommitEvent Oid P)) : Prop where
  events : cached.filter (·.inWindow walk.windows walk.now) =
    fresh.filter (·.inWindow walk.windows walk.now)
  outputs : ∀ {σ : Type} (foldCommit : List (P × ℕ) → FoldContext → σ → σ) (seed : σ),
    replay foldCommit walk.windows walk.now seed cached =
      replay foldCommit walk.windows walk.now seed fresh

variable {walk}

omit [DecidableEq Oid] in
theorem sameReplay_of_events {cached fresh : List (CommitEvent Oid P)}
    (h : cached.filter (·.inWindow walk.windows walk.now) =
      fresh.filter (·.inWindow walk.windows walk.now)) : SameReplay walk cached fresh := by
  refine ⟨h, fun foldCommit seed => ?_⟩
  rw [← replay_filter, h, replay_filter]

omit [DecidableEq P] in
theorem freshEvents_filter (chain : List (Commit Oid)) :
    (freshEvents walk chain).filter (·.inWindow walk.windows walk.now) =
      walk.eventsOf (chain.takeWhile walk.inCutoff) := by
  rw [walk.freshEvents_eq, walk.eventsOf_filter, Covers.filter_takeWhile]

/-- A run replays the same as a fresh walk exactly when no in-window event of the entry it
reuses is of a commit behind one older than the boundary. -/
theorem sameReplay_iff (config : CacheConfig) (store : Store Oid P) (tip : Commit Oid)
    (ancestors : List (Commit Oid)) (hnodup : ((tip :: ancestors).map (·.oid)).Nodup)
    (hstore : ∀ entry ∈ store, entry.isCompatible walk.fingerprint walk.shallow = true →
      Written walk (tip :: ancestors) entry) :
    SameReplay walk (buildCached walk config store tip ancestors).events
        (freshEvents walk (tip :: ancestors)) ↔
      ∀ entry, reusedEntry walk config store tip ancestors = some entry →
        ∀ event ∈ entry.events, event.inWindow walk.windows walk.now = true →
          ∃ commit ∈ (tip :: ancestors).takeWhile walk.inCutoff, commit.oid = event.oid := by
  obtain ⟨kept, hcovers, -, hevents, hreused⟩ := @buildCached_covers _ _ _ _ config _ _ _ hnodup
    fun entry hentry hcompatible => recorded_of_written hnodup (hstore entry hentry hcompatible)
  have hmade : walk.eventsOf kept =
      walk.eventsOf ((tip :: ancestors).takeWhile walk.inCutoff) ↔
        ∀ event ∈ walk.eventsOf kept,
          ∃ commit ∈ (tip :: ancestors).takeWhile walk.inCutoff, commit.oid = event.oid := by
    rw [WalkContext.eventsOf, WalkContext.eventsOf,
      hcovers.filterMap_eq_iff (List.Nodup.of_map _ hnodup)]
    constructor
    · intro h event hevent
      obtain ⟨commit, hcommit, hprocess⟩ := List.mem_filterMap.mp hevent
      exact ⟨commit, h commit hcommit (by rw [hprocess]; rfl),
        (walk.processCommit_event hprocess).1.symm⟩
    · intro h commit hcommit hsome
      obtain ⟨event, hprocess⟩ := Option.isSome_iff_exists.mp hsome
      obtain ⟨reached, hreached, hoid⟩ :=
        h event (List.mem_filterMap.mpr ⟨commit, hcommit, hprocess⟩)
      rw [(walk.processCommit_event hprocess).1] at hoid
      have hchain := (List.takeWhile_sublist _).subset hreached
      rwa [List.inj_on_of_nodup_map hnodup hchain (hcovers.sublist.subset hcommit) hoid] at hreached
  have hsame : SameReplay walk (buildCached walk config store tip ancestors).events
      (freshEvents walk (tip :: ancestors)) ↔
        walk.eventsOf kept = walk.eventsOf ((tip :: ancestors).takeWhile walk.inCutoff) := by
    constructor
    · intro h
      rw [← hevents, h.events, freshEvents_filter]
    · intro h
      apply sameReplay_of_events
      rw [hevents, h, freshEvents_filter]
  rw [hsame, hmade]
  cases hentry : reusedEntry walk config store tip ancestors with
  | none =>
    rw [hentry] at hreused
    dsimp only at hreused
    have hall := hmade.mp (by rw [hreused])
    exact ⟨fun _ entry hentry => (Option.some_ne_none entry hentry.symm).elim, fun _ => hall⟩
  | some entry =>
    rw [hentry] at hreused
    obtain ⟨newer, hsplit, hnewer⟩ := hreused
    rw [hsplit]
    simp only [Option.some.injEq, forall_eq', List.mem_append, List.mem_filter]
    constructor
    · intro h event hevent hin
      exact h event (.inr ⟨hevent, hin⟩)
    · rintro h event (hevent | ⟨hevent, hin⟩)
      · obtain ⟨commit, hcommit, hprocess⟩ := List.mem_filterMap.mp hevent
        exact ⟨commit, hnewer commit hcommit, (walk.processCommit_event hprocess).1.symm⟩
      · exact h event hevent hin

/-- Runs in which every commit was made by `x` and changed `f` by one line. -/
def oneFileWalk (now : ℤ) (hnow : i64Min ≤ now) : WalkContext ℕ String where
  windows := ⟨80, 10⟩
  window_pos := by decide
  now := now
  now_i64 := hnow
  includeMerges := false
  fullHistory := false
  fingerprint := 7
  shallow := false
  participants _ := ["x"]
  classifyCommit _ := ⟨false, false, false⟩
  diffCollect _ := ([], [("f", 1)])

/-- A run at 110 on the parent, then one at 120 on its child that splices. -/
theorem sameReplay_iff_spliced :
    SameReplay (oneFileWalk 120 (by decide))
        (buildCached (oneFileWalk 120 (by decide)) ⟨true, false⟩
          (buildCached (oneFileWalk 110 (by decide)) ⟨true, false⟩ [] ⟨1, 95, false⟩ []).store
          ⟨2, 100, false⟩ [⟨1, 95, false⟩]).events
        (freshEvents (oneFileWalk 120 (by decide)) [⟨2, 100, false⟩, ⟨1, 95, false⟩]) ↔
      ∀ entry, reusedEntry (oneFileWalk 120 (by decide)) ⟨true, false⟩
          (buildCached (oneFileWalk 110 (by decide)) ⟨true, false⟩ [] ⟨1, 95, false⟩ []).store
          ⟨2, 100, false⟩ [⟨1, 95, false⟩] = some entry →
        ∀ event ∈ entry.events, event.inWindow ⟨80, 10⟩ 120 = true →
          ∃ commit ∈ [(⟨2, 100, false⟩ : Commit ℕ), ⟨1, 95, false⟩].takeWhile
            (oneFileWalk 120 (by decide)).inCutoff, commit.oid = event.oid :=
  sameReplay_iff ⟨true, false⟩ _ ⟨2, 100, false⟩ [⟨1, 95, false⟩] (by decide)
    fun entry hentry hcompatible =>
      .run 110 (by decide) ⟨true, false⟩ [] (by simp) ⟨1, 95, false⟩ []
        (List.suffix_cons _ _) entry hentry hcompatible

/-- The second of three commits is older than the first and the third. A run at 110 records
all three; at 120 the second has left the window, a fresh walk ends there, and the run
replays the third. -/
theorem skewedParent_replayed :
    ¬ SameReplay (oneFileWalk 120 (by decide))
      (buildCached (oneFileWalk 120 (by decide)) ⟨true, false⟩
        (buildCached (oneFileWalk 110 (by decide)) ⟨true, false⟩ []
          ⟨3, 100, false⟩ [⟨2, 30, false⟩, ⟨1, 95, false⟩]).store
        ⟨3, 100, false⟩ [⟨2, 30, false⟩, ⟨1, 95, false⟩]).events
      (freshEvents (oneFileWalk 120 (by decide))
        [⟨3, 100, false⟩, ⟨2, 30, false⟩, ⟨1, 95, false⟩]) := by
  intro h
  exact absurd h.events (by decide +kernel)

/-- Where the chain passes the boundary at most once, every run replays what a fresh walk
would. -/
theorem sameReplay_of_ordered (config : CacheConfig) (store : Store Oid P) (tip : Commit Oid)
    (ancestors : List (Commit Oid)) (hnodup : ((tip :: ancestors).map (·.oid)).Nodup)
    (hstore : ∀ entry ∈ store, entry.isCompatible walk.fingerprint walk.shallow = true →
      Written walk (tip :: ancestors) entry)
    (hordered : (tip :: ancestors).Pairwise fun newer older =>
      walk.inCutoff older = true → walk.inCutoff newer = true) :
    SameReplay walk (buildCached walk config store tip ancestors).events
      (freshEvents walk (tip :: ancestors)) := by
  obtain ⟨kept, hcovers, hin, hevents, -⟩ := @buildCached_covers _ _ _ _ config _ _ _ hnodup
    fun entry hentry hcompatible => recorded_of_written hnodup (hstore entry hentry hcompatible)
  apply sameReplay_of_events
  rw [hevents, freshEvents_filter, ← hcovers.filter_eq_walk hordered, List.filter_eq_self.mpr hin]

end Runs

end BigCodeAnalysis.Vcs
