import BigCodeAnalysis.Vcs.Replay
import Mathlib

/-! The name a touched file carries at the target ref: the renames of the newer commits
applied one commit at a time, in the order they were made. The flat table of the replay forgets
when a name was given away, so each link the walk follows is the oldest rename of its name. As long
as no name on the file's way was given away before the file took it, the links are the file's own
renames, and the walk ends at the first name the file takes a second time, or else at its last
one. -/

namespace BigCodeAnalysis.Vcs

open Sequences

variable {Oid P : Type*} [DecidableEq P]

/-- The file's name after the `newer` commits, the oldest of them first. -/
def carried (newer : List (CommitEvent Oid P)) (location : P) : P :=
  newer.foldl (fun path event => (event.renameMap path).getD path) location

/-- The credits to the names carried at the target ref. -/
def carriedCalls (windows : Windows) (now : ℤ) (newer : List (CommitEvent Oid P)) :
    List (CommitEvent Oid P) → List (List (P × ℕ) × FoldContext)
  | [] => []
  | event :: events =>
    (event.touched.map fun t => (carried newer t.1, t.2), foldContext windows now event) ::
      carriedCalls windows now (event :: newer) events

/-- The names the file takes on later, up to the first it had before, each with the commits from
the one that gave it the name back to the first of `seen`. The file had the names `left`. -/
def stations : List (CommitEvent Oid P) → List P → P → List (CommitEvent Oid P) →
    List (P × List (CommitEvent Oid P))
  | _, _, _, [] => []
  | seen, left, path, event :: newer =>
    match event.renameMap path with
    | none => stations (event :: seen) left path newer
    | some name =>
      if name ∈ path :: left then []
      else (name, event :: seen) :: stations (event :: seen) (path :: left) name newer

/-- The first name the file takes although it had it before. -/
def takenAgain : List P → P → List (CommitEvent Oid P) → Option P
  | _, _, [] => none
  | left, path, event :: newer =>
    match event.renameMap path with
    | none => takenAgain left path newer
    | some name => if name ∈ path :: left then some name else takenAgain (path :: left) name newer

/-- No commit between the one that touched the file and the one that gave it a name for the first
time gives that name away, both included, and the way is not too long for the walk. -/
def NotReused (event : CommitEvent Oid P) (newer : List (CommitEvent Oid P)) (location : P) :
    Prop :=
  (∀ s ∈ (location, [event]) :: stations [event] [] location newer,
      ∀ e ∈ s.2, e.renameMap s.1 = none) ∧
    (stations [event] [] location newer).length + (takenAgain [] location newer).toList.length ≤
      maxAliasDepth

instance (event : CommitEvent Oid P) (newer : List (CommitEvent Oid P)) (location : P) :
    Decidable (NotReused event newer location) :=
  inferInstanceAs (Decidable (_ ∧ _))

/-- The first name the file takes a second time is its last one. -/
def EndsWhereItReturns (newer : List (CommitEvent Oid P)) (location : P) : Prop :=
  ∀ name ∈ takenAgain [] location newer, name = carried newer location

instance (newer : List (CommitEvent Oid P)) (location : P) :
    Decidable (EndsWhereItReturns newer location) :=
  inferInstanceAs (Decidable (∀ name ∈ _, _))

def NamesKept (event : CommitEvent Oid P) (newer : List (CommitEvent Oid P)) (location : P) :
    Prop :=
  NotReused event newer location ∧ EndsWhereItReturns newer location

instance (event : CommitEvent Oid P) (newer : List (CommitEvent Oid P)) (location : P) :
    Decidable (NamesKept event newer location) :=
  inferInstanceAs (Decidable (_ ∧ _))

theorem firstRename_append (seen newer : List (CommitEvent Oid P)) {x : P}
    (h : ∀ e ∈ seen, e.renameMap x = none) :
    firstRename (seen.reverse ++ newer) x = firstRename newer x := by
  have hnone : seen.reverse.findSome? (·.renameMap x) = none :=
    List.findSome?_eq_none_iff.mpr fun e he => h e (List.mem_reverse.mp he)
  rw [firstRename, firstRename, List.findSome?_append, hnone, Option.none_or]

/-- Along a way whose names were not reused, the table leads from name to name. -/
theorem leads_stations (newer : List (CommitEvent Oid P)) :
    ∀ (seen : List (CommitEvent Oid P)) (left : List P) (path : P), path ∉ left →
      (∀ e ∈ seen, e.renameMap path = none) →
      (∀ s ∈ stations seen left path newer, ∀ e ∈ s.2, e.renameMap s.1 = none) →
      ∃ xs z, Leads (firstRename (seen.reverse ++ newer)) path xs z ∧ xs.Nodup ∧
        (∀ x ∈ xs, x ∉ left) ∧
        xs.length = (stations seen left path newer).length +
          (takenAgain left path newer).toList.length ∧
        z = (takenAgain left path newer).getD (carried newer path) ∧
        (z ∈ xs ∨ z ∈ left ∨ firstRename (seen.reverse ++ newer) z = none) := by
  induction newer with
  | nil =>
    intro seen left path _ hpath _
    exact ⟨[], path, .here path, List.nodup_nil, by simp, rfl, rfl,
      .inr (.inr (firstRename_append seen [] hpath))⟩
  | cons event newer ih =>
    intro seen left path hleft hpath hstations
    have hsplit : (event :: seen).reverse ++ newer = seen.reverse ++ event :: newer := by simp
    rw [stations] at hstations ⊢
    rw [takenAgain]
    cases hname : event.renameMap path with
    | none =>
      have hpath' : ∀ e ∈ event :: seen, e.renameMap path = none := by
        simpa [hname] using hpath
      have hcarried : carried (event :: newer) path = carried newer path := by
        simp [carried, hname]
      rw [hname] at hstations
      rw [hcarried, ← hsplit]
      exact ih (event :: seen) left path hleft hpath' hstations
    | some name =>
      have hcarried : carried (event :: newer) path = carried newer name := by
        simp [carried, hname]
      have hfirst : firstRename (seen.reverse ++ event :: newer) path = some name := by
        rw [firstRename_append seen _ hpath, firstRename, List.findSome?_cons, hname]
      rw [hname] at hstations
      dsimp only at hstations ⊢
      by_cases hagain : name ∈ path :: left
      · rw [if_pos hagain, if_pos hagain]
        refine ⟨[path], name, .step hfirst (.here name), List.nodup_singleton _,
          by simpa using hleft, rfl, rfl, ?_⟩
        rcases List.mem_cons.mp hagain with rfl | hmem
        · exact .inl (List.mem_singleton_self _)
        · exact .inr (.inl hmem)
      · rw [if_neg hagain] at hstations
        rw [if_neg hagain, if_neg hagain, hcarried]
        obtain ⟨xs, z, hleads, hnodup, hfresh, hlength, hz, hend⟩ :=
          ih (event :: seen) (path :: left) name hagain (hstations _ (List.mem_cons_self ..))
            fun s hs => hstations s (List.mem_cons_of_mem _ hs)
        rw [hsplit] at hleads hend
        have hpathxs : path ∉ xs := fun hx => hfresh path hx (List.mem_cons_self ..)
        refine ⟨path :: xs, z, .step hfirst hleads, List.nodup_cons.mpr ⟨hpathxs, hnodup⟩, ?_, ?_,
          hz, ?_⟩
        · intro x hx
          rcases List.mem_cons.mp hx with rfl | hx
          · exact hleft
          · exact fun hmem => hfresh x hx (List.mem_cons_of_mem _ hmem)
        · rw [List.length_cons, List.length_cons, hlength]
          omega
        · rcases hend with h | h | h
          · exact .inl (List.mem_cons_of_mem _ h)
          · rcases List.mem_cons.mp h with rfl | h
            · exact .inl (List.mem_cons_self ..)
            · exact .inr (.inl h)
          · exact .inr (.inr h)

/-- Where no name was reused, the table leads to the first name the file takes again, or else to
the carried one. -/
theorem resolveAlias_of_notReused {event : CommitEvent Oid P} {newer : List (CommitEvent Oid P)}
    {location : P} (h : NotReused event newer location) :
    resolveAlias (firstRename (event :: newer)) location =
      (takenAgain [] location newer).getD (carried newer location) := by
  obtain ⟨hkept, hdepth⟩ := h
  obtain ⟨xs, z, hleads, hnodup, -, hlength, hz, hend⟩ := leads_stations newer [event] [] location
    List.not_mem_nil (hkept _ (List.mem_cons_self ..)) fun s hs =>
      hkept s (List.mem_cons_of_mem _ hs)
  rw [← hz]
  apply follow_of_rests
  refine ⟨xs, hleads, hnodup, hlength ▸ hdepth, ?_⟩
  rcases hend with h | h | h
  · exact .inl h
  · cases h
  · exact .inr (.inl h)

theorem resolveAlias_eq_carried_iff {event : CommitEvent Oid P}
    {newer : List (CommitEvent Oid P)} {location : P} (h : NotReused event newer location) :
    resolveAlias (firstRename (event :: newer)) location = carried newer location ↔
      EndsWhereItReturns newer location := by
  rw [resolveAlias_of_notReused h, EndsWhereItReturns]
  cases takenAgain [] location newer <;> simp

/-- `p` holds of every file the `events` touch. `newer` are the commits made after them, the last
one first. -/
def ForTouched (p : CommitEvent Oid P → List (CommitEvent Oid P) → P → Prop) :
    List (CommitEvent Oid P) → List (CommitEvent Oid P) → Prop
  | _, [] => True
  | newer, event :: events =>
    (∀ t ∈ event.touched, p event newer t.1) ∧ ForTouched p (event :: newer) events

section ForTouched
variable {p q r : CommitEvent Oid P → List (CommitEvent Oid P) → P → Prop}

omit [DecidableEq P] in
theorem ForTouched.congr (h : ∀ event newer location, p event newer location →
    (q event newer location ↔ r event newer location)) (events : List (CommitEvent Oid P)) :
    ∀ newer, ForTouched p newer events → (ForTouched q newer events ↔ ForTouched r newer events) := by
  induction events with
  | nil => exact fun _ _ => Iff.rfl
  | cons event events ih =>
    rintro newer ⟨hevent, hevents⟩
    exact and_congr (forall₂_congr fun t ht => h event newer t.1 (hevent t ht))
      (ih (event :: newer) hevents)

omit [DecidableEq P] in
theorem ForTouched.imp (h : ∀ event newer location, p event newer location →
    q event newer location) (events : List (CommitEvent Oid P)) :
    ∀ newer, ForTouched p newer events → ForTouched q newer events := by
  induction events with
  | nil => exact fun _ _ => trivial
  | cons event events ih =>
    rintro newer ⟨hevent, hevents⟩
    exact ⟨fun t ht => h event newer t.1 (hevent t ht), ih (event :: newer) hevents⟩

end ForTouched

/-- The credits agree as far as they agree file by file. -/
theorem tableCalls_eq_carriedCalls_iff (windows : Windows) (now : ℤ)
    (events : List (CommitEvent Oid P)) :
    ∀ newer, tableCalls windows now newer events = carriedCalls windows now newer events ↔
      ForTouched (fun event newer location =>
        resolveAlias (firstRename (event :: newer)) location = carried newer location) newer
        events := by
  induction events with
  | nil => exact fun _ => iff_of_true rfl trivial
  | cons event events ih =>
    intro newer
    rw [tableCalls, carriedCalls, List.cons.injEq, Prod.mk.injEq, ih (event :: newer), ForTouched]
    simp [List.map_inj_left]

/-- Where all names were kept, every fold of the credits is the fold of the carried ones. Among the
histories that reuse no name of a way, those are all that credit the carried names. -/
theorem replay_of_namesKept (windows : Windows) (now : ℤ) (events : List (CommitEvent Oid P)) :
    (ForTouched NamesKept [] (events.filter (·.inWindow windows now)) →
      ∀ {σ : Type} (foldCommit : List (P × ℕ) → FoldContext → σ → σ) (seed : σ),
        replay foldCommit windows now seed events =
          (carriedCalls windows now [] (events.filter (·.inWindow windows now))).foldl
            (fun folded call => foldCommit call.1 call.2 folded) seed) ∧
    (ForTouched NotReused [] (events.filter (·.inWindow windows now)) →
      (replayCalls windows now events =
          carriedCalls windows now [] (events.filter (·.inWindow windows now)) ↔
        ForTouched (fun _ => EndsWhereItReturns) [] (events.filter (·.inWindow windows now)))) := by
  constructor
  · intro hkept σ foldCommit seed
    have hcalls : tableCalls windows now [] (events.filter (·.inWindow windows now)) =
        carriedCalls windows now [] (events.filter (·.inWindow windows now)) := by
      rw [tableCalls_eq_carriedCalls_iff]
      refine ForTouched.imp (fun event newer location h => ?_) _ _ hkept
      exact (resolveAlias_eq_carried_iff h.1).mpr h.2
    rw [replay_eq_tableCalls, hcalls]
  · intro hreused
    rw [replayCalls_eq, tableCalls_eq_carriedCalls_iff]
    exact ForTouched.congr (fun event newer location h => resolveAlias_eq_carried_iff h) _ _ hreused

/-- `a` became `b`, and `a` again. -/
def renamedBack : List (CommitEvent ℕ String) :=
  [⟨3, 30, ["x"], false, false, false, [("b", "a")], [("a", 1)]⟩,
   ⟨2, 20, ["x"], false, false, false, [("a", "b")], [("c", 2)]⟩,
   ⟨1, 10, ["x"], false, false, false, [], [("a", 5)]⟩]

theorem renamedBack_namesKept :
    ForTouched NamesKept [] (renamedBack.filter (·.inWindow ⟨100, 10⟩ 40)) := by
  have hall : renamedBack.filter (·.inWindow ⟨100, 10⟩ 40) = renamedBack := by decide +kernel
  rw [hall]
  refine ⟨?_, ?_, ?_, trivial⟩ <;> decide +kernel

theorem replay_of_namesKept_renamedBack :
    (∀ seed : ℕ, replay (fun touched _ churn => churn + (touched.map Prod.snd).sum) ⟨100, 10⟩ 40 seed
        renamedBack =
      (carriedCalls ⟨100, 10⟩ 40 [] (renamedBack.filter (·.inWindow ⟨100, 10⟩ 40))).foldl
        (fun churn call => churn + (call.1.map Prod.snd).sum) seed) ∧
    replayCalls ⟨100, 10⟩ 40 renamedBack =
      carriedCalls ⟨100, 10⟩ 40 [] (renamedBack.filter (·.inWindow ⟨100, 10⟩ 40)) := by
  constructor
  · exact (replay_of_namesKept ⟨100, 10⟩ 40 renamedBack).1 renamedBack_namesKept _
  · apply ((replay_of_namesKept ⟨100, 10⟩ 40 renamedBack).2 _).mpr
    · exact ForTouched.imp (fun _ _ _ h => h.2) _ _ renamedBack_namesKept
    · exact ForTouched.imp (fun _ _ _ h => h.1) _ _ renamedBack_namesKept

/-- `b` became `c`, then `a` became `b`. -/
def reusedName : List (CommitEvent ℕ String) :=
  [⟨3, 30, ["x"], false, false, false, [("a", "b")], [("b", 1)]⟩,
   ⟨2, 20, ["x"], false, false, false, [("b", "c")], [("c", 1)]⟩,
   ⟨1, 10, ["x"], false, false, false, [], [("a", 5)]⟩]

/-- The churn of `a`, the file now called `b`, goes to `c`. -/
theorem reusedName_credits_other_file :
    replayCalls ⟨100, 10⟩ 40 reusedName ≠
      carriedCalls ⟨100, 10⟩ 40 [] (reusedName.filter (·.inWindow ⟨100, 10⟩ 40)) := by
  decide +kernel

end BigCodeAnalysis.Vcs
