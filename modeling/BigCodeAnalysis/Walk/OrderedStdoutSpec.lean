import BigCodeAnalysis.Walk.OrderedStdout
import Mathlib.Algebra.Order.Group.Multiset
import Mathlib.Tactic.Abel

/-! The output of a walk over all interleavings. A document is always in exactly one place: in the
stream, with those handed over to be written without the lock, or held back in the buffer. Every
turn keeps that, and a slot leaves the buffer only behind all slots below it, so documents leave
in slot order until a slot is released behind a flush. Once all slots are released nothing is
held. -/

namespace BigCodeAnalysis.Walk

open Sequences

variable {D P : Type*}

/-- Distinct paths have distinct slots. -/
theorem orderedStdout_injective [DecidableEq P] {paths : List P} {slot : P → Option ℕ}
    (h : orderedStdout paths = some slot) {p q : P} (hp : p ∈ paths)
    (heq : slot p = slot q) : p = q := by
  rw [orderedStdout] at h
  split_ifs at h
  obtain rfl := Option.some.inj h
  obtain ⟨i, hi⟩ : ∃ i, paths.idxOf? p = some i :=
    Option.isSome_iff_exists.mp (by rw [List.isSome_idxOf?]; exact hp)
  have hqi : paths.idxOf? q = some i := heq.symm.trans hi
  obtain ⟨_, hpi, -⟩ := List.idxOf?_eq_some_iff.mp hi
  obtain ⟨_, hqi, -⟩ := List.idxOf?_eq_some_iff.mp hqi
  exact hpi.symm.trans hqi

/-! ### What the threads hand in -/

/-- The documents handed in, with their slots. -/
def submitted (events : List (Event D)) : List (Option ℕ × D) :=
  events.flatMap fun
    | .release slot document => (document.map (slot, ·)).toList
    | _ => []

/-- The slots released. -/
def releasedSlots (events : List (Event D)) : List ℕ :=
  events.flatMap fun
    | .release slot _ => slot.toList
    | _ => []

/-- No slot is released once the flush has run. -/
def FlushIsLast (events : List (Event D)) : Prop :=
  ∀ before after, events = before ++ .flush :: after → releasedSlots after = []

theorem FlushIsLast.init {events : List (Event D)} {e : Event D}
    (h : FlushIsLast (events ++ [e])) : FlushIsLast events := by
  rintro before after rfl
  have happend := h before (after ++ [e]) (by simp)
  rw [releasedSlots, List.flatMap_append] at happend
  exact (List.append_eq_nil_iff.mp happend).1

theorem FlushIsLast.not_mem {events : List (Event D)} {slot : ℕ} {document : Option D}
    (h : FlushIsLast (events ++ [.release (some slot) document])) : Event.flush ∉ events := by
  intro hmem
  obtain ⟨before, after, rfl⟩ := List.append_of_mem hmem
  have happend := h before (after ++ [.release (some slot) document]) (by simp)
  simp [releasedSlots] at happend

/-! ### Draining -/

theorem takeReady_spec (p : Pending D) :
    ∃ taken : List (ℕ × Option D),
      p.takeReady.1 = taken.filterMap (fun e => e.2.map (e.1, ·)) ∧
      p.documents.entries.Perm (taken ++ p.takeReady.2.documents.entries) ∧
      taken.map Prod.fst = List.range' p.next taken.length ∧
      p.takeReady.2.next = p.next + taken.length ∧
      p.takeReady.2.next ∉ p.takeReady.2.documents.keys := by
  induction p using Pending.takeReady.induct with
  | case1 p h =>
    rw [Pending.takeReady]
    split
    · refine ⟨[], rfl, .refl _, rfl, rfl, ?_⟩
      exact SortedMap.remove_eq_none.mp h
    · simp_all
  | case2 p document documents h ih =>
    obtain ⟨taken, hready, hperm, hkeys, hnext, hgap⟩ := ih
    have htake : p.takeReady =
        ((document.map (p.next, ·)).toList ++ (Pending.takeReady ⟨p.next + 1, documents⟩).1,
          (Pending.takeReady ⟨p.next + 1, documents⟩).2) := by
      rw [Pending.takeReady]
      split
      · simp_all
      · next document' documents' h' =>
        obtain ⟨rfl, rfl⟩ := Prod.mk.inj (Option.some.inj (h.symm.trans h'))
        rfl
    rw [htake]
    refine ⟨(p.next, document) :: taken, ?_, ?_, ?_, ?_, hgap⟩
    · rw [hready]
      cases document <;> rfl
    · exact (SortedMap.remove_perm h).trans (hperm.cons _)
    · rw [List.map_cons, hkeys, List.length_cons, List.range'_succ]
    · rw [hnext, List.length_cons]
      show p.next + 1 + taken.length = p.next + (taken.length + 1)
      omega

/-! ### Every document in one place -/

/-- The documents held back. -/
def Emission.buffered (s : Emission D) : List (Option ℕ × D) :=
  s.pending.documents.entries.filterMap fun e => e.2.map (some e.1, ·)

structure Accounted (events : List (Event D)) (s : Emission D) : Prop where
  whole : (s.stream ++ s.unordered ++ s.buffered).Perm (submitted events)
  ahead : ∀ k ∈ s.pending.documents.keys, s.pending.next < k
  known : ∀ k ∈ s.pending.documents.keys, k ∈ releasedSlots events
  covered : ∀ k ∈ releasedSlots events,
    k < s.pending.next ∨ k ∈ s.pending.documents.keys

/-- Taking keys consecutive from `next` leaves keys that are larger. -/
theorem keys_after_take {m m' : SortedMap ℕ (Option D)} {taken : List (ℕ × Option D)} {next : ℕ}
    (hperm : m.entries.Perm (taken ++ m'.entries))
    (hkeys : taken.map Prod.fst = List.range' next taken.length) (k : ℕ) :
    k ∈ m.keys ↔ (next ≤ k ∧ k < next + taken.length) ∨ k ∈ m'.keys := by
  rw [SortedMap.keys, (hperm.map Prod.fst).mem_iff, List.map_append, List.mem_append, hkeys,
    List.mem_range'_1, SortedMap.keys]

theorem not_taken {m m' : SortedMap ℕ (Option D)} {taken : List (ℕ × Option D)} {next : ℕ}
    (hperm : m.entries.Perm (taken ++ m'.entries))
    (hkeys : taken.map Prod.fst = List.range' next taken.length) {k : ℕ} (hk : k ∈ m'.keys) :
    ¬ (next ≤ k ∧ k < next + taken.length) := by
  intro hrange
  have hnodup : (m.entries.map Prod.fst).Nodup :=
    (List.pairwise_map.mpr m.sorted).imp fun hlt => hlt.ne
  rw [(hperm.map Prod.fst).nodup_iff, List.map_append, List.nodup_append] at hnodup
  refine hnodup.2.2 k ?_ k hk rfl
  rw [hkeys]
  exact List.mem_range'_1.mpr hrange

theorem submitted_append (events : List (Event D)) (e : Event D) :
    submitted (events ++ [e]) = submitted events ++ submitted [e] := by
  rw [submitted, List.flatMap_append]
  rfl

theorem releasedSlots_append (events : List (Event D)) (e : Event D) :
    releasedSlots (events ++ [e]) = releasedSlots events ++ releasedSlots [e] := by
  rw [releasedSlots, List.flatMap_append]
  rfl

/-- Documents handed over to be written without the lock. -/
theorem accounted_unordered {events : List (Event D)} {s : Emission D} (h : Accounted events s)
    {slot : Option ℕ} (document : Option D) (hslot : ∀ k ∈ slot, k < s.pending.next) :
    Accounted (events ++ [.release slot document])
      { s with unordered := s.unordered ++ (document.map (slot, ·)).toList } where
  whole := by
    rw [submitted_append]
    have hnew : submitted [Event.release slot document] = (document.map (slot, ·)).toList := by
      simp [submitted]
    rw [hnew]
    refine List.Perm.trans ?_ (h.whole.append_right _)
    simp only [Emission.buffered, List.append_assoc]
    exact (List.perm_append_comm.append_left _).append_left _
  ahead := h.ahead
  known := by
    intro k hk
    rw [releasedSlots_append]
    exact List.mem_append_left _ (h.known k hk)
  covered := by
    intro k hk
    rw [releasedSlots_append] at hk
    rcases List.mem_append.mp hk with hk | hk
    · exact h.covered k hk
    · exact .inl (hslot k (by simpa [releasedSlots] using hk))

/-- What is held for an entry of the buffer. -/
def placed (e : ℕ × Option D) : Option (Option ℕ × D) := e.2.map (some e.1, ·)

theorem map_filterMap_placed (taken : List (ℕ × Option D)) :
    (taken.filterMap fun e => e.2.map (e.1, ·)).map (fun e => (some e.1, e.2)) =
      taken.filterMap placed := by
  rw [List.map_filterMap]
  congr 1
  funext e
  rw [placed, Option.map_map]
  rfl

/-- What leaves the buffer joins the output, in whatever order the parts are listed. -/
theorem whole_drain {stream unordered held ready held' new all : List (Option ℕ × D)}
    (hwhole : (stream ++ unordered ++ held).Perm all) (hmove : (ready ++ held').Perm (new ++ held)) :
    (stream ++ ready ++ unordered ++ held').Perm (all ++ new) := by
  rw [← Multiset.coe_eq_coe] at *
  simp only [← Multiset.coe_add] at *
  calc (stream + ready + unordered + held' : Multiset (Option ℕ × D))
      = stream + unordered + (ready + held') := by abel
    _ = stream + unordered + held + new := by rw [hmove]; abel
    _ = all + new := by rw [hwhole]

theorem accounted_inOrder {events : List (Event D)} {s : Emission D} (h : Accounted events s)
    {index : ℕ} (document : Option D) (hfresh : index ∉ releasedSlots events)
    (hindex : ¬ index < s.pending.next) :
    Accounted (events ++ [.release (some index) document]) (s.release (some index) document) := by
  have habsent : index ∉ s.pending.documents.keys := fun hk => hfresh (h.known index hk)
  have hinsert := SortedMap.insert_perm document habsent
  have hkeys : ∀ k, k ∈ (s.pending.documents.insert index document).keys ↔
      k = index ∨ k ∈ s.pending.documents.keys := by
    intro k
    rw [SortedMap.keys, (hinsert.map Prod.fst).mem_iff, List.map_cons, List.mem_cons]
    rfl
  obtain ⟨taken, hready, hperm, hrange, hnext, hgap⟩ := takeReady_spec
    { s.pending with documents := s.pending.documents.insert index document }
  have hafter := keys_after_take hperm hrange
  have hreleased : releasedSlots (events ++ [.release (some index) document]) =
      releasedSlots events ++ [index] := by
    rw [releasedSlots_append]
    simp [releasedSlots]
  rw [Emission.release, if_neg hindex]
  refine ⟨?_, ?_, ?_, ?_⟩
  · rw [submitted_append]
    dsimp only
    rw [hready, map_filterMap_placed]
    have hnew : submitted [Event.release (some index) document] =
        (document.map (some index, ·)).toList := by simp [submitted]
    rw [hnew]
    refine whole_drain h.whole ?_
    have hmoved := (hperm.symm.trans hinsert).filterMap placed
    rw [List.filterMap_append, List.filterMap_cons] at hmoved
    cases document <;> exact hmoved
  · -- the drain stops at a gap, and nothing lies below it
    intro k hk
    have hle : s.pending.next ≤ k := by
      rcases (hkeys k).mp ((hafter k).mpr (.inr hk)) with rfl | hk
      · exact not_lt.mp hindex
      · exact (h.ahead k hk).le
    have hnot := not_taken hperm hrange hk
    have hne : k ≠ s.pending.next + taken.length := by
      rintro rfl
      exact hgap (hnext ▸ hk)
    dsimp only at hnot ⊢
    rw [hnext]
    dsimp only
    omega
  · intro k hk
    rw [hreleased]
    rcases (hkeys k).mp ((hafter k).mpr (.inr hk)) with rfl | hk
    · exact List.mem_append_right _ (List.mem_cons_self ..)
    · exact List.mem_append_left _ (h.known k hk)
  · intro k hk
    rw [hreleased] at hk
    have hk' : k < s.pending.next ∨ k ∈ (s.pending.documents.insert index document).keys := by
      rcases List.mem_append.mp hk with hk | hk
      · exact (h.covered k hk).imp_right fun hk => (hkeys k).mpr (.inr hk)
      · exact .inr ((hkeys k).mpr (.inl (List.mem_singleton.mp hk)))
    dsimp only
    rw [hnext]
    rcases hk' with hk' | hk'
    · left
      dsimp only
      omega
    · exact ((hafter k).mp hk').imp_left fun hk => hk.2

/-! ### The other turns -/

theorem accounted_write {events : List (Event D)} {s : Emission D} (h : Accounted events s)
    {n : ℕ} {e : Option ℕ × D} (he : s.unordered[n]? = some e) :
    Accounted (events ++ [.write n])
      { s with unordered := s.unordered.eraseIdx n, stream := s.stream ++ [e] } where
  whole := by
    rw [submitted_append]
    have hlt : n < s.unordered.length := (List.getElem?_eq_some_iff.mp he).1
    have hget : s.unordered[n] = e := (List.getElem?_eq_some_iff.mp he).2
    have hmove : (e :: s.unordered.eraseIdx n).Perm s.unordered := by
      rw [← hget]
      exact List.getElem_cons_eraseIdx_perm hlt
    refine List.Perm.trans ?_ (h.whole.append_right _)
    simp only [submitted, List.flatMap_cons, List.flatMap_nil, List.append_nil,
      List.append_assoc]
    refine List.Perm.append_left _ ?_
    exact hmove.append_right _
  ahead := h.ahead
  known := by
    intro k hk
    rw [releasedSlots_append]
    exact List.mem_append_left _ (h.known k hk)
  covered := by
    intro k hk
    rw [releasedSlots_append] at hk
    exact h.covered k (by simpa [releasedSlots] using hk)

/-- The flush moves past every slot held. -/
theorem takeAll_next {p : Pending D} (hahead : ∀ k ∈ p.documents.keys, p.next < k) :
    p.next ≤ p.takeAll.2.next ∧ ∀ k ∈ p.documents.keys, k < p.takeAll.2.next := by
  rw [Pending.takeAll]
  cases hlast : p.documents.entries.getLast? with
  | none =>
    have hnil : p.documents.entries = [] := List.getLast?_eq_none_iff.mp hlast
    refine ⟨le_rfl, fun k hk => ?_⟩
    rw [SortedMap.keys, hnil] at hk
    cases hk
  | some e =>
    obtain ⟨init, hinit⟩ := List.getLast?_eq_some_iff.mp hlast
    have hsorted := p.documents.sorted
    rw [hinit, List.pairwise_append] at hsorted
    have hle : ∀ k ∈ p.documents.keys, k ≤ e.1 := by
      intro k hk
      rw [SortedMap.keys, hinit] at hk
      obtain ⟨a, ha, rfl⟩ := List.mem_map.mp hk
      rcases List.mem_append.mp ha with ha | ha
      · exact (hsorted.2.2 a ha e (List.mem_cons_self ..)).le
      · rw [List.mem_singleton.mp ha]
    have hnext : p.next < e.1 := by
      apply hahead
      rw [SortedMap.keys, hinit]
      simp
    refine ⟨?_, fun k hk => Nat.lt_succ_of_le (hle k hk)⟩
    show p.next ≤ e.1 + 1
    omega

theorem accounted_flush {events : List (Event D)} {s : Emission D} (h : Accounted events s) :
    Accounted (events ++ [.flush]) s.flushRemaining where
  whole := by
    rw [submitted_append]
    have hdrain := whole_drain h.whole (by simp : (s.buffered ++ []).Perm ([] ++ s.buffered))
    rw [Emission.flushRemaining, Pending.takeAll, map_filterMap_placed]
    exact hdrain
  ahead := fun k hk => absurd hk List.not_mem_nil
  known := fun k hk => absurd hk List.not_mem_nil
  covered := by
    intro k hk
    obtain ⟨hle, hlt⟩ := takeAll_next h.ahead
    rw [releasedSlots_append] at hk
    rcases h.covered k (by simpa [releasedSlots] using hk) with hk | hk
    · exact .inl (hk.trans_le hle)
    · exact .inl (hlt k hk)

/-- One turn of any thread keeps every document in one place. -/
theorem accounted_step {events : List (Event D)} {s s' : Emission D} (h : Accounted events s)
    {e : Event D} (hstep : s.step e = some s')
    (hfresh : (releasedSlots (events ++ [e])).Nodup) : Accounted (events ++ [e]) s' := by
  cases e with
  | release slot document =>
    obtain rfl := Option.some.inj hstep
    cases slot with
    | none => exact accounted_unordered h document fun k hk => absurd hk (by simp)
    | some index =>
      by_cases hindex : index < s.pending.next
      · have hrelease := @accounted_unordered _ _ _ h (some index) document (by simpa using hindex)
        rw [Emission.release, if_pos hindex]
        exact hrelease
      · refine accounted_inOrder h document ?_ hindex
        rw [releasedSlots_append, List.nodup_append] at hfresh
        intro hmem
        exact hfresh.2.2 index hmem index (by simp [releasedSlots]) rfl
  | write n =>
    obtain ⟨e, he, rfl⟩ := Option.map_eq_some_iff.mp hstep
    exact accounted_write h he
  | flush =>
    obtain rfl := Option.some.inj hstep
    exact accounted_flush h

theorem releasedSlots_init_nodup {events : List (Event D)} {e : Event D}
    (h : (releasedSlots (events ++ [e])).Nodup) : (releasedSlots events).Nodup := by
  rw [releasedSlots_append] at h
  exact (List.nodup_append.mp h).1

theorem accounted_run (events : List (Event D)) (s : Emission D)
    (hrun : Emission.run events = some s) (hnodup : (releasedSlots events).Nodup) :
    Accounted events s := by
  refine runFrom_induction (fun events s => (releasedSlots events).Nodup → Accounted events s)
    ?_ ?_ events s hrun hnodup
  · intro _
    exact ⟨.refl _, fun k hk => absurd hk List.not_mem_nil,
      fun k hk => absurd hk List.not_mem_nil, fun k hk => absurd hk List.not_mem_nil⟩
  · intro events s e s' ih hstep hnodup
    exact accounted_step (ih (releasedSlots_init_nodup hnodup)) hstep hnodup

/-! ### Walk order -/

/-- The slots written, in the order they were written in. -/
def Emission.written (s : Emission D) : List ℕ := s.stream.filterMap Prod.fst

structure InOrder (events : List (Event D)) (s : Emission D) : Prop where
  sorted : s.written.Pairwise (· < ·)
  below : ∀ k ∈ s.written, k < s.pending.next
  plain : ∀ e ∈ s.unordered, e.1 = none
  passed : Event.flush ∉ events → ∀ k < s.pending.next, k ∈ releasedSlots events
  emptied : Event.flush ∈ events → s.pending.documents.entries = []

theorem filterMap_slots (l : List (ℕ × D)) :
    (l.map fun e => (some e.1, e.2)).filterMap Prod.fst = l.map Prod.fst := by
  rw [List.filterMap_map, ← List.filterMap_eq_map]
  rfl

theorem taken_slots_sublist (taken : List (ℕ × Option D)) :
    ((taken.filterMap fun e => e.2.map (e.1, ·)).map Prod.fst).Sublist (taken.map Prod.fst) := by
  induction taken with
  | nil => exact .refl _
  | cons e taken ih =>
    obtain ⟨k, document⟩ := e
    cases document with
    | none => exact ih.cons _
    | some d => exact ih.cons_cons _

/-- Slots written behind those below `next`. -/
theorem sorted_append {written slots : List ℕ} {next : ℕ} (hsorted : written.Pairwise (· < ·))
    (hbelow : ∀ k ∈ written, k < next) (hslots : slots.Pairwise (· < ·))
    (habove : ∀ k ∈ slots, next ≤ k) : (written ++ slots).Pairwise (· < ·) :=
  List.pairwise_append.mpr
    ⟨hsorted, hslots, fun a ha b hb => (hbelow a ha).trans_le (habove b hb)⟩

theorem inOrder_release {events : List (Event D)} {s : Emission D} (hs : Accounted events s)
    (h : InOrder events s) {index : ℕ} (document : Option D) (hflush : Event.flush ∉ events)
    (hfresh : index ∉ releasedSlots events) :
    InOrder (events ++ [.release (some index) document]) (s.release (some index) document) := by
  have hindex : ¬ index < s.pending.next := fun hlt => hfresh (h.passed hflush index hlt)
  have habsent : index ∉ s.pending.documents.keys := fun hk => hfresh (hs.known index hk)
  have hnoflush : Event.flush ∉ events ++ [Event.release (some index) document] := by
    simpa using hflush
  obtain ⟨taken, hready, hperm, hrange, hnext, -⟩ := takeReady_spec
    { s.pending with documents := s.pending.documents.insert index document }
  have hafter := keys_after_take hperm hrange
  dsimp only at hready hperm hrange hnext hafter
  have hslots := taken_slots_sublist taken
  rw [hrange] at hslots
  have hwritten : (s.release (some index) document).written =
      s.written ++ (taken.filterMap fun e => e.2.map (e.1, ·)).map Prod.fst := by
    rw [Emission.release, if_neg hindex, Emission.written, List.filterMap_append, filterMap_slots,
      hready]
    rfl
  have hpending : (s.release (some index) document).pending.next =
      s.pending.next + taken.length := by
    rw [Emission.release, if_neg hindex, ← hnext]
  refine ⟨?_, ?_, ?_, ?_, fun hmem => absurd hmem hnoflush⟩
  · rw [hwritten]
    exact sorted_append h.sorted h.below ((List.pairwise_lt_range' ..).sublist hslots)
      fun k hk => (List.mem_range'_1.mp (hslots.subset hk)).1
  · intro k hk
    rw [hwritten] at hk
    rw [hpending]
    rcases List.mem_append.mp hk with hk | hk
    · exact (h.below k hk).trans_le (Nat.le_add_right ..)
    · exact (List.mem_range'_1.mp (hslots.subset hk)).2
  · rw [Emission.release, if_neg hindex]
    exact h.plain
  · intro _ k hk
    rw [hpending] at hk
    rw [releasedSlots_append]
    by_cases hlt : k < s.pending.next
    · exact List.mem_append_left _ (h.passed hflush k hlt)
    · -- a slot drained now was held, or is the one released
      have hmem := (hafter k).mpr (.inl ⟨not_lt.mp hlt, hk⟩)
      rw [SortedMap.keys,
        ((SortedMap.insert_perm document habsent).map Prod.fst).mem_iff] at hmem
      rcases List.mem_cons.mp hmem with rfl | hmem
      · exact List.mem_append_right _ (by simp [releasedSlots])
      · exact List.mem_append_left _ (hs.known k hmem)

theorem inOrder_flush {events : List (Event D)} {s : Emission D} (hs : Accounted events s)
    (h : InOrder events s) : InOrder (events ++ [.flush]) s.flushRemaining := by
  have hflush : Event.flush ∈ events ++ [Event.flush (D := D)] := by simp
  obtain ⟨hle, hlt⟩ := takeAll_next hs.ahead
  have hslots := taken_slots_sublist s.pending.documents.entries
  have hkeys : (s.pending.documents.entries.map Prod.fst).Pairwise (· < ·) :=
    List.pairwise_map.mpr s.pending.documents.sorted
  have hwritten : s.flushRemaining.written = s.written ++
      (s.pending.documents.entries.filterMap fun e => e.2.map (e.1, ·)).map Prod.fst := by
    rw [Emission.flushRemaining, Emission.written, List.filterMap_append, filterMap_slots]
    rfl
  refine ⟨?_, ?_, h.plain, fun hno => absurd hflush hno, fun _ => rfl⟩
  · rw [hwritten]
    exact sorted_append h.sorted h.below (hkeys.sublist hslots)
      fun k hk => (hs.ahead k (hslots.subset hk)).le
  · intro k hk
    rw [hwritten] at hk
    rcases List.mem_append.mp hk with hk | hk
    · exact (h.below k hk).trans_le hle
    · exact hlt k (hslots.subset hk)

/-- A turn that leaves the buffer alone and writes no slot. -/
theorem inOrder_unordered {events : List (Event D)} {s : Emission D} (h : InOrder events s)
    {e : Event D} {unordered stream : List (Option ℕ × D)} (hflush : e ≠ .flush)
    (hunordered : ∀ d ∈ unordered, d.1 = none)
    (hstream : stream.filterMap Prod.fst = s.written) :
    InOrder (events ++ [e]) { s with unordered, stream } := by
  have hmem : Event.flush ∈ events ++ [e] ↔ Event.flush ∈ events := by
    simp [Ne.symm hflush]
  refine ⟨?_, ?_, hunordered, ?_, fun hin => h.emptied (hmem.mp hin)⟩
  · rw [Emission.written, hstream]
    exact h.sorted
  · intro k hk
    rw [Emission.written, hstream] at hk
    exact h.below k hk
  · intro hno k hk
    rw [releasedSlots_append]
    exact List.mem_append_left _ (h.passed (mt hmem.mpr hno) k hk)

theorem inOrder_step {events : List (Event D)} {s s' : Emission D} (hs : Accounted events s)
    (h : InOrder events s) {e : Event D} (hstep : s.step e = some s')
    (hfresh : (releasedSlots (events ++ [e])).Nodup) (hlast : FlushIsLast (events ++ [e])) :
    InOrder (events ++ [e]) s' := by
  cases e with
  | release slot document =>
    obtain rfl := Option.some.inj hstep
    cases slot with
    | none =>
      refine inOrder_unordered h (by simp) ?_ rfl
      intro d hd
      rcases List.mem_append.mp hd with hd | hd
      · exact h.plain d hd
      · cases document with
        | none => cases hd
        | some document => rw [List.mem_singleton.mp hd]
    | some index =>
      apply inOrder_release hs h document hlast.not_mem
      rw [releasedSlots_append, List.nodup_append] at hfresh
      intro hmem
      exact hfresh.2.2 index hmem index (by simp [releasedSlots]) rfl
  | write n =>
    obtain ⟨e, he, rfl⟩ := Option.map_eq_some_iff.mp hstep
    refine inOrder_unordered h (by simp)
      (fun d hd => h.plain d (List.mem_of_mem_eraseIdx hd)) ?_
    have hplain : e.1 = none := h.plain e (List.mem_of_getElem? he)
    rw [List.filterMap_append, List.filterMap_cons, hplain]
    exact List.append_nil _
  | flush =>
    obtain rfl := Option.some.inj hstep
    exact inOrder_flush hs h

theorem inOrder_run (events : List (Event D)) (s : Emission D)
    (hrun : Emission.run events = some s) (hnodup : (releasedSlots events).Nodup)
    (hlast : FlushIsLast events) : InOrder events s := by
  have hboth := runFrom_induction
    (fun events s => (releasedSlots events).Nodup → FlushIsLast events →
      Accounted events s ∧ InOrder events s) ?_ ?_ events s hrun hnodup hlast
  · exact hboth.2
  · intro _ _
    refine ⟨accounted_run [] _ rfl List.nodup_nil, ?_⟩
    exact ⟨.nil, fun k hk => absurd hk List.not_mem_nil, fun e he => absurd he List.not_mem_nil,
      fun _ k hk => absurd hk (Nat.not_lt_zero k), fun hmem => absurd hmem List.not_mem_nil⟩
  · intro events s e s' ih hstep hnodup hlast
    obtain ⟨hs, h⟩ := ih (releasedSlots_init_nodup hnodup) hlast.init
    exact ⟨accounted_step hs hstep hnodup, inOrder_step hs h hstep hnodup hlast⟩

/-! ### The whole output -/

/-- With every slot released the buffer is empty. -/
theorem nothing_held {events : List (Event D)} {s : Emission D} (h : Accounted events s) {n : ℕ}
    (hbound : ∀ k ∈ releasedSlots events, k < n) (hall : ∀ k < n, k ∈ releasedSlots events) :
    s.pending.documents.entries = [] := by
  cases hentries : s.pending.documents.entries with
  | nil => rfl
  | cons e entries =>
    have hk : e.1 ∈ s.pending.documents.keys := by
      rw [SortedMap.keys, hentries]
      exact List.mem_cons_self ..
    have hnext : s.pending.next < n := (h.ahead _ hk).trans (hbound _ (h.known _ hk))
    rcases h.covered _ (hall _ hnext) with hlt | hmem
    · exact absurd hlt (lt_irrefl _)
    · exact absurd (h.ahead _ hmem) (lt_irrefl _)

/-- Every document handed in is in one place. Once the pending writes are through, each has been
written once, if all slots were released or the flush came last; and while no slot is released
behind a flush, slots are written in walk order. -/
theorem run_emits (n : ℕ) (events : List (Event D)) (s : Emission D)
    (hrun : Emission.run events = some s) (hnodup : (releasedSlots events).Nodup)
    (hbound : ∀ k ∈ releasedSlots events, k < n) :
    (s.stream ++ s.unordered ++ s.buffered).Perm (submitted events) ∧
    (s.unordered = [] →
      (∀ k < n, k ∈ releasedSlots events) ∨ (Event.flush ∈ events ∧ FlushIsLast events) →
      s.stream.Perm (submitted events)) ∧
    (FlushIsLast events → s.written.Pairwise (· < ·)) := by
  have h := accounted_run events s hrun hnodup
  refine ⟨h.whole, ?_, fun hlast => (inOrder_run events s hrun hnodup hlast).sorted⟩
  intro hunordered hcase
  have hempty : s.pending.documents.entries = [] := by
    rcases hcase with hall | ⟨hflush, hlast⟩
    · exact nothing_held h hbound hall
    · exact (inOrder_run events s hrun hnodup hlast).emptied hflush
  have hwhole := h.whole
  rw [hunordered, Emission.buffered, hempty, List.append_nil, List.filterMap_nil,
    List.append_nil] at hwhole
  exact hwhole

/-- Two files, the second one done first, and the flush at the end. -/
def inTime : List (Event String) :=
  [.release (some 1) (some "second"), .release none (some "aside"),
    .release (some 0) (some "first"), .write 0, .flush]

theorem run_emits_inTime : ∃ s, Emission.run inTime = some s ∧
    s.stream.Perm (submitted inTime) ∧ s.written.Pairwise (· < ·) := by
  obtain ⟨s, hs⟩ : ∃ s, Emission.run inTime = some s :=
    Option.isSome_iff_exists.mp (by decide +kernel)
  have hunordered : s.unordered = [] := by
    have hempty : (Emission.run inTime).map (·.unordered) = some [] := by decide +kernel
    rw [hs] at hempty
    exact Option.some.inj hempty
  have hall : ∀ k < 2, k ∈ releasedSlots inTime := by decide
  have hlast : FlushIsLast inTime := by
    intro before after heq
    have hafter : after = [] := by
      rcases before with _ | ⟨_, _ | ⟨_, _ | ⟨_, _ | ⟨_, _ | ⟨_, before⟩⟩⟩⟩⟩ <;>
        simp [inTime] at heq
      exact heq.2.2.2.2
    rw [hafter]
    rfl
  have h := run_emits 2 inTime s hs (by decide) (by decide)
  exact ⟨s, hs, h.2.1 hunordered (.inl hall), h.2.2 hlast⟩

/-- The second of two files is done, the flush runs, and only then the first file follows. -/
def lateFirst : List (Event String) :=
  [.release (some 1) (some "second"), .flush, .release (some 0) (some "first"), .write 0]

/-- The flush runs before the second file is done, and the first is never released. -/
def missedFlush : List (Event String) := [.flush, .release (some 1) (some "second")]

/-- A release behind the flush can come out of order, and can stay in the buffer. -/
theorem late_release_reordered_or_lost :
    (¬ ∀ (n : ℕ) (events : List (Event String)) (s : Emission String),
      Emission.run events = some s → (releasedSlots events).Nodup →
      (∀ k ∈ releasedSlots events, k < n) → Event.flush ∈ events → s.unordered = [] →
      (∀ k < n, k ∈ releasedSlots events) → s.written.Pairwise (· < ·)) ∧
    (¬ ∀ (n : ℕ) (events : List (Event String)) (s : Emission String),
      Emission.run events = some s → (releasedSlots events).Nodup →
      (∀ k ∈ releasedSlots events, k < n) → Event.flush ∈ events → s.unordered = [] →
      s.stream.Perm (submitted events)) := by
  constructor
  · intro h
    obtain ⟨s, hs⟩ : ∃ s, Emission.run lateFirst = some s :=
      Option.isSome_iff_exists.mp (by decide +kernel)
    have hrun : (Emission.run lateFirst).map (fun s => (s.unordered, s.written)) =
        some ([], [1, 0]) := by decide +kernel
    rw [hs] at hrun
    obtain ⟨hunordered, hwritten⟩ := Prod.mk.inj (Option.some.inj hrun)
    have hsorted := h 2 lateFirst s hs (by decide) (by decide) (by simp [lateFirst]) hunordered
      (by decide)
    rw [hwritten] at hsorted
    exact absurd hsorted (by decide)
  · intro h
    obtain ⟨s, hs⟩ : ∃ s, Emission.run missedFlush = some s :=
      Option.isSome_iff_exists.mp (by decide +kernel)
    have hrun : (Emission.run missedFlush).map (fun s => (s.unordered, s.stream)) =
        some ([], []) := by decide +kernel
    rw [hs] at hrun
    obtain ⟨hunordered, hstream⟩ := Prod.mk.inj (Option.some.inj hrun)
    have hperm := h 2 missedFlush s hs (by decide) (by decide) (by simp [missedFlush]) hunordered
    rw [hstream] at hperm
    exact absurd hperm.length_eq (by decide)

end BigCodeAnalysis.Walk
