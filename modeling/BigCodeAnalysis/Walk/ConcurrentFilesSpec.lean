import BigCodeAnalysis.Walk.ConcurrentFiles
import Mathlib.Algebra.Order.BigOperators.Group.List
import Mathlib.Data.List.Infix

/-! All runs of the worker pool. The channel is first in, first out, so a stop marker is taken
behind every path, and a marker is left for every worker that has not ended. The invariant says
this of every stage of the calling thread and is kept by every turn of every thread. Every turn is
also progress by one measure, so runs are bounded, and as long as work is left someone can take a
turn. -/

namespace BigCodeAnalysis.Walk

open Sequences
open scoped List

variable {P : Type*} (r : ConcurrentRunner P) (paths : List P)

/-- The messages of a dispatch with `markers` stop markers behind it. -/
def messages (markers : ℕ) : List (Option P) :=
  (r.admitted paths).map some ++ List.replicate markers none

/-- What joining these workers reports. -/
def joinFailures (workers : List (Worker P)) : List ConcurrentErrors :=
  (workers.filter Worker.isPanicked).map fun _ => .receiver Pool.panicMessage

/-- The first of the failures, if any. -/
def firstFailure : List ConcurrentErrors → Except ConcurrentErrors Unit
  | [] => .ok ()
  | e :: _ => .error e

/-- What has been done when the calling thread is at a stage. -/
def StageHolds (s : Pool P) : Prop :=
  match s.stage with
  | .spawning => s.sent = [] ∧ s.failures = [] ∧ s.workers.length ≤ r.numJobs
  | .dispatching rest =>
    (∃ done, done ++ rest = paths ∧ s.sent = (r.admitted done).map some) ∧ s.failures = [] ∧
      s.workers.length = r.numJobs
  | .poisoning left =>
    (left ≤ r.numJobs ∧ s.sent = messages r paths (r.numJobs - left)) ∧ s.failures = [] ∧
      s.workers.length = r.numJobs
  | .joining next =>
    s.sent = messages r paths r.numJobs ∧ s.failures = joinFailures (s.workers.take next) ∧
      s.workers.length = r.numJobs ∧ ∀ worker ∈ s.workers.take next, worker.isDone
  | .returned =>
    (s.sent = [] ∧ s.failures = [.thread]) ∨
      (s.sent = messages r paths r.numJobs ∧ s.failures = joinFailures s.workers ∧
        s.workers.length = r.numJobs ∧ ∀ worker ∈ s.workers, worker.isDone)

structure Sound (s : Pool P) : Prop where
  fifo : s.received.map Prod.snd ++ s.queue = s.sent
  stopped : s.received.countP (fun e => e.2.isNone) = s.workers.countP Worker.isStopped
  marker : ∀ w, s.received.countP (fun e => e.1 = w ∧ e.2.isNone) =
    (s.workers[w]?.toList).countP Worker.isStopped
  attached : Worker.disconnected ∈ s.workers → s.failures = [.thread]
  first : s.result = firstFailure s.failures
  stage : StageHolds r paths s

variable {r paths}

/-! ### The calling thread -/

/-- As long as `run` has not returned, it holds a receiving end itself. -/
theorem send_eq {s : Pool P} (h : s.stage ≠ .returned) (message : Option P) :
    s.send message = some { s with queue := s.queue ++ [message], sent := s.sent ++ [message] } := by
  rw [Pool.send, if_neg]
  unfold Pool.receivers
  split
  · contradiction
  · omega

theorem firstFailure_append (failures : List ConcurrentErrors) (e : ConcurrentErrors) :
    firstFailure (failures ++ [e]) =
      match firstFailure failures with
      | .ok _ => .error e
      | .error first => .error first := by
  cases failures <;> rfl

/-- A turn of the calling thread that takes nothing from the channel. -/
theorem sound_main {s s' : Pool P} (h : Sound r paths s)
    (hfifo : s'.received.map Prod.snd ++ s'.queue = s'.sent) (hreceived : s'.received = s.received)
    (hworkers : s'.workers = s.workers ∨ s'.workers = s.workers ++ [.waiting])
    (hattached : s.failures = [.thread] → s'.failures = [.thread])
    (hfirst : s'.result = firstFailure s'.failures) (hstage : StageHolds r paths s') :
    Sound r paths s' := by
  refine ⟨hfifo, ?_, ?_, ?_, hfirst, hstage⟩
  · rw [hreceived, h.stopped]
    rcases hworkers with hw | hw
    · rw [hw]
    · rw [hw, List.countP_append]
      rfl
  · intro w
    rw [hreceived, h.marker w]
    rcases hworkers with hw | hw
    · rw [hw]
    · rw [hw]
      rcases lt_trichotomy w s.workers.length with hlt | rfl | hgt
      · rw [List.getElem?_append_left hlt]
      · simp [Worker.isStopped]
      · have hlength : (s.workers ++ [Worker.waiting]).length ≤ w := by
          rw [List.length_append]
          exact hgt
        rw [List.getElem?_eq_none hgt.le, List.getElem?_eq_none hlength]
  · intro hmem
    apply hattached
    apply h.attached
    rcases hworkers with hw | hw
    · rwa [hw] at hmem
    · rw [hw] at hmem
      simpa using hmem

theorem admitted_append (done : List P) (path : P) :
    r.admitted (done ++ [path]) =
      r.admitted done ++ if r.verifyPaths && !r.isFile path then [] else [path] := by
  rw [ConcurrentRunner.admitted, List.filter_append]
  congr 1
  cases h : r.verifyPaths && !r.isFile path <;>
    simp only [List.filter_cons, List.filter_nil, h] <;> rfl

theorem messages_succ {left : ℕ} (hleft : left + 1 ≤ r.numJobs) :
    messages r paths (r.numJobs - left) = messages r paths (r.numJobs - (left + 1)) ++ [none] := by
  have hsucc : r.numJobs - left = r.numJobs - (left + 1) + 1 := by omega
  rw [messages, messages, hsucc, List.replicate_succ', List.append_assoc]

theorem joinFailures_take {workers : List (Worker P)} {next : ℕ} {worker : Worker P}
    (h : workers[next]? = some worker) :
    joinFailures (workers.take (next + 1)) = joinFailures (workers.take next) ++
      if worker.isPanicked then [.receiver Pool.panicMessage] else [] := by
  rw [List.take_add_one, h, joinFailures, List.filter_append, List.map_append, joinFailures]
  cases hp : worker.isPanicked <;> simp [hp]

/-- One turn of the calling thread. -/
theorem sound_mainStep {s s' : Pool P} (h : Sound r paths s) {spawned : Bool}
    (hstep : Pool.mainStep r paths spawned s = some s') : Sound r paths s' := by
  have hstage := h.stage
  unfold StageHolds at hstage
  unfold Pool.mainStep at hstep
  split at hstep
  · -- spawning
    next hs =>
    rw [hs] at hstage
    obtain ⟨hsent, hfailures, hlength⟩ := hstage
    split_ifs at hstep with hlt hspawned
    · obtain rfl := Option.some.inj hstep
      refine sound_main h h.fifo rfl (.inr rfl) id h.first ?_
      rw [StageHolds, hs]
      refine ⟨hsent, hfailures, ?_⟩
      dsimp only
      rw [List.length_append]
      exact hlt
    · obtain rfl := Option.some.inj hstep
      refine sound_main h h.fifo rfl (.inl rfl) (by simp [hfailures]) ?_ ?_
      · simp [Pool.keepFirst, h.first, hfailures, firstFailure]
      · exact .inl ⟨hsent, by simp [Pool.keepFirst, hfailures]⟩
    · obtain rfl := Option.some.inj hstep
      refine sound_main h h.fifo rfl (.inl rfl) id h.first ?_
      exact ⟨⟨[], rfl, hsent⟩, hfailures, le_antisymm hlength (not_lt.mp hlt)⟩
  · -- every path has been seen
    next hs =>
    rw [hs] at hstage
    obtain ⟨⟨done, hdone, hsent⟩, hfailures, hlength⟩ := hstage
    obtain rfl := Option.some.inj hstep
    refine sound_main h h.fifo rfl (.inl rfl) id h.first ?_
    refine ⟨⟨le_rfl, ?_⟩, hfailures, hlength⟩
    rw [List.append_nil] at hdone
    simp [hsent, hdone, messages]
  · -- one path
    next path rest hs =>
    rw [hs] at hstage
    obtain ⟨⟨done, hdone, hsent⟩, hfailures, hlength⟩ := hstage
    rw [send_eq (by simp [hs])] at hstep
    have hdone' : (done ++ [path]) ++ rest = paths := by simpa using hdone
    have hadmits := admitted_append (r := r) done path
    split_ifs at hstep hadmits with hskip
    · obtain rfl := Option.some.inj hstep
      refine sound_main h h.fifo rfl (.inl rfl) id h.first ?_
      exact ⟨⟨_, hdone', by rw [hadmits, List.append_nil]; exact hsent⟩, hfailures, hlength⟩
    · obtain rfl := Option.some.inj hstep
      refine sound_main h ?_ rfl (.inl rfl) id h.first ?_
      · dsimp only
        rw [← List.append_assoc, h.fifo]
      · exact ⟨⟨_, hdone', by rw [hadmits, List.map_append, ← hsent]; rfl⟩, hfailures, hlength⟩
  · -- the last marker has been sent
    next hs =>
    rw [hs] at hstage
    obtain ⟨⟨-, hsent⟩, hfailures, hlength⟩ := hstage
    obtain rfl := Option.some.inj hstep
    refine sound_main h h.fifo rfl (.inl rfl) id h.first ?_
    exact ⟨hsent, by simpa [joinFailures] using hfailures, hlength, by simp⟩
  · -- one marker
    next left hs =>
    rw [hs] at hstage
    obtain ⟨⟨hleft, hsent⟩, hfailures, hlength⟩ := hstage
    rw [send_eq (by simp [hs])] at hstep
    obtain rfl := Option.some.inj hstep
    refine sound_main h ?_ rfl (.inl rfl) id h.first ?_
    · dsimp only
      rw [← List.append_assoc, h.fifo]
    · refine ⟨⟨by omega, ?_⟩, hfailures, hlength⟩
      rw [messages_succ hleft, ← hsent]
  · -- a join
    next next hs =>
    rw [hs] at hstage
    obtain ⟨hsent, hfailures, hlength, hdone⟩ := hstage
    split at hstep
    · next hnone =>
      obtain rfl := Option.some.inj hstep
      have hall : s.workers.take next = s.workers :=
        List.take_of_length_le (List.getElem?_eq_none_iff.mp hnone)
      rw [hall] at hfailures hdone
      exact sound_main h h.fifo rfl (.inl rfl) id h.first (.inr ⟨hsent, hfailures, hlength, hdone⟩)
    · next worker hworker =>
      have htake := joinFailures_take hworker
      have hdone' : worker.isDone → ∀ worker ∈ s.workers.take (next + 1), worker.isDone := by
        intro hworkerDone w hw
        rw [List.take_add_one, hworker] at hw
        rcases List.mem_append.mp hw with hw | hw
        · exact hdone w hw
        · rw [List.mem_singleton.mp hw]
          exact hworkerDone
      split_ifs at hstep htake with hworkerDone hpanicked
      · obtain rfl := Option.some.inj hstep
        refine sound_main h h.fifo rfl (.inl rfl) ?_ ?_ ?_
        · intro hthread
          rw [hthread] at hfailures
          have hmem : ConcurrentErrors.thread ∈ joinFailures (s.workers.take next) := by
            rw [← hfailures]
            exact List.mem_cons_self ..
          simp [joinFailures] at hmem
        · show (s.keepFirst _).result = firstFailure (s.failures ++ [_])
          rw [firstFailure_append, ← h.first]
          rfl
        · refine ⟨hsent, ?_, hlength, hdone' hworkerDone⟩
          show s.failures ++ [.receiver Pool.panicMessage] =
            joinFailures (s.workers.take (next + 1))
          rw [htake, ← hfailures]
      · obtain rfl := Option.some.inj hstep
        refine sound_main h h.fifo rfl (.inl rfl) id h.first ?_
        exact ⟨hsent, by rw [htake, List.append_nil]; exact hfailures, hlength, hdone' hworkerDone⟩
  · cases hstep

/-! ### The workers -/

theorem countP_isStopped_set {workers : List (Worker P)} {w : ℕ} {old : Worker P}
    (hold : workers[w]? = some old) (hnot : old.isStopped = false) (new : Worker P) :
    (workers.set w new).countP Worker.isStopped =
      workers.countP Worker.isStopped + if new.isStopped then 1 else 0 := by
  obtain ⟨hw, rfl⟩ := List.getElem?_eq_some_iff.mp hold
  rw [List.countP_set hw, hnot]
  simp

theorem marker_set {workers : List (Worker P)} {w : ℕ} {old : Worker P}
    (hold : workers[w]? = some old) (hnot : old.isStopped = false) (new : Worker P) (w' : ℕ) :
    (workers.set w new)[w']?.toList.countP Worker.isStopped =
      workers[w']?.toList.countP Worker.isStopped + if w = w' ∧ new.isStopped then 1 else 0 := by
  obtain ⟨hlt, -⟩ := List.getElem?_eq_some_iff.mp hold
  by_cases hw : w = w'
  · subst hw
    rw [List.getElem?_set_self hlt, hold, Option.toList_some, Option.toList_some,
      List.countP_singleton, List.countP_singleton, hnot]
    simp
  · rw [List.getElem?_set_ne hw]
    simp [hw]

/-- A worker that has not ended can change without the calling thread noticing. -/
theorem stageHolds_set {s : Pool P} (h : StageHolds r paths s) {w : ℕ} {old : Worker P}
    (hold : s.workers[w]? = some old) (hnot : old.isDone = false) (new : Worker P)
    (queue : List (Option P)) (received : List (ℕ × Option P)) :
    StageHolds r paths { s with queue, received, workers := s.workers.set w new } := by
  have hmem : old ∈ s.workers := List.mem_of_getElem? hold
  cases hs : s.stage <;> simp only [StageHolds, hs, List.length_set] at h ⊢
  case joining next =>
    obtain ⟨hsent, hfailures, hlength, hdone⟩ := h
    -- what has been joined lies before the worker
    have hle : next ≤ w := by
      by_contra hlt
      have htake : old ∈ s.workers.take next := by
        have hget : (s.workers.take next)[w]? = some old := by
          rw [List.getElem?_take_of_lt (not_le.mp hlt)]
          exact hold
        exact List.mem_of_getElem? hget
      rw [hdone old htake] at hnot
      cases hnot
    rw [List.take_set_of_le hle]
    exact ⟨hsent, hfailures, hlength, hdone⟩
  case returned =>
    rcases h with ⟨hsent, hfailures⟩ | ⟨-, -, -, hdone⟩
    · exact .inl ⟨hsent, hfailures⟩
    · rw [hdone old hmem] at hnot
      cases hnot
  all_goals exact h

theorem sound_callbackStep {s s' : Pool P} (h : Sound r paths s) {w : ℕ} {new : Worker P}
    (hnew : new.isStopped = false) (hattached : new ≠ .disconnected)
    (hstep : Pool.callbackStep w new s = some s') : Sound r paths s' := by
  unfold Pool.callbackStep at hstep
  split at hstep
  · next path hold =>
    obtain rfl := Option.some.inj hstep
    refine ⟨h.fifo, ?_, ?_, ?_, h.first, stageHolds_set h.stage hold rfl new _ _⟩
    · rw [h.stopped, countP_isStopped_set hold rfl, hnew]
      rfl
    · intro w'
      rw [h.marker w', marker_set hold rfl, hnew]
      simp
    · intro hmem
      rcases List.mem_or_eq_of_mem_set hmem with hmem | heq
      · exact h.attached hmem
      · exact absurd heq.symm hattached
  · cases hstep

theorem sound_recvStep {s s' : Pool P} (h : Sound r paths s) {w : ℕ}
    (hstep : Pool.recvStep w s = some s') : Sound r paths s' := by
  unfold Pool.recvStep at hstep
  split at hstep
  · next hold =>
    have hstage := fun new queue received =>
      stageHolds_set h.stage hold rfl new queue received
    split at hstep
    · -- a path
      next path rest hqueue =>
      obtain rfl := Option.some.inj hstep
      refine ⟨?_, ?_, ?_, ?_, h.first, hstage ..⟩
      · rw [← h.fifo, hqueue]
        simp
      · rw [List.countP_append, h.stopped, countP_isStopped_set hold rfl]
        rfl
      · intro w'
        rw [List.countP_append, h.marker w', marker_set hold rfl]
        simp [Worker.isStopped]
      · intro hmem
        rcases List.mem_or_eq_of_mem_set hmem with hmem | heq
        · exact h.attached hmem
        · cases heq
    · -- a stop marker
      next rest hqueue =>
      obtain rfl := Option.some.inj hstep
      refine ⟨?_, ?_, ?_, ?_, h.first, hstage ..⟩
      · rw [← h.fifo, hqueue]
        simp
      · rw [List.countP_append, h.stopped, countP_isStopped_set hold rfl]
        rfl
      · intro w'
        rw [List.countP_append, h.marker w', marker_set hold rfl]
        by_cases hw : w = w' <;> simp [hw, Worker.isStopped]
      · intro hmem
        rcases List.mem_or_eq_of_mem_set hmem with hmem | heq
        · exact h.attached hmem
        · cases heq
    · -- the channel is closed
      next hqueue =>
      split at hstep
      · next hreturned =>
        obtain rfl := Option.some.inj hstep
        have hfailures : s.failures = [.thread] := by
          have hs := h.stage
          rw [StageHolds, hreturned] at hs
          rcases hs with ⟨-, hfailures⟩ | ⟨-, -, -, hdone⟩
          · exact hfailures
          · exact absurd (hdone _ (List.mem_of_getElem? hold)) (by simp [Worker.isDone])
        refine ⟨h.fifo, ?_, ?_, fun _ => hfailures, h.first, hstage ..⟩
        · rw [h.stopped, countP_isStopped_set hold rfl]
          rfl
        · intro w'
          rw [h.marker w', marker_set hold rfl]
          simp [Worker.isStopped]
      · cases hstep
  · cases hstep

theorem sound_step {s s' : Pool P} (h : Sound r paths s) {turn : Turn}
    (hstep : Pool.step r paths s turn = some s') : Sound r paths s' := by
  cases turn with
  | main spawned => exact sound_mainStep h hstep
  | recv w => exact sound_recvStep h hstep
  | finish w => exact sound_callbackStep h rfl (by simp) hstep
  | panic w => exact sound_callbackStep h rfl (by simp) hstep

theorem sound_init : Sound r paths Pool.init := by
  refine ⟨rfl, rfl, fun w => rfl, fun hmem => absurd hmem List.not_mem_nil, rfl, ?_⟩
  exact ⟨rfl, rfl, Nat.zero_le _⟩

theorem sound_run {turns : List Turn} {s : Pool P} (hrun : Pool.run r paths turns = some s) :
    Sound r paths s :=
  runFrom_induction (fun _ s => Sound r paths s) sound_init
    (fun _ _ _ _ h hstep => sound_step h hstep) turns s hrun

/-! ### No deadlock, and an end -/

theorem countP_messages (markers : ℕ) :
    (messages r paths markers).countP Option.isNone = markers := by
  rw [messages, List.countP_append, List.countP_replicate]
  simp

theorem countP_received (s : Pool P) :
    s.received.countP (fun e => e.2.isNone) =
      (s.received.map Prod.snd).countP Option.isNone := by
  rw [List.countP_map]
  rfl

/-- While a worker waits at a join, a stop marker is left for it. -/
theorem queue_ne_nil {s : Pool P} (h : Sound r paths s) {next w : ℕ}
    (hs : s.stage = .joining next) (hw : s.workers[w]? = some .waiting) : s.queue ≠ [] := by
  intro hqueue
  have hstage := h.stage
  rw [StageHolds, hs] at hstage
  obtain ⟨hsent, -, hlength, -⟩ := hstage
  have hfifo := h.fifo
  rw [hqueue, List.append_nil, hsent] at hfifo
  have hmarkers : s.received.countP (fun e => e.2.isNone) = r.numJobs := by
    rw [countP_received, hfifo, countP_messages]
  have hall : s.workers.countP Worker.isStopped = s.workers.length := by
    rw [← h.stopped, hmarkers, hlength]
  have hstopped := List.countP_eq_length.mp hall _ (List.mem_of_getElem? hw)
  cases hstopped

theorem exists_turn {s : Pool P} (h : Sound r paths s) (hs : s.stage ≠ .returned) :
    ∃ turn, (Pool.step r paths s turn).isSome := by
  cases hstage : s.stage with
  | spawning =>
    refine ⟨.main true, ?_⟩
    simp only [Pool.step, Pool.mainStep, hstage]
    split_ifs <;> rfl
  | dispatching rest =>
    refine ⟨.main true, ?_⟩
    cases rest with
    | nil => simp [Pool.step, Pool.mainStep, hstage]
    | cons path rest =>
      simp only [Pool.step, Pool.mainStep, hstage, send_eq hs]
      split_ifs <;> rfl
  | poisoning left =>
    refine ⟨.main true, ?_⟩
    cases left with
    | zero => simp [Pool.step, Pool.mainStep, hstage]
    | succ left => simp [Pool.step, Pool.mainStep, hstage, send_eq hs]
  | joining next =>
    cases hworker : s.workers[next]? with
    | none => exact ⟨.main true, by simp [Pool.step, Pool.mainStep, hstage, hworker]⟩
    | some worker =>
      cases worker with
      | waiting =>
        refine ⟨.recv next, ?_⟩
        simp only [Pool.step, Pool.recvStep, hworker]
        cases hqueue : s.queue with
        | nil => exact absurd hqueue (queue_ne_nil h hstage hworker)
        | cons message rest => cases message <;> rfl
      | running path => exact ⟨.finish next, by simp [Pool.step, Pool.callbackStep, hworker]⟩
      | stopped | disconnected | panicked =>
        exact ⟨.main true, by simp [Pool.step, Pool.mainStep, hstage, hworker, Worker.isDone,
          Worker.isPanicked]⟩
  | returned => exact absurd hstage hs

/-- What a worker still has to do. -/
def Worker.work : Worker P → ℕ
  | .waiting => 1
  | .running _ => 2
  | _ => 0

variable (r paths) in
/-- What the calling thread still has to do. -/
def Stage.work (workers : ℕ) : Stage P → ℕ
  | .spawning => 2 * (r.numJobs - workers) + 3 * paths.length + 4 * r.numJobs + 4
  | .dispatching rest => 3 * rest.length + 4 * r.numJobs + 3
  | .poisoning left => 3 * left + r.numJobs + 2
  | .joining next => r.numJobs - next + 1
  | .returned => 0

variable (r paths) in
def Pool.work (s : Pool P) : ℕ :=
  s.stage.work r paths s.workers.length + 2 * s.queue.length + (s.workers.map Worker.work).sum

theorem sum_work_set {workers : List (Worker P)} {w : ℕ} {old : Worker P}
    (hold : workers[w]? = some old) (new : Worker P) :
    ((workers.set w new).map Worker.work).sum + old.work =
      (workers.map Worker.work).sum + new.work := by
  induction workers generalizing w with
  | nil => cases hold
  | cons worker workers ih =>
    cases w with
    | zero =>
      obtain rfl := Option.some.inj hold
      simp only [List.set_cons_zero, List.map_cons, List.sum_cons]
      omega
    | succ w =>
      have h := ih hold
      simp only [List.set_cons_succ, List.map_cons, List.sum_cons]
      omega

theorem work_worker {s s' : Pool P} {w : ℕ} {old new : Worker P} (hold : s.workers[w]? = some old)
    (hstage : s'.stage = s.stage) (hworkers : s'.workers = s.workers.set w new)
    (hlt : 2 * s'.queue.length + new.work < 2 * s.queue.length + old.work) :
    s'.work r paths < s.work r paths := by
  have hsum := sum_work_set hold new
  rw [Pool.work, Pool.work, hstage, hworkers, List.length_set]
  omega

theorem work_mainStep {s s' : Pool P} (h : Sound r paths s) {spawned : Bool}
    (hstep : Pool.mainStep r paths spawned s = some s') : s'.work r paths < s.work r paths := by
  have hstage := h.stage
  unfold StageHolds at hstage
  unfold Pool.mainStep at hstep
  split at hstep
  · next hs =>
    rw [hs] at hstage
    split_ifs at hstep with hlt hspawned
    · obtain rfl := Option.some.inj hstep
      simp only [Pool.work, hs, Stage.work, List.length_append, List.length_singleton,
        List.map_append, List.map_cons, List.map_nil, List.sum_append, List.sum_singleton,
        Worker.work]
      omega
    · obtain rfl := Option.some.inj hstep
      simp only [Pool.work, hs, Stage.work, Pool.keepFirst]
      omega
    · obtain rfl := Option.some.inj hstep
      simp only [Pool.work, hs, Stage.work]
      omega
  · next hs =>
    obtain rfl := Option.some.inj hstep
    simp only [Pool.work, hs, Stage.work, List.length_nil]
    omega
  · next path rest hs =>
    rw [send_eq (by simp [hs])] at hstep
    split_ifs at hstep
    · obtain rfl := Option.some.inj hstep
      simp only [Pool.work, hs, Stage.work, List.length_cons]
      omega
    · obtain rfl := Option.some.inj hstep
      simp only [Pool.work, hs, Stage.work, List.length_cons, List.length_append,
        List.length_nil]
      omega
  · next hs =>
    obtain rfl := Option.some.inj hstep
    simp only [Pool.work, hs, Stage.work]
    omega
  · next left hs =>
    rw [send_eq (by simp [hs])] at hstep
    obtain rfl := Option.some.inj hstep
    simp only [Pool.work, hs, Stage.work, List.length_append, List.length_singleton]
    omega
  · next next hs =>
    rw [hs] at hstage
    obtain ⟨-, -, hlength, -⟩ := hstage
    split at hstep
    · obtain rfl := Option.some.inj hstep
      simp only [Pool.work, hs, Stage.work]
      omega
    · next worker hworker =>
      have hnext : next < s.workers.length := (List.getElem?_eq_some_iff.mp hworker).1
      split_ifs at hstep
      · obtain rfl := Option.some.inj hstep
        simp only [Pool.work, hs, Stage.work, Pool.keepFirst]
        omega
      · obtain rfl := Option.some.inj hstep
        simp only [Pool.work, hs, Stage.work]
        omega
  · cases hstep

/-- Every turn of every thread is progress. -/
theorem work_step {s s' : Pool P} (h : Sound r paths s) {turn : Turn}
    (hstep : Pool.step r paths s turn = some s') : s'.work r paths < s.work r paths := by
  have hcallback : ∀ w new, Worker.work new < 2 →
      Pool.callbackStep w new s = some s' → s'.work r paths < s.work r paths := by
    intro w new hnew hstep
    unfold Pool.callbackStep at hstep
    split at hstep
    · next path hold =>
      obtain rfl := Option.some.inj hstep
      exact work_worker hold rfl rfl (Nat.add_lt_add_left hnew _)
    · cases hstep
  cases turn with
  | main spawned => exact work_mainStep h hstep
  | recv w =>
    change Pool.recvStep w s = some s' at hstep
    unfold Pool.recvStep at hstep
    split at hstep
    · next hold =>
      split at hstep
      · next path rest hqueue =>
        obtain rfl := Option.some.inj hstep
        refine work_worker hold rfl rfl ?_
        simp only [hqueue, List.length_cons, Worker.work]
        omega
      · next rest hqueue =>
        obtain rfl := Option.some.inj hstep
        refine work_worker hold rfl rfl ?_
        simp only [hqueue, List.length_cons, Worker.work]
        omega
      · split at hstep
        · obtain rfl := Option.some.inj hstep
          refine work_worker hold rfl rfl ?_
          simp only [Worker.work]
          omega
        · cases hstep
    · cases hstep
  | finish w => exact hcallback w .waiting Nat.one_lt_two hstep
  | panic w => exact hcallback w .panicked Nat.two_pos hstep

/-! ### What a run leaves -/

theorem handed_prefix {s : Pool P} (h : Sound r paths s) : s.handed <+: s.dispatched := by
  refine ⟨s.queue.filterMap id, ?_⟩
  rw [Pool.dispatched, ← h.fifo, List.filterMap_append, Pool.handed, List.filterMap_map]
  rfl

theorem filterMap_messages (markers : ℕ) :
    (messages r paths markers).filterMap id = r.admitted paths := by
  rw [messages, List.filterMap_append, List.filterMap_map]
  simp

theorem dispatched_prefix {s : Pool P} (h : Sound r paths s) :
    s.dispatched <+: r.admitted paths := by
  have hstage := h.stage
  unfold StageHolds at hstage
  rw [Pool.dispatched]
  split at hstage
  · rw [hstage.1]
    exact List.nil_prefix
  · obtain ⟨⟨done, hdone, hsent⟩, -⟩ := hstage
    rw [hsent, List.filterMap_map, ← hdone, ConcurrentRunner.admitted, ConcurrentRunner.admitted,
      List.filter_append]
    simp
  · rw [hstage.1.2, filterMap_messages]
  · rw [hstage.1, filterMap_messages]
  · rcases hstage with ⟨hsent, -⟩ | ⟨hsent, -⟩
    · rw [hsent]
      exact List.nil_prefix
    · rw [hsent, filterMap_messages]

/-- Who takes a stop marker has every path before it. -/
theorem received_of_marker {received queue : List (Option P)} {markers : ℕ}
    (h : received ++ queue = messages r paths markers) (hmarker : none ∈ received) :
    ∃ k, received = messages r paths k := by
  rcases List.append_eq_append_iff.mp h with ⟨rest, hpaths, -⟩ | ⟨rest, hreceived, hrest⟩
  · have hmem : none ∈ (r.admitted paths).map some := by
      rw [hpaths]
      exact List.mem_append_left _ hmarker
    simp at hmem
  · obtain ⟨-, hreplicate, -⟩ := List.append_eq_replicate_iff.mp hrest.symm
    refine ⟨rest.length, ?_⟩
    rw [hreceived, messages, ← hreplicate]

theorem marker_mem {s : Pool P} (h : 0 < s.received.countP fun e => e.2.isNone) :
    none ∈ s.received.map Prod.snd := by
  obtain ⟨e, he, hnone⟩ := List.countP_pos_iff.mp h
  exact List.mem_map.mpr ⟨e, he, Option.isNone_iff_eq_none.mp hnone⟩

/-- Every worker has been joined: what that says of the run. -/
theorem joined_spec {s : Pool P} (h : Sound r paths s)
    (hsent : s.sent = messages r paths r.numJobs) (hfailures : s.failures = joinFailures s.workers)
    (hlength : s.workers.length = r.numJobs) (hdone : ∀ worker ∈ s.workers, worker.isDone) :
    s.dispatched = r.admitted paths ∧
    ((∃ worker ∈ s.workers, worker.isPanicked = false) → s.handed = s.dispatched) ∧
    ((∀ worker ∈ s.workers, worker.isPanicked = false) →
      s.result = .ok () ∧ s.queue = [] ∧
        s.received.map Prod.snd = messages r paths r.numJobs ∧
        ∀ w < r.numJobs, s.received.countP (fun e => e.1 = w ∧ e.2.isNone) = 1) ∧
    ((∃ worker ∈ s.workers, worker.isPanicked) →
      s.result = .error (.receiver Pool.panicMessage)) := by
  have hdispatched : s.dispatched = r.admitted paths := by
    rw [Pool.dispatched, hsent, filterMap_messages]
  -- nobody leaves but by a marker or by a panic
  have hstopped : ∀ worker ∈ s.workers, worker.isPanicked = false → worker.isStopped := by
    intro worker hworker hcalm
    cases worker with
    | waiting => exact absurd (hdone _ hworker) (by simp [Worker.isDone])
    | running path => exact absurd (hdone _ hworker) (by simp [Worker.isDone])
    | stopped => rfl
    | disconnected =>
      have hthread := h.attached hworker
      rw [hfailures] at hthread
      have hmem : ConcurrentErrors.thread ∈ joinFailures s.workers := by
        rw [hthread]
        exact List.mem_cons_self ..
      simp [joinFailures] at hmem
    | panicked => cases hcalm
  have hfifo := h.fifo
  rw [hsent] at hfifo
  refine ⟨hdispatched, ?_, ?_, ?_⟩
  · rintro ⟨worker, hworker, hcalm⟩
    have hpos : 0 < s.received.countP (fun e => e.2.isNone) := by
      rw [h.stopped]
      exact List.countP_pos_iff.mpr ⟨worker, hworker, hstopped worker hworker hcalm⟩
    obtain ⟨k, hk⟩ := received_of_marker hfifo (marker_mem hpos)
    have hhanded : s.handed = (s.received.map Prod.snd).filterMap id := by
      rw [Pool.handed, List.filterMap_map]
      rfl
    rw [hhanded, hk, filterMap_messages, hdispatched]
  · intro hcalm
    have hall : s.workers.countP Worker.isStopped = r.numJobs := by
      rw [← hlength]
      exact List.countP_eq_length.mpr fun worker hworker =>
        hstopped worker hworker (hcalm worker hworker)
    have hqueue : s.queue = [] := by
      have hcount : s.received.countP (fun e => e.2.isNone) = r.numJobs := h.stopped.trans hall
      have hpos : 0 < s.received.countP (fun e => e.2.isNone) := hcount ▸ r.jobs_pos
      obtain ⟨k, hk⟩ := received_of_marker hfifo (marker_mem hpos)
      rw [countP_received, hk, countP_messages] at hcount
      rw [hk, hcount] at hfifo
      exact List.append_right_eq_self.mp hfifo
    refine ⟨?_, hqueue, by rw [← hfifo, hqueue, List.append_nil], ?_⟩
    · have hnone : s.workers.filter Worker.isPanicked = [] :=
        List.filter_eq_nil_iff.mpr fun worker hworker => by simp [hcalm worker hworker]
      rw [h.first, hfailures, joinFailures, hnone]
      rfl
    · intro w hw
      rw [← hlength] at hw
      have hget : s.workers[w]? = some s.workers[w] := List.getElem?_eq_getElem hw
      have hmem : s.workers[w] ∈ s.workers := List.getElem_mem hw
      rw [h.marker w, hget, Option.toList_some, List.countP_singleton,
        hstopped _ hmem (hcalm _ hmem)]
      rfl
  · rintro ⟨worker, hworker, hpanicked⟩
    have hmem : worker ∈ s.workers.filter Worker.isPanicked :=
      List.mem_filter.mpr ⟨hworker, hpanicked⟩
    obtain ⟨first, rest, hfilter⟩ := List.exists_cons_of_ne_nil (List.ne_nil_of_mem hmem)
    rw [h.first, hfailures, joinFailures, hfilter]
    rfl

variable (r paths) in
/-- Every run is bounded and never stuck; the callbacks see the dispatched paths once each as
long as one worker is left, and the result is the first failure. -/
theorem run_pool (turns : List Turn) (s : Pool P) (hrun : Pool.run r paths turns = some s) :
    turns.length ≤ 6 * r.numJobs + 3 * paths.length + 4 ∧
    (s.stage ≠ .returned → ∃ turn, (Pool.step r paths s turn).isSome) ∧
    s.handed <+: s.dispatched ∧ s.dispatched <+: r.admitted paths ∧
    s.result = firstFailure s.failures ∧
    (s.stage = .returned →
      (s.dispatched = [] ∧ s.result = .error .thread) ∨
      (s.dispatched = r.admitted paths ∧
        ((∃ worker ∈ s.workers, worker.isPanicked = false) → s.handed = s.dispatched) ∧
        ((∀ worker ∈ s.workers, worker.isPanicked = false) →
          s.result = .ok () ∧ s.queue = [] ∧
            s.received.map Prod.snd = messages r paths r.numJobs ∧
            ∀ w < r.numJobs, s.received.countP (fun e => e.1 = w ∧ e.2.isNone) = 1) ∧
        ((∃ worker ∈ s.workers, worker.isPanicked) →
          s.result = .error (.receiver Pool.panicMessage)))) := by
  have h := sound_run hrun
  have hlength := runFrom_length_le (Sound r paths) (Pool.work r paths) sound_init
    (fun s turn s' h hstep => ⟨sound_step h hstep, work_step h hstep⟩) hrun
  have hinit : Pool.work r paths Pool.init = 6 * r.numJobs + 3 * paths.length + 4 := by
    simp only [Pool.work, Pool.init, Stage.work, List.length_nil, List.map_nil, List.sum_nil]
    omega
  refine ⟨by omega, exists_turn h, handed_prefix h, dispatched_prefix h, h.first, ?_⟩
  intro hs
  have hstage := h.stage
  rw [StageHolds, hs] at hstage
  rcases hstage with ⟨hsent, hfailures⟩ | ⟨hsent, hfailures, hcount, hdone⟩
  · left
    refine ⟨by rw [Pool.dispatched, hsent]; rfl, ?_⟩
    rw [h.first, hfailures]
    rfl
  · exact .inr (joined_spec h hsent hfailures hcount hdone)

/-- One worker, and no check of the paths. -/
def single : ConcurrentRunner String := ⟨1, false, fun _ => true, le_rfl⟩

/-- The worker panics in the first of two files. -/
def panicFirst : List Turn :=
  [.main true, .main true, .main true, .main true, .recv 0, .main true, .main true, .main true,
    .panic 0, .main true, .main true]

theorem run_pool_panicFirst : ∃ s, Pool.run single ["a", "b"] panicFirst = some s ∧
    s.result = firstFailure s.failures := by
  obtain ⟨s, hs⟩ : ∃ s, Pool.run single ["a", "b"] panicFirst = some s :=
    Option.isSome_iff_exists.mp (by decide +kernel)
  exact ⟨s, hs, (run_pool single ["a", "b"] panicFirst s hs).2.2.2.2.1⟩

/-- A file behind the last panic is dispatched and never handed to the callback. -/
theorem panic_leaves_path :
    ¬ ∀ (r : ConcurrentRunner String) (paths : List String) (turns : List Turn) (s : Pool String),
      Pool.run r paths turns = some s → s.stage = .returned → s.handed.Perm s.dispatched := by
  intro h
  obtain ⟨s, hs⟩ : ∃ s, Pool.run single ["a", "b"] panicFirst = some s :=
    Option.isSome_iff_exists.mp (by decide +kernel)
  have hend : (Pool.run single ["a", "b"] panicFirst).map
      (fun s => (s.stage, s.handed, s.dispatched)) = some (.returned, ["a"], ["a", "b"]) := by
    decide +kernel
  rw [hs] at hend
  obtain ⟨hstage, hlists⟩ := Prod.mk.inj (Option.some.inj hend)
  obtain ⟨hhanded, hdispatched⟩ := Prod.mk.inj hlists
  have hperm := h single ["a", "b"] panicFirst s hs hstage
  rw [hhanded, hdispatched] at hperm
  exact absurd hperm.length_eq (by decide)

end BigCodeAnalysis.Walk
