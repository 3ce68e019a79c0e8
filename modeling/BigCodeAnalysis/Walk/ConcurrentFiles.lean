import BigCodeAnalysis.Sequences.Interleaving
import Mathlib.Algebra.GroupWithZero.Nat

/-! The worker pool. The calling thread sends the paths and then one stop marker for each worker
over one channel, and joins the workers; a worker whose callback panics ends without a marker. -/

namespace BigCodeAnalysis.Walk

open Sequences

/-- The causes of a failed send or spawn are left out. -/
inductive ConcurrentErrors where
  | sender
  | receiver (message : String)
  | thread
  deriving DecidableEq, Repr

structure ConcurrentRunner (P : Type*) where
  numJobs : ℕ
  /-- Whether a path is checked at dispatch. -/
  verifyPaths : Bool
  isFile : P → Bool
  jobs_pos : 1 ≤ numJobs

/-- A worker thread, at its `recv`, in its callback, or done. -/
inductive Worker (P : Type*) where
  | waiting
  | running (path : P)
  | stopped
  | disconnected
  | panicked
  deriving DecidableEq, Repr

namespace Worker
variable {P : Type*}

def isDone : Worker P → Bool
  | waiting | running _ => false
  | _ => true

def isStopped : Worker P → Bool
  | stopped => true
  | _ => false

def isPanicked : Worker P → Bool
  | panicked => true
  | _ => false

end Worker

/-- Where the calling thread is in `run`. -/
inductive Stage (P : Type*) where
  | spawning
  | dispatching (paths : List P)
  | poisoning (left : ℕ)
  | joining (next : ℕ)
  | returned
  deriving DecidableEq, Repr

/-- The threads and the channel. `sent`, `received` and `failures` record what has passed: the
messages in, the messages out with their workers, and the failures the calling thread saw. -/
structure Pool (P : Type*) where
  stage : Stage P
  result : Except ConcurrentErrors Unit
  queue : List (Option P)
  workers : List (Worker P)
  sent : List (Option P)
  received : List (ℕ × Option P)
  failures : List ConcurrentErrors

/-- A turn of the calling thread, or of worker `w`. -/
inductive Turn where
  | main (spawned : Bool)
  | recv (w : ℕ)
  | finish (w : ℕ)
  | panic (w : ℕ)
  deriving DecidableEq, Repr

namespace Pool
variable {P : Type*} (r : ConcurrentRunner P)

/-- The receiving ends: one held by `run` until it returns, one by every worker not done. -/
def receivers (s : Pool P) : ℕ :=
  (match s.stage with
    | .returned => 0
    | _ => 1) + s.workers.countP fun w => !w.isDone

/-- A failure is kept when it is the first. -/
def keepFirst (s : Pool P) (e : ConcurrentErrors) : Pool P :=
  { s with
    result := match s.result with
      | .ok _ => .error e
      | .error first => .error first
    failures := s.failures ++ [e] }

/-- `Sender::send`; it fails when nobody holds the receiving end. -/
def send (s : Pool P) (message : Option P) : Option (Pool P) :=
  if s.receivers = 0 then none
  else some { s with queue := s.queue ++ [message], sent := s.sent ++ [message] }

def panicMessage : String := "A thread used to process a file panicked"

/-- The calling thread: spawn, `explore`, poison, join. -/
def mainStep (paths : List P) (spawned : Bool) (s : Pool P) : Option (Pool P) :=
  match s.stage with
  | .spawning =>
    if s.workers.length < r.numJobs then
      if spawned then some { s with workers := s.workers ++ [.waiting] }
      else some { s.keepFirst .thread with stage := .returned }
    else some { s with stage := .dispatching paths }
  | .dispatching [] => some { s with stage := .poisoning r.numJobs }
  | .dispatching (path :: rest) =>
    if r.verifyPaths && !r.isFile path then some { s with stage := .dispatching rest }
    else
      match s.send (some path) with
      | some s' => some { s' with stage := .dispatching rest }
      | none => some { s.keepFirst .sender with stage := .poisoning r.numJobs }
  | .poisoning 0 => some { s with stage := .joining 0 }
  | .poisoning (left + 1) =>
    match s.send none with
    | some s' => some { s' with stage := .poisoning left }
    | none => some { s.keepFirst .sender with stage := .poisoning left }
  | .joining next =>
    match s.workers[next]? with
    | none => some { s with stage := .returned }
    | some worker =>
      if worker.isDone then
        if worker.isPanicked then
          some { s.keepFirst (.receiver panicMessage) with stage := .joining (next + 1) }
        else some { s with stage := .joining (next + 1) }
      else none
  | .returned => none

/-- `recv` of a waiting worker; without senders an empty channel ends it. -/
def recvStep (w : ℕ) (s : Pool P) : Option (Pool P) :=
  match s.workers[w]? with
  | some .waiting =>
    match s.queue with
    | some path :: rest =>
      some { s with
        queue := rest
        workers := s.workers.set w (.running path)
        received := s.received ++ [(w, some path)] }
    | none :: rest =>
      some { s with
        queue := rest
        workers := s.workers.set w .stopped
        received := s.received ++ [(w, none)] }
    | [] =>
      match s.stage with
      | .returned => some { s with workers := s.workers.set w .disconnected }
      | _ => none
  | _ => none

/-- The callback returns or panics. -/
def callbackStep (w : ℕ) (next : Worker P) (s : Pool P) : Option (Pool P) :=
  match s.workers[w]? with
  | some (.running _) => some { s with workers := s.workers.set w next }
  | _ => none

def step (paths : List P) (s : Pool P) : Turn → Option (Pool P)
  | .main spawned => mainStep r paths spawned s
  | .recv w => recvStep w s
  | .finish w => callbackStep w .waiting s
  | .panic w => callbackStep w .panicked s

def init : Pool P := ⟨.spawning, .ok (), [], [], [], [], []⟩

def run (paths : List P) (turns : List Turn) : Option (Pool P) := runFrom (step r paths) init turns

/-- The paths sent to the workers. -/
def dispatched (s : Pool P) : List P := s.sent.filterMap id

/-- The paths the callback has been called with. -/
def handed (s : Pool P) : List P := s.received.filterMap Prod.snd

end Pool

/-- The paths `explore` does not skip. -/
def ConcurrentRunner.admitted {P : Type*} (r : ConcurrentRunner P) (paths : List P) : List P :=
  paths.filter fun path => !(r.verifyPaths && !r.isFile path)

end BigCodeAnalysis.Walk
