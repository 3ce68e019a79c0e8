import Mathlib.Logic.Function.Basic

/-! A memo table that any number of workers fill. Each query is answered at once or through a
key. A worker looks its key up, computes the value outside the lock when it is missing, and
stores it; two workers that miss one key both compute it. -/

namespace BigCodeAnalysis.Sequences

structure Service (Q κ α ε : Type*) where
  route : Q → α ⊕ κ
  compute : κ → Except ε α

abbrev Table (κ α : Type*) := κ → Option α

variable {Q κ α β ε ω : Type*}

namespace Service

/-- The answer to a query, had nothing ever been stored. -/
def answer (service : Service Q κ α ε) (q : Q) : Except ε α :=
  match service.route q with
  | .inl a => .ok a
  | .inr k => service.compute k

/-- Every answer changed by one function. -/
def map (service : Service Q κ α ε) (f : α → β) : Service Q κ β ε where
  route q := (service.route q).map f id
  compute k := (service.compute k).map f

theorem answer_map (service : Service Q κ α ε) (f : α → β) (q : Q) :
    (service.map f).answer q = (service.answer q).map f := by
  unfold answer map
  dsimp only
  cases service.route q with
  | inl a => rfl
  | inr k => rfl

end Service

/-! ### Tables -/

/-- What is stored is what would be computed. -/
def Table.Sound (compute : κ → Except ε α) (table : Table κ α) : Prop :=
  ∀ k a, table k = some a → compute k = .ok a

namespace Table

def empty : Table κ α := fun _ => none

theorem sound_empty (compute : κ → Except ε α) : (empty : Table κ α).Sound compute := by
  rintro k a ⟨⟩

theorem Sound.map {compute : κ → Except ε α} {table : Table κ α} (h : table.Sound compute)
    (f : α → β) : Table.Sound (fun k => (compute k).map f) fun k => (table k).map f := by
  intro k b hb
  obtain ⟨a, ha, rfl⟩ := Option.map_eq_some_iff.mp hb
  exact congrArg (Except.map f) (h k a ha)

variable [DecidableEq κ]

def store (table : Table κ α) (k : κ) (a : α) : Table κ α := Function.update table k (some a)

theorem Sound.store {compute : κ → Except ε α} {table : Table κ α} (h : table.Sound compute)
    {k : κ} {a : α} (ha : compute k = .ok a) : (table.store k a).Sound compute := by
  intro k' a' h'
  by_cases hk : k' = k
  · subst hk
    rw [Table.store, Function.update_self] at h'
    exact Option.some.inj h' ▸ ha
  · rw [Table.store, Function.update_of_ne hk] at h'
    exact h k' a' h'

/-- One request with no other worker about. -/
def request (compute : κ → Except ε α) (table : Table κ α) (k : κ) : Except ε (α × Table κ α) :=
  match table k with
  | some a => .ok (a, table)
  | none =>
    match compute k with
    | .error e => .error e
    | .ok a => .ok (a, table.store k a)

/-- A request is answered as if the table were empty, and leaves a sound table. -/
theorem request_ok {compute : κ → Except ε α} {table table' : Table κ α}
    (hsound : table.Sound compute) {k : κ} {a : α}
    (h : request compute table k = .ok (a, table')) :
    compute k = .ok a ∧ table'.Sound compute := by
  unfold request at h
  split at h
  · next b hb =>
    cases h
    exact ⟨hsound k a hb, hsound⟩
  · split at h
    · cases h
    · next b hb =>
      cases h
      exact ⟨hb, hsound.store hb⟩

def requestAll (compute : κ → Except ε α) : List κ → Table κ α → Except ε (Table κ α)
  | [], table => .ok table
  | k :: ks, table =>
    match request compute table k with
    | .error e => .error e
    | .ok (_, table) => requestAll compute ks table

theorem requestAll_ok {compute : κ → Except ε α} {ks : List κ} {table table' : Table κ α}
    (hsound : table.Sound compute) (h : requestAll compute ks table = .ok table') :
    table'.Sound compute ∧ ∀ k ∈ ks, ∃ a, compute k = .ok a := by
  induction ks generalizing table with
  | nil =>
    cases h
    refine ⟨hsound, ?_⟩
    rintro k ⟨⟩
  | cons k ks ih =>
    rw [requestAll] at h
    split at h
    · cases h
    next a table hrequest =>
    obtain ⟨ha, hsound⟩ := request_ok hsound hrequest
    obtain ⟨hfinal, hks⟩ := ih hsound h
    exact ⟨hfinal, List.forall_mem_cons.mpr ⟨⟨a, ha⟩, hks⟩⟩

theorem requestAll_total {compute : κ → Except ε α} {ks : List κ} {table : Table κ α}
    (h : ∀ k ∈ ks, ∃ a, compute k = .ok a) :
    ∃ table', requestAll compute ks table = .ok table' := by
  induction ks generalizing table with
  | nil => exact ⟨table, rfl⟩
  | cons k ks ih =>
    obtain ⟨⟨a, ha⟩, hks⟩ := List.forall_mem_cons.mp h
    have hrequest : ∃ answer, request compute table k = .ok answer := by
      unfold request
      cases table k with
      | some b => exact ⟨_, rfl⟩
      | none =>
        rw [ha]
        exact ⟨_, rfl⟩
    obtain ⟨⟨b, table'⟩, hb⟩ := hrequest
    rw [requestAll, hb]
    exact ih hks

end Table

/-! ### Workers -/

inductive Worker (Q κ α ε : Type*) where
  | idle
  | asked (q : Q)
  | missed (q : Q) (k : κ)
  | computed (q : Q) (k : κ) (a : α)
  | answered (q : Q) (a : α)
  | aborted (e : ε)

/-- A worker that may ask. -/
def Worker.Free : Worker Q κ α ε → Prop
  | .idle | .answered .. => True
  | _ => False

structure System (ω Q κ α ε : Type*) where
  table : Table κ α
  workers : ω → Worker Q κ α ε

namespace System

def initial (table : Table κ α) : System ω Q κ α ε := ⟨table, fun _ => .idle⟩

variable [DecidableEq ω]

def put (s : System ω Q κ α ε) (w : ω) (worker : Worker Q κ α ε) : System ω Q κ α ε :=
  { s with workers := Function.update s.workers w worker }

theorem put_self (s : System ω Q κ α ε) (w : ω) (worker : Worker Q κ α ε) :
    (s.put w worker).workers w = worker :=
  Function.update_self ..

theorem put_of_ne (s : System ω Q κ α ε) {w w' : ω} (h : w' ≠ w) (worker : Worker Q κ α ε) :
    (s.put w worker).workers w' = s.workers w' :=
  Function.update_of_ne h ..

variable [DecidableEq κ]

/-- One worker does one thing. A poisoned lock reads as a miss, and loses what is stored. -/
inductive Step (service : Service Q κ α ε) : System ω Q κ α ε → System ω Q κ α ε → Prop where
  | ask {s w} (q) : (s.workers w).Free → Step service s (s.put w (.asked q))
  | direct {s w q a} : s.workers w = .asked q → service.route q = .inl a →
      Step service s (s.put w (.answered q a))
  | hit {s w q k a} : s.workers w = .asked q → service.route q = .inr k → s.table k = some a →
      Step service s (s.put w (.answered q a))
  | miss {s w q k} : s.workers w = .asked q → service.route q = .inr k →
      Step service s (s.put w (.missed q k))
  | compute {s w q k a} : s.workers w = .missed q k → service.compute k = .ok a →
      Step service s (s.put w (.computed q k a))
  | abort {s w q k e} : s.workers w = .missed q k → service.compute k = .error e →
      Step service s (s.put w (.aborted e))
  | store {s w q k a} : s.workers w = .computed q k a →
      Step service s { s.put w (.answered q a) with table := s.table.store k a }
  | lose {s w q k a} : s.workers w = .computed q k a →
      Step service s (s.put w (.answered q a))

end System

/-! ### What holds at every moment -/

/-- What a worker holds is what its query asks for. -/
def Worker.Sound (service : Service Q κ α ε) : Worker Q κ α ε → Prop
  | .idle | .asked _ => True
  | .missed q k => service.route q = .inr k
  | .computed q k a => service.route q = .inr k ∧ service.compute k = .ok a
  | .answered q a => service.answer q = .ok a
  | .aborted e => ∃ q, service.answer q = .error e

structure System.Sound (service : Service Q κ α ε) (s : System ω Q κ α ε) : Prop where
  table : s.table.Sound service.compute
  workers : ∀ w, (s.workers w).Sound service

theorem System.sound_initial {service : Service Q κ α ε} {table : Table κ α}
    (h : table.Sound service.compute) : (initial table : System ω Q κ α ε).Sound service :=
  ⟨h, fun _ => trivial⟩

namespace Service
variable {service : Service Q κ α ε}

theorem answer_inl {q : Q} {a : α} (h : service.route q = .inl a) : service.answer q = .ok a := by
  rw [answer, h]

theorem answer_inr {q : Q} {k : κ} (h : service.route q = .inr k) :
    service.answer q = service.compute k := by
  rw [answer, h]

end Service

namespace System
variable [DecidableEq ω] {service : Service Q κ α ε}

theorem Sound.put {s : System ω Q κ α ε} (h : s.Sound service) (w : ω) {worker : Worker Q κ α ε}
    (hworker : worker.Sound service) : (s.put w worker).Sound service := by
  refine ⟨h.table, fun w' => ?_⟩
  by_cases hw : w' = w
  · rw [hw, put_self]
    exact hworker
  · rw [put_of_ne _ hw]
    exact h.workers w'

variable [DecidableEq κ]

/-- No step gives a worker another key's value. -/
theorem Sound.step {s s' : System ω Q κ α ε} (h : s.Sound service) (hstep : Step service s s') :
    s'.Sound service := by
  cases hstep with
  | ask q _ => exact h.put _ trivial
  | direct _ hroute => exact h.put _ (Service.answer_inl hroute)
  | hit _ hroute htable =>
    exact h.put _ ((Service.answer_inr hroute).trans (h.table _ _ htable))
  | miss _ hroute => exact h.put _ hroute
  | @compute w q k a hmissed hcompute =>
    have hw := h.workers w
    rw [hmissed] at hw
    exact h.put _ ⟨hw, hcompute⟩
  | @abort w q k e hmissed hcompute =>
    have hw := h.workers w
    rw [hmissed] at hw
    exact h.put _ ⟨q, (Service.answer_inr hw).trans hcompute⟩
  | @store w q k a hcomputed =>
    have hw := h.workers w
    rw [hcomputed] at hw
    have hanswer : (Worker.answered q a : Worker Q κ α ε).Sound service :=
      (Service.answer_inr hw.1).trans hw.2
    have hput := h.put w hanswer
    exact ⟨h.table.store hw.2, hput.workers⟩
  | @lose w q k a hcomputed =>
    have hw := h.workers w
    rw [hcomputed] at hw
    exact h.put w ((Service.answer_inr hw.1).trans hw.2)

end System

end BigCodeAnalysis.Sequences
