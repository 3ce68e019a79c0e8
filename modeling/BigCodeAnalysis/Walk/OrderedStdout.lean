import BigCodeAnalysis.Sequences.Interleaving
import BigCodeAnalysis.Sequences.SortedMap
import Mathlib.Data.List.Range

/-! Documents in walk order. Each file of a walk has a slot; its document is held back until
every earlier slot has been released. -/

namespace BigCodeAnalysis.Walk

open Sequences

variable {D P : Type*}

/-- The slots are the places in the file list; a list that repeats a path has none. -/
def orderedStdout [DecidableEq P] (paths : List P) : Option (P → Option ℕ) :=
  if paths.Nodup then some fun path => paths.idxOf? path else none

structure Pending (D : Type*) where
  next : ℕ
  documents : SortedMap ℕ (Option D)

namespace Pending

/-- The documents from `next` up to the first gap. Each is listed with its slot. -/
def takeReady (p : Pending D) : List (ℕ × D) × Pending D :=
  match _ : p.documents.remove p.next with
  | none => ([], p)
  | some (document, documents) =>
    let rest := takeReady ⟨p.next + 1, documents⟩
    ((document.map (p.next, ·)).toList ++ rest.1, rest.2)
termination_by p.documents.entries.length
decreasing_by
  rw [(SortedMap.remove_perm ‹p.documents.remove p.next = _›).length_eq]
  exact Nat.lt_succ_self _

/-- Everything held, gaps included. -/
def takeAll (p : Pending D) : List (ℕ × D) × Pending D :=
  (p.documents.entries.filterMap fun (index, document) => document.map (index, ·),
    { next := (p.documents.entries.getLast?.map fun e => e.1 + 1).getD p.next
      documents := .empty })

end Pending

/-- The buffer, the documents a worker is about to write without the lock, and the output.
Every document is kept with the slot it was released for. -/
structure Emission (D : Type*) where
  pending : Pending D
  unordered : List (Option ℕ × D)
  stream : List (Option ℕ × D)

/-- What a thread does in one uninterrupted turn. -/
inductive Event (D : Type*) where
  | release (slot : Option ℕ) (document : Option D)
  | write (n : ℕ)
  | flush

namespace Emission

def init : Emission D := ⟨⟨0, .empty⟩, [], []⟩

/-- `release`, up to the point where the lock is given back. -/
def release (s : Emission D) (slot : Option ℕ) (document : Option D) : Emission D :=
  match slot with
  | none => { s with unordered := s.unordered ++ (document.map (none, ·)).toList }
  | some index =>
    if index < s.pending.next then
      { s with unordered := s.unordered ++ (document.map (some index, ·)).toList }
    else
      let ready :=
        Pending.takeReady { s.pending with documents := s.pending.documents.insert index document }
      { s with pending := ready.2, stream := s.stream ++ ready.1.map fun e => (some e.1, e.2) }

def flushRemaining (s : Emission D) : Emission D :=
  let all := s.pending.takeAll
  { s with pending := all.2, stream := s.stream ++ all.1.map fun e => (some e.1, e.2) }

def step (s : Emission D) : Event D → Option (Emission D)
  | .release slot document => some (s.release slot document)
  | .write n => s.unordered[n]?.map fun e =>
    { s with unordered := s.unordered.eraseIdx n, stream := s.stream ++ [e] }
  | .flush => some s.flushRemaining

def run (events : List (Event D)) : Option (Emission D) := runFrom step init events

end Emission

end BigCodeAnalysis.Walk
