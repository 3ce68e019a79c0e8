import BigCodeAnalysis.Sequences.Runs
import Mathlib.Data.List.Perm.Basic

/-! Blocks in a list that are decided at their last line and collected backward from it. A line
of a block leads its row, and the next line of it starts just below. A line that leads no row
is decided by what stands beside it. -/

namespace BigCodeAnalysis.Sequences.Blocks

open Runs (inContext mem_inContext)

variable {ι : Type*} (line starts beside : ι → Bool) (shares below : ι → ι → Bool)

/-- Nothing before an element reaches its row. -/
def leads (before : List ι) (x : ι) : Bool := !before.head?.any fun p => shares p x

/-- The lines of the block that go on just above, nearest first. -/
def linesAbove (x : ι) : List ι → List ι
  | [] => []
  | above :: before =>
    if line above && below above x && leads shares before above then
      above :: linesAbove above before
    else []

/-- Whether the block a line is in goes down to the right element. -/
def followed (x : ι) : List ι → Bool
  | [] => false
  | next :: after => below x next && if line next then followed next after else starts next

/-- Whether a line is the last of such a block. -/
def endsAbove (x : ι) : List ι → Bool
  | [] => false
  | next :: _ => below x next && !line next && starts next

/-- What is collected at an element. -/
def collected (before : List ι) (x : ι) (after : List ι) : List ι :=
  if line x then
    if (if leads shares before x then endsAbove line starts below x after
        else before.head?.any beside) then
      x :: linesAbove line shares below x before
    else []
  else []

/-- An element on its own. -/
def counted (before : List ι) (x : ι) (after : List ι) : List ι :=
  if line x && (if leads shares before x then followed line starts below x after
      else before.head?.any beside) then [x] else []

/-- What is still to be collected once the elements before are done with. -/
def owed (before : List ι) : List ι → List ι
  | [] => []
  | next :: after =>
    if line next && followed line starts below next after then
      linesAbove line shares below next before
    else []

variable {line starts beside : ι → Bool} {shares below : ι → ι → Bool}

theorem linesAbove_of_not_leads (hbelow : ∀ p x, below p x = true → shares p x = false)
    {before : List ι} {x : ι} (h : leads shares before x = false) :
    linesAbove line shares below x before = [] := by
  cases before with
  | nil => rfl
  | cons p before =>
    have hshares : shares p x = true := by simpa [leads] using h
    have hapart : below p x = false := by
      by_contra hne
      have hapart := hbelow p x (by simpa using hne)
      rw [hshares] at hapart
      cases hapart
    simp [linesAbove, hapart]

/-- One element: what it collects and what is owed after it are what was owed and itself. -/
theorem collected_perm_counted (hbelow : ∀ p x, below p x = true → shares p x = false)
    (before : List ι) (x : ι) (after : List ι) :
    (collected line starts beside shares below before x after ++
        owed line starts shares below (x :: before) after).Perm
      (owed line starts shares below before (x :: after) ++
        counted line starts beside shares below before x after) := by
  have hself : ([x] ++ linesAbove line shares below x before).Perm
      (linesAbove line shares below x before ++ [x]) := List.perm_append_comm
  rw [List.singleton_append] at hself
  by_cases hline : line x = true
  · by_cases hleads : leads shares before x = true
    · cases after with
      | nil => simp [collected, counted, owed, endsAbove, followed, hline, hleads]
      | cons next after =>
        by_cases hnext : below x next = true
        · by_cases hmember : line next = true
          · cases hfollowed : followed line starts below next after <;>
              simp [collected, counted, owed, endsAbove, followed, linesAbove, hline, hleads, hnext,
                hmember, hfollowed, hself]
          · cases hstarts : starts next <;>
              simp [collected, counted, owed, endsAbove, followed, hline, hleads, hnext, hmember,
                hstarts, hself]
        · simp [collected, counted, owed, endsAbove, followed, linesAbove, hline, hleads, hnext]
    · -- a line beside something takes nothing along, and no block goes on over it
      rw [Bool.not_eq_true] at hleads
      have hnone : linesAbove line shares below x before = [] :=
        linesAbove_of_not_leads hbelow hleads
      cases after with
      | nil =>
        cases hbeside : before.head?.any beside <;>
          simp [collected, counted, owed, followed, hline, hleads, hnone, hbeside]
      | cons next after =>
        cases hbeside : before.head?.any beside <;>
          simp [collected, counted, owed, linesAbove, hline, hleads, hnone, hbeside]
  · cases after with
    | nil => simp [collected, counted, owed, hline]
    | cons next after => simp [collected, counted, owed, linesAbove, hline]

theorem inContext_collected_perm (hbelow : ∀ p x, below p x = true → shares p x = false)
    (before rest : List ι) :
    (inContext (collected line starts beside shares below) before rest).Perm
      (owed line starts shares below before rest ++
        inContext (counted line starts beside shares below) before rest) := by
  induction rest generalizing before with
  | nil => simp [inContext, owed]
  | cons x rest ih =>
    have hstep : (collected line starts beside shares below before x rest ++
        owed line starts shares below (x :: before) rest).Perm
        (owed line starts shares below before (x :: rest) ++
          counted line starts beside shares below before x rest) :=
      collected_perm_counted hbelow before x rest
    have hrest := ih (x :: before)
    rw [inContext, inContext, ← List.append_assoc]
    refine (hrest.append_left _).trans ?_
    rw [← List.append_assoc]
    exact hstep.append_right _

/-- Every line of a block that goes down to the right element is collected once, and every line
beside one. -/
theorem collected_perm (hbelow : ∀ p x, below p x = true → shares p x = false) (l : List ι) :
    (inContext (collected line starts beside shares below) [] l).Perm
      (inContext (counted line starts beside shares below) [] l) := by
  have hall : (inContext (collected line starts beside shares below) [] l).Perm
      (owed line starts shares below [] l ++
        inContext (counted line starts beside shares below) [] l) :=
    inContext_collected_perm hbelow [] l
  have howed : owed line starts shares below [] l = [] := by
    cases l <;> simp [owed, linesAbove]
  simpa [howed] using hall

theorem counted_sublist (before : List ι) (x : ι) (after : List ι) :
    (counted line starts beside shares below before x after).Sublist [x] := by
  rw [counted]
  generalize (line x && _) = takes
  cases takes
  · exact List.nil_sublist _
  · exact List.Sublist.refl _

theorem inContext_counted_sublist (before rest : List ι) :
    (inContext (counted line starts beside shares below) before rest).Sublist rest := by
  induction rest generalizing before with
  | nil => exact List.Sublist.refl _
  | cons x rest ih =>
    rw [inContext, ← List.singleton_append]
    exact (counted_sublist before x rest).append (ih (x :: before))

/-- The last line of the block a line is in collects it and what the block holds above it, or
nothing. -/
theorem exists_collected (hbelow : ∀ p x, below p x = true → shares p x = false)
    (before : List ι) (x : ι) (after : List ι) (hline : line x = true)
    (hleads : leads shares before x = true) :
    ∃ us d later, x :: after = us ++ d :: later ∧ (∀ y ∈ us ++ [d], line y = true) ∧
      (later.head?.any fun next => below d next && line next) = false ∧
      ∃ vs, collected line starts beside shares below (us.reverse ++ before) d later =
        if followed line starts below x after then vs ++ x :: linesAbove line shares below x before
        else [] := by
  induction after generalizing before x with
  | nil =>
    refine ⟨[], x, [], rfl, by simpa using hline, rfl, [], ?_⟩
    simp [collected, followed, endsAbove, hleads]
  | cons next after ih =>
    by_cases hgoes : (below x next && line next) = true
    · obtain ⟨hnext, hmember⟩ := (Bool.and_eq_true ..).mp hgoes
      have hleadsNext : leads shares (x :: before) next = true := by
        simp [leads, hbelow x next hnext]
      obtain ⟨us, d, later, hsplit, hlines, hlast, vs, hcollected⟩ :=
        ih (x :: before) next hmember hleadsNext
      refine ⟨x :: us, d, later, by rw [hsplit, List.cons_append], ?_, hlast, vs ++ [next], ?_⟩
      · intro y hy
        rcases List.mem_cons.mp hy with rfl | hy
        · exact hline
        · exact hlines y hy
      · have habove : linesAbove line shares below next (x :: before) =
            x :: linesAbove line shares below x before := by
          simp [linesAbove, hline, hnext, hleads]
        have hfollowed : followed line starts below x (next :: after) =
            followed line starts below next after := by
          simp [followed, hnext, hmember]
        rw [hfollowed, List.reverse_cons, List.append_assoc, List.singleton_append, hcollected,
          habove]
        simp
    · refine ⟨[], x, next :: after, rfl, by simpa using hline, by simpa using hgoes, [], ?_⟩
      cases hnext : below x next <;> cases hmember : line next <;>
        simp_all [collected, followed, endsAbove]

end BigCodeAnalysis.Sequences.Blocks
