import BigCodeAnalysis.Metrics.Ruby.Ledger

/-! Visibility calls inside visibility calls. A keyword that returns its arguments hands the names
it gathered to the call it is an argument of, and each call re-files the names it was handed
when it is left. -/

namespace BigCodeAnalysis.Metrics.Ruby

inductive RubyVisibility where
  | isPublic
  | isPrivate
  | isProtected
  deriving DecidableEq, Repr

/-- A keyword in call position. The class-method pair names singleton methods. -/
structure RubyVisibilityCall where
  visibility : RubyVisibility
  targetsSingleton : Bool
  deriving DecidableEq, Repr

def RubyVisibilityCall.bit (keyword : RubyVisibilityCall) : Bool :=
  keyword.visibility = .isPublic

/-- A call whose arguments are being read. -/
structure RubyOpenCall (T : Type*) where
  keyword : Option RubyVisibilityCall
  gathered : T
  deriving DecidableEq, Repr

variable {N D σ : Type*}

/-- Re-file the names of a call that is left, and hand them on where Ruby returns them. -/
def rubyLeaveVisibilityCall (call : RubyOpenCall (List N)) (outer : Option (RubyOpenCall (List N)))
    (refile : N → RubyVisibilityCall → σ → σ) (s : σ) : Option (RubyOpenCall (List N)) × σ :=
  match call.keyword with
  | none => (outer, s)
  | some keyword =>
    let s := call.gathered.foldl (fun s name => refile name keyword s) s
    if keyword.targetsSingleton then (outer, s)
    else
      (outer.map fun outer => { outer with gathered := outer.gathered ++ call.gathered }, s)

/-! ### Reading a nest of calls -/

/-- An argument: what it spells and declares, or a call. -/
inductive Argument (N D : Type*) where
  | leaf (names : List N) (declarations : List D)
  | nested (keyword : Option RubyVisibilityCall) (arguments : List (Argument N D))

inductive Event (N D : Type*) where
  | declare (declaration : D)
  | refile (name : N) (keyword : RubyVisibilityCall)
  deriving DecidableEq, Repr

/-- Carry out events in order. -/
def carryOut (act : Event N D → σ → σ) (events : List (Event N D)) (s : σ) : σ :=
  events.foldl (fun s event => act event s) s

namespace Argument

section Read
variable (act : Event N D → σ → σ)

mutual
/-- Read one argument of a call. -/
def read : Argument N D → RubyOpenCall (List N) × σ → RubyOpenCall (List N) × σ
  | .leaf names declarations, (call, s) =>
    ({ call with gathered := call.gathered ++ names }, carryOut act (declarations.map .declare) s)
  | .nested keyword arguments, (outer, s) =>
    let (inner, s) := readAll arguments (⟨keyword, []⟩, s)
    let (outer', s) :=
      rubyLeaveVisibilityCall inner (some outer) (fun name keyword => act (.refile name keyword)) s
    (outer'.getD outer, s)

def readAll : List (Argument N D) → RubyOpenCall (List N) × σ → RubyOpenCall (List N) × σ
  | [], p => p
  | argument :: arguments, p => readAll arguments (argument.read p)
end

/-- Read a call that is a statement. -/
def readStatement (keyword : Option RubyVisibilityCall) (arguments : List (Argument N D)) (s : σ) :
    σ :=
  let (call, s) := readAll act arguments (⟨keyword, []⟩, s)
  (rubyLeaveVisibilityCall call none (fun name keyword => act (.refile name keyword)) s).2

end Read

/-! ### Which call receives which name -/

/-- A call with this keyword returns its arguments. -/
def returns (keyword : Option RubyVisibilityCall) : Bool := keyword.any (!·.targetsSingleton)

mutual
/-- Every name with the keywords of the calls around it, innermost first. -/
def occurrences : Argument N D → List (N × List (Option RubyVisibilityCall))
  | .leaf names _ => names.map fun name => (name, [])
  | .nested keyword arguments => (occurrencesAll arguments).map fun o => (o.1, o.2 ++ [keyword])

def occurrencesAll : List (Argument N D) → List (N × List (Option RubyVisibilityCall))
  | [] => []
  | argument :: arguments => argument.occurrences ++ occurrencesAll arguments
end

/-- The names that every call between them and the one with these arguments returns. -/
def received (arguments : List (Argument N D)) : List N :=
  ((occurrencesAll arguments).filter fun o => o.2.all returns).map Prod.fst

/-- A call with a keyword re-files each name it receives. -/
def refiles (keyword : Option RubyVisibilityCall) (names : List N) : List (Event N D) :=
  match keyword with
  | some keyword => names.map fun name => .refile name keyword
  | none => []

mutual
/-- What happens in order: what is inside a call comes first, then what the call receives is
re-filed. -/
def events : Argument N D → List (Event N D)
  | .leaf _ declarations => declarations.map .declare
  | .nested keyword arguments => eventsAll arguments ++ refiles keyword (received arguments)

def eventsAll : List (Argument N D) → List (Event N D)
  | [] => []
  | argument :: arguments => argument.events ++ eventsAll arguments
end

theorem received_cons (argument : Argument N D) (arguments : List (Argument N D)) :
    received (argument :: arguments) = received [argument] ++ received arguments := by
  simp only [received, occurrencesAll, List.append_nil, List.filter_append, List.map_append]

theorem received_leaf (names : List N) (declarations : List D) :
    received [leaf names declarations] = names := by
  simp only [received, occurrencesAll, occurrences, List.append_nil, List.filter_map,
    Function.comp_def, List.all_nil, List.filter_true, List.map_map, List.map_id']

/-- A call hands on what it received, or nothing. -/
theorem received_nested (keyword : Option RubyVisibilityCall) (arguments : List (Argument N D)) :
    received [nested keyword arguments] = if returns keyword then received arguments else [] := by
  have hall : ∀ o : N × List (Option RubyVisibilityCall),
      ((o.2 ++ [keyword]).all returns) = (o.2.all returns && returns keyword) := by
    intro o
    rw [List.all_append, List.all_cons, List.all_nil, Bool.and_true]
  simp only [received, occurrencesAll, occurrences, List.append_nil, List.filter_map,
    Function.comp_def, hall, List.map_map]
  cases returns keyword with
  | true => simp only [Bool.and_true, if_true]
  | false => simp

section Read
variable (act : Event N D → σ → σ)

theorem carryOut_append (events events' : List (Event N D)) (s : σ) :
    carryOut act (events ++ events') s = carryOut act events' (carryOut act events s) :=
  List.foldl_append ..

/-- Leaving a call re-files what it gathered, and hands it on as the call returns it. -/
theorem rubyLeaveVisibilityCall_eq (call : RubyOpenCall (List N))
    (outer : Option (RubyOpenCall (List N))) (s : σ) :
    rubyLeaveVisibilityCall call outer (fun name keyword => act (.refile name keyword)) s =
      (outer.map fun outer => { outer with
          gathered := outer.gathered ++ if returns call.keyword then call.gathered else [] },
        carryOut act (refiles call.keyword call.gathered) s) := by
  obtain ⟨keyword, gathered⟩ := call
  cases keyword with
  | none => simp [rubyLeaveVisibilityCall, refiles, carryOut, returns]
  | some keyword =>
    have hrefiles : carryOut act (refiles (some keyword) gathered) s =
        gathered.foldl (fun s name => act (.refile name keyword) s) s := List.foldl_map ..
    rw [hrefiles]
    cases hsingleton : keyword.targetsSingleton with
    | true => simp [rubyLeaveVisibilityCall, returns, hsingleton]
    | false => simp [rubyLeaveVisibilityCall, returns, hsingleton]

mutual
/-- An argument adds the names it hands on, once everything inside it has happened. -/
theorem read_eq : ∀ (argument : Argument N D) (call : RubyOpenCall (List N)) (s : σ),
    argument.read act (call, s) =
      ({ call with gathered := call.gathered ++ received [argument] },
        carryOut act argument.events s)
  | .leaf names declarations, call, s => by
    rw [read, received_leaf, events]
  | .nested keyword arguments, outer, s => by
    simp only [read, readAll_eq, List.nil_append, rubyLeaveVisibilityCall_eq, received_nested,
      events, carryOut_append, Option.map_some, Option.getD_some]

theorem readAll_eq : ∀ (arguments : List (Argument N D)) (call : RubyOpenCall (List N)) (s : σ),
    readAll act arguments (call, s) =
      ({ call with gathered := call.gathered ++ received arguments },
        carryOut act (eventsAll arguments) s)
  | [], call, s => by simp [readAll, received, occurrencesAll, eventsAll, carryOut]
  | argument :: arguments, call, s => by
    rw [readAll, read_eq, readAll_eq, received_cons argument arguments, eventsAll,
      carryOut_append, List.append_assoc]
end

theorem readStatement_eq (keyword : Option RubyVisibilityCall) (arguments : List (Argument N D))
    (s : σ) : readStatement act keyword arguments s =
      carryOut act (nested keyword arguments).events s := by
  rw [readStatement, readAll_eq, events, carryOut_append, List.nil_append]
  dsimp only
  rw [rubyLeaveVisibilityCall_eq]

end Read

end Argument

/-! ### Calls and the ledger -/

section Ledger
variable {K : Type*}

/-- What a keyword's name refers to in a ledger, where the keyword re-files anything there. -/
abbrev Target (N K : Type*) := N → RubyVisibilityCall → Option K

variable (target : Target N K)

/-- A declaration is filed under a name of the ledger, with its own bit. -/
def ledgerOp : Event N (Option K × Bool) → Option (LedgerOp K)
  | .declare declaration => some (.declare declaration.1 declaration.2)
  | .refile name keyword => (target name keyword).map fun name => .refile name keyword.bit

variable [DecidableEq K]

def act (event : Event N (Option K × Bool)) (ledger : RubyLedger K) : RubyLedger K :=
  match ledgerOp target event with
  | some op => ledger.apply op
  | none => ledger

theorem carryOut_act (events : List (Event N (Option K × Bool))) (ledger : RubyLedger K) :
    carryOut (act target) events ledger =
      (events.filterMap (ledgerOp target)).foldl RubyLedger.apply ledger := by
  induction events generalizing ledger with
  | nil => rfl
  | cons event events ih =>
    have hstep : carryOut (act target) (event :: events) ledger =
        carryOut (act target) events (act target event ledger) := rfl
    rw [hstep, ih, List.filterMap_cons, act]
    cases ledgerOp target event with
    | none => rfl
    | some op => rfl

/-- The bit that a call which receives these names gives to a name of the ledger. -/
def refiledBit (keyword : Option RubyVisibilityCall) (names : List N) (name : K) : Option Bool :=
  keyword.bind fun keyword =>
    if ∃ n ∈ names, target n keyword = some name then some keyword.bit else none

theorem refiledBit_cons (keyword : RubyVisibilityCall) (n : N) (names : List N) (name : K) :
    refiledBit target (some keyword) (n :: names) name =
      if target n keyword = some name then some keyword.bit
      else refiledBit target (some keyword) names name := by
  simp only [refiledBit, Option.bind_some]
  by_cases h : target n keyword = some name
  · simp [h]
  · simp [h]

/-- Later names of one keyword are given the same bit. -/
theorem refiledBit_getD (keyword : RubyVisibilityCall) (names : List N) (name : K) :
    (refiledBit target (some keyword) names name).getD keyword.bit = keyword.bit := by
  rw [refiledBit, Option.bind_some]
  split_ifs <;> rfl

/-- A call that is left overrides every bit of what it re-files. -/
theorem foldl_eager_refiles (keyword : Option RubyVisibilityCall) (names : List N)
    (slots : List (Option K × Bool)) :
    ((Argument.refiles keyword names).filterMap (ledgerOp target)).foldl eager slots =
      slots.map fun slot =>
        (slot.1, (slot.1.bind (refiledBit target keyword names)).getD slot.2) := by
  have hsame : ∀ slots : List (Option K × Bool),
      slots = slots.map fun slot => (slot.1, (slot.1.bind fun _ => none).getD slot.2) := by
    intro slots
    have hid : ∀ slot : Option K × Bool,
        (slot.1, (slot.1.bind fun _ : K => (none : Option Bool)).getD slot.2) = slot := by
      rintro ⟨_ | name, bit⟩ <;> rfl
    simp only [hid, List.map_id']
  cases keyword with
  | none => exact hsame slots
  | some keyword =>
    induction names generalizing slots with
    | nil =>
      have hnone : refiledBit target (some keyword) ([] : List N) = fun _ => none := by
        funext name
        simp [refiledBit]
      rw [hnone]
      exact hsame slots
    | cons n names ih =>
      have hcons : (Argument.refiles (some keyword) (n :: names)).filterMap (ledgerOp target) =
          ((target n keyword).map fun name => LedgerOp.refile name keyword.bit).toList ++
            (Argument.refiles (some keyword) names).filterMap (ledgerOp target) := by
        simp only [Argument.refiles, List.map_cons, List.filterMap_cons, ledgerOp]
        cases target n keyword <;> rfl
      rw [hcons, List.foldl_append, ih]
      cases htarget : target n keyword with
      | none =>
        have hskip : refiledBit target (some keyword) (n :: names) =
            refiledBit target (some keyword) names := by
          funext name
          rw [refiledBit_cons, htarget, if_neg (by simp)]
        rw [hskip]
        rfl
      | some found =>
        simp only [Option.map_some, Option.toList_some, List.foldl_cons, List.foldl_nil, eager,
          overwrite, List.map_map]
        apply List.map_congr_left
        rintro ⟨_ | name, bit⟩ -
        · rfl
        · by_cases hname : found = name
          · subst hname
            simp [refiledBit_cons, htarget, refiledBit_getD]
          · simp [refiledBit_cons, htarget, hname, Ne.symm hname]

open Argument

/-- A ledger settles to the bits of the reference. A nest of calls re-files every name at each
call that receives it, inner calls first. So a call overrides whatever the calls inside it gave
the names it receives: the outermost one decides. -/
theorem ledger_and_calls :
    (∀ ops : List (LedgerOp K),
      (ops.foldl RubyLedger.apply .new).ResolvesTo ((ops.foldl eager []).map Prod.snd)) ∧
    (∀ (visit : Event N D → σ → σ) keyword arguments s,
      readStatement visit keyword arguments s =
        carryOut visit (nested keyword arguments).events s) ∧
    ∀ (ops : List (LedgerOp K)) keyword (arguments : List (Argument N (Option K × Bool))),
      (readStatement (act target) keyword arguments
          (ops.foldl RubyLedger.apply .new)).ResolvesTo
        (((ops ++ (eventsAll arguments).filterMap (ledgerOp target)).foldl eager []).map fun slot =>
          (slot.1.bind (refiledBit target keyword (received arguments))).getD slot.2) := by
  refine ⟨fun ops => ?_, fun visit => readStatement_eq visit, fun ops keyword arguments => ?_⟩
  · exact (RubyLedger.agrees_foldl RubyLedger.agrees_new ops).resolvesTo
  · have hagrees := RubyLedger.agrees_foldl RubyLedger.agrees_new
      (ops ++ (nested keyword arguments).events.filterMap (ledgerOp target))
    rw [events, List.filterMap_append, ← List.append_assoc, List.foldl_append, List.foldl_append,
      List.foldl_append, foldl_eager_refiles] at hagrees
    rw [readStatement_eq, carryOut_act, events, List.filterMap_append, List.foldl_append]
    have hresolves := hagrees.resolvesTo
    rw [List.map_map] at hresolves
    exact hresolves

end Ledger

end BigCodeAnalysis.Metrics.Ruby
