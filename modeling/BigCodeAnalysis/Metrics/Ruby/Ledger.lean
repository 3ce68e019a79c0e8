import Mathlib.Data.List.AList

/-! The declarations of a Ruby class body. A keyword that names earlier declarations is kept as
one count and one bit for the name, and the bits are settled once the body has been read. -/

namespace BigCodeAnalysis.Metrics.Ruby

/-! ### Writing several slots -/

section Slots
variable {α : Type*}

/-- Write one value into each of these slots. -/
def setSlots (values : List α) (slots : List ℕ) (value : α) : List α :=
  slots.foldl (fun values slot => values.set slot value) values

theorem getElem?_setSlots (values : List α) (slots : List ℕ) (value : α) (i : ℕ) :
    (setSlots values slots value)[i]? =
      if i ∈ slots then values[i]?.map fun _ => value else values[i]? := by
  induction slots generalizing values with
  | nil => rfl
  | cons slot slots ih =>
    have hstep := ih (values.set slot value)
    rw [setSlots, List.foldl_cons]
    rw [setSlots] at hstep
    rw [hstep]
    by_cases hslot : slot = i
    · subst hslot
      by_cases hmem : slot ∈ slots
      · simp only [hmem, List.getElem?_set_self', if_true, List.mem_cons_self,
          Option.map_eq_map, Option.map_map]
        rfl
      · simp only [hmem, List.getElem?_set_self', if_false, List.mem_cons_self, if_true]
        rfl
    · rw [List.getElem?_set_ne hslot]
      simp [Ne.symm hslot]

theorem getElem?_concat_eq_some {values : List α} {value found : α} {i : ℕ} :
    (values ++ [value])[i]? = some found ↔
      values[i]? = some found ∨ i = values.length ∧ found = value := by
  rcases lt_trichotomy i values.length with hi | rfl | hi
  · rw [List.getElem?_append_left hi]
    exact (or_iff_left fun h => Nat.ne_of_lt hi h.1).symm
  · rw [List.getElem?_concat_length, List.getElem?_eq_none (le_refl _)]
    simp [eq_comm]
  · have hlong : (values ++ [value]).length ≤ i := by
      rw [List.length_append, List.length_singleton]
      omega
    rw [List.getElem?_eq_none hlong, List.getElem?_eq_none (Nat.le_of_lt hi)]
    simp [Nat.ne_of_gt hi]

end Slots

/-! ### The ledger -/

/-- The declarations of one name, and how many of them the last keyword to name it covered. -/
structure RubyNameEntry where
  slots : List ℕ
  refiled : Option (ℕ × Bool)
  deriving DecidableEq, Repr

structure RubyLedger (K : Type*) where
  /-- Every declaration's own bit. -/
  isPublic : List Bool
  byName : AList fun _ : K => RubyNameEntry

namespace RubyLedger
variable {K : Type*} [DecidableEq K]

def new : RubyLedger K := ⟨[], ∅⟩

def len (ledger : RubyLedger K) : ℕ := ledger.isPublic.length

/-- The entry of a name, empty for a new one. -/
def entry (ledger : RubyLedger K) (name : K) : RubyNameEntry :=
  (ledger.byName.lookup name).getD ⟨[], none⟩

/-- Record one declaration, and answer its slot. -/
def declare (ledger : RubyLedger K) (name : Option K) (isPublic : Bool) : RubyLedger K × ℕ :=
  let slot := ledger.isPublic.length
  let byName := match name with
    | some name =>
      let entry := ledger.entry name
      ledger.byName.insert name { entry with slots := entry.slots ++ [slot] }
    | none => ledger.byName
  (⟨ledger.isPublic ++ [isPublic], byName⟩, slot)

/-- Re-file every declaration of the name so far. -/
def refile (ledger : RubyLedger K) (name : K) (isPublic : Bool) : RubyLedger K :=
  match ledger.byName.lookup name with
  | some entry =>
    { ledger with
      byName := ledger.byName.insert name
        { entry with refiled := some (entry.slots.length, isPublic) } }
  | none => ledger

/-- Apply the last re-file of one name. -/
def settle (isPublic : List Bool) (entry : RubyNameEntry) : List Bool :=
  match entry.refiled with
  | some (covered, bit) => setSlots isPublic (entry.slots.take covered) bit
  | none => isPublic

/-- Every slot's bit. The entries are visited in the order the map gives them. -/
def resolved (ledger : RubyLedger K) (values : List RubyNameEntry) : List Bool :=
  values.foldl settle ledger.isPublic

/-- The bits are these, whatever order the map gives its entries in. -/
def ResolvesTo (ledger : RubyLedger K) (bits : List Bool) : Prop :=
  ∀ values : List RubyNameEntry, values.Perm (ledger.byName.entries.map Sigma.snd) →
    ledger.resolved values = bits

end RubyLedger

/-! ### The eager reference -/

inductive LedgerOp (K : Type*) where
  | declare (name : Option K) (isPublic : Bool)
  | refile (name : K) (isPublic : Bool)
  deriving DecidableEq, Repr

section Eager
variable {K : Type*} [DecidableEq K]

def RubyLedger.apply (ledger : RubyLedger K) : LedgerOp K → RubyLedger K
  | .declare name isPublic => (ledger.declare name isPublic).1
  | .refile name isPublic => ledger.refile name isPublic

/-- Overwrite the bit of every slot declared so far under the name. -/
def overwrite (slots : List (Option K × Bool)) (name : K) (isPublic : Bool) :
    List (Option K × Bool) :=
  slots.map fun slot => if slot.1 = some name then (slot.1, isPublic) else slot

/-- Every declaration's name and bit, with each re-file carried out at once. -/
def eager (slots : List (Option K × Bool)) : LedgerOp K → List (Option K × Bool)
  | .declare name isPublic => slots ++ [(name, isPublic)]
  | .refile name isPublic => overwrite slots name isPublic

end Eager

/-! ### Settling -/

/-- The bit a re-file of the name gives to a slot. -/
def RubyNameEntry.covers (entry : RubyNameEntry) (i : ℕ) : Option Bool :=
  entry.refiled.bind fun refiled =>
    if i ∈ entry.slots.take refiled.1 then some refiled.2 else none

theorem mem_of_covers {entry : RubyNameEntry} {i : ℕ} {bit : Bool}
    (h : entry.covers i = some bit) : i ∈ entry.slots := by
  obtain ⟨refiled, -, hcovers⟩ := Option.bind_eq_some_iff.mp h
  split_ifs at hcovers with hmem
  exact List.mem_of_mem_take hmem

namespace RubyLedger

theorem getElem?_settle (bits : List Bool) (entry : RubyNameEntry) (i : ℕ) :
    (settle bits entry)[i]? =
      match entry.covers i with
      | some bit => bits[i]?.map fun _ => bit
      | none => bits[i]? := by
  obtain ⟨slots, refiled⟩ := entry
  cases refiled with
  | none => rfl
  | some refiled =>
    simp only [settle, RubyNameEntry.covers, Option.bind_some, getElem?_setSlots]
    split_ifs <;> rfl

/-- Entries that cover other slots leave a slot alone. -/
theorem getElem?_foldl_settle_of_none {values : List RubyNameEntry} {i : ℕ}
    (h : ∀ entry ∈ values, entry.covers i = none) (bits : List Bool) :
    (values.foldl settle bits)[i]? = bits[i]? := by
  induction values generalizing bits with
  | nil => rfl
  | cons entry values ih =>
    rw [List.foldl_cons, ih fun e he => h e (List.mem_cons_of_mem _ he), getElem?_settle,
      h entry (List.mem_cons_self ..)]

/-- The entries that cover a slot decide its bit when they agree. -/
theorem getElem?_foldl_settle_of_some {values : List RubyNameEntry} {i : ℕ} {bit : Bool}
    (hagree : ∀ entry ∈ values, ∀ b, entry.covers i = some b → b = bit)
    (hsome : ∃ entry ∈ values, entry.covers i = some bit) (bits : List Bool) :
    (values.foldl settle bits)[i]? = bits[i]?.map fun _ => bit := by
  induction values generalizing bits with
  | nil =>
    obtain ⟨entry, hentry, -⟩ := hsome
    cases hentry
  | cons entry values ih =>
    have htail : ∀ e ∈ values, ∀ b, e.covers i = some b → b = bit :=
      fun e he => hagree e (List.mem_cons_of_mem _ he)
    rw [List.foldl_cons]
    by_cases hlater : ∃ e ∈ values, e.covers i = some bit
    · rw [ih htail hlater, getElem?_settle]
      cases hcovers : entry.covers i with
      | none => rfl
      | some b => simp only [Option.map_map, Function.comp_def]
    · have hnone : ∀ e ∈ values, e.covers i = none := by
        intro e he
        cases hcovers : e.covers i with
        | none => rfl
        | some b => exact absurd ⟨e, he, hcovers.trans (congrArg some (htail e he b hcovers))⟩ hlater
      obtain ⟨e, he, hcovers⟩ := hsome
      rcases List.mem_cons.mp he with rfl | he
      · rw [getElem?_foldl_settle_of_none hnone, getElem?_settle, hcovers]
      · exact absurd ⟨e, he, hcovers⟩ hlater

/-! ### The ledger keeps the reference -/

variable {K : Type*} [DecidableEq K]

/-- The bit a slot has now, declared under this name. -/
def bitAt (ledger : RubyLedger K) (name : Option K) (i : ℕ) : Option Bool :=
  (name.bind fun name => (ledger.entry name).covers i).or ledger.isPublic[i]?

/-- The ledger lists the slots of the reference by name, and gives each its bit. -/
structure Agrees (ledger : RubyLedger K) (slots : List (Option K × Bool)) : Prop where
  length : ledger.isPublic.length = slots.length
  mem_slots : ∀ name i,
    i ∈ (ledger.entry name).slots ↔ ∃ bit, slots[i]? = some (some name, bit)
  covered_le : ∀ name refiled, (ledger.entry name).refiled = some refiled →
    refiled.1 ≤ (ledger.entry name).slots.length
  bit : ∀ i slot, slots[i]? = some slot → ledger.bitAt slot.1 i = some slot.2

theorem agrees_new : (new : RubyLedger K).Agrees [] where
  length := rfl
  mem_slots name i := by simp [entry, new]
  covered_le name refiled h := by simp [entry, new] at h
  bit i slot h := by simp at h

theorem entry_declare (ledger : RubyLedger K) (name : Option K) (isPublic : Bool) (name' : K) :
    (ledger.declare name isPublic).1.entry name' =
      if name = some name' then
        { ledger.entry name' with
          slots := (ledger.entry name').slots ++ [ledger.isPublic.length] }
      else ledger.entry name' := by
  cases name with
  | none => rfl
  | some name =>
    by_cases h : name = name'
    · subst h
      simp only [declare, entry, AList.lookup_insert, Option.getD_some, if_true]
    · rw [if_neg (mt Option.some.inj h)]
      simp only [declare, entry, AList.lookup_insert_ne (Ne.symm h)]

theorem entry_refile (ledger : RubyLedger K) (name : K) (isPublic : Bool) (name' : K) :
    (ledger.refile name isPublic).entry name' =
      if name = name' ∧ (ledger.byName.lookup name).isSome then
        { ledger.entry name' with
          refiled := some ((ledger.entry name').slots.length, isPublic) }
      else ledger.entry name' := by
  unfold refile
  cases hlookup : ledger.byName.lookup name with
  | none => simp
  | some found =>
    by_cases h : name = name'
    · subst h
      simp [entry, hlookup]
    · simp [entry, h, AList.lookup_insert_ne (Ne.symm h)]

theorem agrees_declare {ledger : RubyLedger K} {slots : List (Option K × Bool)}
    (h : ledger.Agrees slots) (name : Option K) (isPublic : Bool) :
    (ledger.declare name isPublic).1.Agrees (slots ++ [(name, isPublic)]) := by
  have hbits : (ledger.declare name isPublic).1.isPublic = ledger.isPublic ++ [isPublic] := rfl
  have hlt : ∀ name' i, i ∈ (ledger.entry name').slots → i < slots.length := by
    intro name' i hi
    obtain ⟨bit, hbit⟩ := (h.mem_slots name' i).mp hi
    exact (List.getElem?_eq_some_iff.mp hbit).1
  -- a new slot is covered by no earlier re-file
  have hcovers : ∀ name' i, ((ledger.declare name isPublic).1.entry name').covers i =
      (ledger.entry name').covers i := by
    intro name' i
    rw [entry_declare]
    split_ifs
    · unfold RubyNameEntry.covers
      cases hrefiled : (ledger.entry name').refiled with
      | none => rfl
      | some refiled =>
        have hle := h.covered_le name' refiled hrefiled
        simp only [Option.bind_some, List.take_append_of_le_length hle]
    · rfl
  refine ⟨?_, ?_, ?_, ?_⟩
  · rw [hbits, List.length_append, List.length_append, h.length]
    rfl
  · intro name' i
    have hmem : i ∈ ((ledger.declare name isPublic).1.entry name').slots ↔
        i ∈ (ledger.entry name').slots ∨ name = some name' ∧ i = slots.length := by
      rw [entry_declare]
      split_ifs with hname
      · rw [List.mem_append, List.mem_singleton, h.length, and_iff_right hname]
      · simp [hname]
    rw [hmem, h.mem_slots]
    constructor
    · rintro (⟨bit, hbit⟩ | ⟨rfl, rfl⟩)
      · exact ⟨bit, by
          rw [List.getElem?_append_left (List.getElem?_eq_some_iff.mp hbit).1, hbit]⟩
      · exact ⟨isPublic, List.getElem?_concat_length⟩
    · rintro ⟨bit, hbit⟩
      rcases getElem?_concat_eq_some.mp hbit with hbit | ⟨rfl, hslot⟩
      · exact .inl ⟨bit, hbit⟩
      · exact .inr ⟨(congrArg Prod.fst hslot).symm, rfl⟩
  · intro name' refiled hrefiled
    rw [entry_declare] at hrefiled ⊢
    split_ifs at hrefiled ⊢
    · have hle := h.covered_le name' refiled hrefiled
      rw [List.length_append]
      omega
    · exact h.covered_le name' refiled hrefiled
  · intro i slot hslot
    have hcoversAt : (slot.1.bind fun name' =>
        ((ledger.declare name isPublic).1.entry name').covers i) =
        slot.1.bind fun name' => (ledger.entry name').covers i := by
      simp only [hcovers]
    rw [bitAt, hcoversAt, hbits]
    rcases getElem?_concat_eq_some.mp hslot with hslot | ⟨rfl, rfl⟩
    · have hi := (List.getElem?_eq_some_iff.mp hslot).1
      rw [List.getElem?_append_left (h.length ▸ hi)]
      exact h.bit i slot hslot
    · have hnone : (name.bind fun name' => (ledger.entry name').covers slots.length) = none := by
        apply Option.bind_eq_none_iff.mpr
        intro name' _
        cases hbit : (ledger.entry name').covers slots.length with
        | none => rfl
        | some bit => exact absurd (hlt name' _ (mem_of_covers hbit)) (lt_irrefl _)
      rw [hnone, Option.none_or, ← h.length, List.getElem?_concat_length]

theorem getElem?_overwrite (slots : List (Option K × Bool)) (name : K) (isPublic : Bool) (i : ℕ) :
    (overwrite slots name isPublic)[i]? =
      slots[i]?.map fun slot => if slot.1 = some name then (slot.1, isPublic) else slot :=
  List.getElem?_map

theorem agrees_refile {ledger : RubyLedger K} {slots : List (Option K × Bool)}
    (h : ledger.Agrees slots) (name : K) (isPublic : Bool) :
    (ledger.refile name isPublic).Agrees (overwrite slots name isPublic) := by
  have hbits : (ledger.refile name isPublic).isPublic = ledger.isPublic := by
    unfold refile
    split <;> rfl
  have hslots : ∀ name', ((ledger.refile name isPublic).entry name').slots =
      (ledger.entry name').slots := by
    intro name'
    rw [entry_refile]
    split_ifs <;> rfl
  refine ⟨?_, ?_, ?_, ?_⟩
  · rw [hbits, h.length, overwrite, List.length_map]
  · intro name' i
    rw [hslots, h.mem_slots, getElem?_overwrite]
    constructor
    · rintro ⟨bit, hbit⟩
      rw [hbit, Option.map_some]
      split_ifs
      · exact ⟨isPublic, rfl⟩
      · exact ⟨bit, rfl⟩
    · rintro ⟨bit, hbit⟩
      obtain ⟨⟨found, bit'⟩, hfound, hslot⟩ := Option.map_eq_some_iff.mp hbit
      split_ifs at hslot
      · have hkey : found = some name' := congrArg Prod.fst hslot
        exact ⟨bit', hkey ▸ hfound⟩
      · exact ⟨bit, hfound.trans (congrArg some hslot)⟩
  · intro name' refiled hrefiled
    rw [hslots]
    rw [entry_refile] at hrefiled
    split_ifs at hrefiled
    · rw [← Option.some.inj hrefiled]
    · exact h.covered_le name' refiled hrefiled
  · intro i slot hslot
    rw [getElem?_overwrite] at hslot
    obtain ⟨before, hbefore, hslot⟩ := Option.map_eq_some_iff.mp hslot
    by_cases hname : before.1 = some name
    · rw [if_pos hname] at hslot
      subst hslot
      have hmem : i ∈ (ledger.entry name).slots :=
        (h.mem_slots name i).mpr ⟨before.2, hbefore.trans (by rw [← hname])⟩
      have hfound : (ledger.byName.lookup name).isSome := by
        by_contra hnone
        rw [Option.not_isSome_iff_eq_none] at hnone
        rw [entry, hnone] at hmem
        cases hmem
      have hcovers : ((ledger.refile name isPublic).entry name).covers i = some isPublic := by
        rw [entry_refile, if_pos ⟨rfl, hfound⟩]
        simp [RubyNameEntry.covers, hmem]
      rw [bitAt]
      dsimp only
      rw [hname, Option.bind_some, hcovers]
      rfl
    · rw [if_neg hname] at hslot
      subst hslot
      have hsame : (before.1.bind fun name' =>
          ((ledger.refile name isPublic).entry name').covers i) =
          before.1.bind fun name' => (ledger.entry name').covers i := by
        apply Option.bind_congr
        intro name' hname'
        have hne : name ≠ name' := fun heq => hname (heq ▸ hname')
        rw [entry_refile, if_neg fun h => hne h.1]
      rw [bitAt, hsame, hbits]
      exact h.bit i before hbefore

theorem agrees_apply {ledger : RubyLedger K} {slots : List (Option K × Bool)}
    (h : ledger.Agrees slots) (op : LedgerOp K) : (ledger.apply op).Agrees (eager slots op) := by
  cases op with
  | declare name isPublic => exact agrees_declare h name isPublic
  | refile name isPublic => exact agrees_refile h name isPublic

theorem agrees_foldl {ledger : RubyLedger K} {slots : List (Option K × Bool)}
    (h : ledger.Agrees slots) (ops : List (LedgerOp K)) :
    (ops.foldl RubyLedger.apply ledger).Agrees (ops.foldl eager slots) := by
  induction ops generalizing ledger slots with
  | nil => exact h
  | cons op ops ih => exact ih (agrees_apply h op)

/-- A slot that an entry covers is declared under the entry's name. -/
theorem Agrees.name_of_covers {ledger : RubyLedger K} {slots : List (Option K × Bool)}
    (h : ledger.Agrees slots) {name : K} {e : RubyNameEntry} {i : ℕ} {bit : Bool}
    (hlookup : ledger.byName.lookup name = some e) (hcovers : e.covers i = some bit) :
    slots[i]? = some (some name, bit) := by
  have hentry : ledger.entry name = e := by rw [entry, hlookup, Option.getD_some]
  obtain ⟨bit', hslot⟩ := (h.mem_slots name i).mp (hentry ▸ mem_of_covers hcovers)
  have hbit := h.bit i _ hslot
  rw [bitAt, Option.bind_some, hentry, hcovers, Option.some_or] at hbit
  rw [hslot, Option.some.inj hbit]

/-- Settled, a ledger gives the bits of the reference. -/
theorem Agrees.resolvesTo {ledger : RubyLedger K} {slots : List (Option K × Bool)}
    (h : ledger.Agrees slots) : ledger.ResolvesTo (slots.map Prod.snd) := by
  intro values hperm
  -- the entries of the map are those of its names
  have hmem : ∀ e, e ∈ values ↔ ∃ name, ledger.byName.lookup name = some e := by
    intro e
    rw [hperm.mem_iff, List.mem_map]
    constructor
    · rintro ⟨⟨name, e⟩, he, rfl⟩
      exact ⟨name, AList.mem_lookup_iff.mpr he⟩
    · rintro ⟨name, hname⟩
      exact ⟨⟨name, e⟩, AList.mem_lookup_iff.mp hname, rfl⟩
  have hslot : ∀ e ∈ values, ∀ i bit, e.covers i = some bit →
      ∃ name, slots[i]? = some (some name, bit) := by
    intro e he i bit hcovers
    obtain ⟨name, hlookup⟩ := (hmem e).mp he
    exact ⟨name, h.name_of_covers hlookup hcovers⟩
  apply List.ext_getElem?
  intro i
  rw [List.getElem?_map, resolved]
  by_cases hcovered : ∃ e ∈ values, ∃ bit, e.covers i = some bit
  · obtain ⟨e, he, bit, hcovers⟩ := hcovered
    obtain ⟨name, hi⟩ := hslot e he i bit hcovers
    have hlt : i < ledger.isPublic.length := h.length ▸ (List.getElem?_eq_some_iff.mp hi).1
    have hagree : ∀ e' ∈ values, ∀ b, e'.covers i = some b → b = bit := by
      intro e' he' b hb
      obtain ⟨name', hi'⟩ := hslot e' he' i b hb
      exact congrArg Prod.snd (Option.some.inj (hi'.symm.trans hi))
    rw [getElem?_foldl_settle_of_some hagree ⟨e, he, hcovers⟩, hi,
      List.getElem?_eq_getElem hlt]
    rfl
  · have hnone : ∀ e ∈ values, e.covers i = none := by
      intro e he
      cases hcovers : e.covers i with
      | none => rfl
      | some bit => exact absurd ⟨e, he, bit, hcovers⟩ hcovered
    rw [getElem?_foldl_settle_of_none hnone]
    cases hi : slots[i]? with
    | none =>
      rw [List.getElem?_eq_none (h.length ▸ List.getElem?_eq_none_iff.mp hi)]
      rfl
    | some slot =>
      have hbind : (slot.1.bind fun name => (ledger.entry name).covers i) = none := by
        apply Option.bind_eq_none_iff.mpr
        intro name _
        unfold entry
        cases hlookup : ledger.byName.lookup name with
        | none => rfl
        | some e => exact hnone e ((hmem e).mpr ⟨name, hlookup⟩)
      have hbit := h.bit i slot hi
      rw [bitAt, hbind, Option.none_or] at hbit
      exact hbit

end RubyLedger

end BigCodeAnalysis.Metrics.Ruby
