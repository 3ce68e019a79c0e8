import BigCodeAnalysis.Sequences.Slice
import BigCodeAnalysis.Spaces.FuncSpace

/-! Whether a Rust `cfg` predicate marks its item as test-only. The predicate is walked
one region at a time: its commas at the region's own nesting depth cut a region into
operands, and the argument list of an `all(...)` or `any(...)` operand is a region one
level deeper. One scan of the whole text records the absolute depth of every comma, and
each region looks its split points up there. A slice out of range, inverted or inside a
character stops the program. -/

namespace BigCodeAnalysis.Languages.CfgPredicate

open Sequences Spaces

def openParen : UInt8 := 40

def closeParen : UInt8 := 41

def comma : UInt8 := 44

/-- `(depth, offset)` of every comma at a depth of at least 0. The depth is a signed
running count. -/
def scanCommas : ℤ → ℕ → List UInt8 → List (ℕ × ℕ)
  | _, _, [] => []
  | depth, offset, byte :: bytes =>
    if byte = openParen then scanCommas (depth + 1) (offset + 1) bytes
    else if byte = closeParen then scanCommas (depth - 1) (offset + 1) bytes
    else if byte = comma then
      if 0 ≤ depth then (depth.toNat, offset) :: scanCommas depth (offset + 1) bytes
      else scanCommas depth (offset + 1) bytes
    else scanCommas depth (offset + 1) bytes

/-- The order of the entries: by depth, then by offset. -/
def entryLe (a b : ℕ × ℕ) : Bool := a.1 < b.1 || (a.1 = b.1 && a.2 ≤ b.2)

structure CommaIndex where
  entries : List (ℕ × ℕ)

def CommaIndex.build (pred : List Char) : CommaIndex where
  entries := (scanCommas 0 0 (pred.flatMap String.utf8EncodeChar)).mergeSort entryLe

/-- A byte range of the predicate. -/
structure Region where
  start : ℕ
  stop : ℕ
  deriving DecidableEq, Repr

/-- The commas that split a region whose operands sit at `depth`: the run of entries from
`(depth, region.start)` on. -/
def CommaIndex.splits (self : CommaIndex) (region : Region) (depth : ℕ) : List ℕ :=
  ((self.entries.dropWhile fun entry => !entryLe (depth, region.start) entry).takeWhile
    fun entry => entry.1 = depth && entry.2 < region.stop).map Prod.snd

/-! ### Operands -/

def trimStart (text : List Char) : List Char := text.dropWhile isWhitespace

def trimEnd (text : List Char) : List Char := text.rdropWhile isWhitespace

def trim (text : List Char) : List Char := trimEnd (trimStart text)

/-- `(` first and `)` last after the combinator `not`. -/
def isNot (trimmed : List Char) : Bool :=
  ((stripStart "not".toList trimmed).map trimStart).any fun rest =>
    (stripStart ['('] rest).isSome && (stripEnd [')'] rest).isSome

/-- The text after the opening parenthesis of `all` or `any`, and the argument list: the
last character is `)`, which need not match the opening one. -/
def combinatorArgs (trimmed : List Char) : Option (List Char × List Char) := do
  let rest ← (stripStart "all".toList trimmed).or (stripStart "any".toList trimmed)
  let inside ← stripStart ['('] (trimStart rest)
  let args ← stripEnd [')'] inside
  return (inside, args)

inductive Operand where
  | test
  | args (region : Region)
  | opaqueOperand
  deriving DecidableEq, Repr

/-- `classify_cfg_operand`: the operand is a slice of the predicate, and the argument
list is found by lengths alone. -/
def classifyCfgOperand (pred : List Char) (operand : Region) : Option Operand := do
  let raw ← sliceBytes pred operand.start operand.stop
  let trimmed := trim raw
  if trimmed = "test".toList then return .test
  else if isNot trimmed then return .opaqueOperand
  else
    match combinatorArgs trimmed with
    | some (inside, args) =>
      let stop := operand.start + byteLen (trimEnd raw)
      if byteLen inside ≤ stop then
        let start := stop - byteLen inside
        return .args ⟨start, start + byteLen args⟩
      else none
    | none => return .opaqueOperand

/-! ### The walk -/

/-- The operands of one region, up to each boundary. `none` inside means that an operand
is `test`. -/
def walkOperands (pred : List Char) (depth : ℕ) :
    List ℕ → ℕ → List (Region × ℕ) → Option (Option (List (Region × ℕ)))
  | [], _, stack => some (some stack)
  | boundary :: boundaries, start, stack => do
    match ← classifyCfgOperand pred ⟨start, boundary⟩ with
    | .test => return none
    | .args region =>
      walkOperands pred depth boundaries (boundary + 1) ((region, depth + 1) :: stack)
    | .opaqueOperand => walkOperands pred depth boundaries (boundary + 1) stack

/-- The work stack, with a bound on the regions popped. -/
def walkRegions (pred : List Char) (commas : CommaIndex) :
    ℕ → List (Region × ℕ) → Option Bool
  | _, [] => some false
  | 0, _ :: _ => none
  | fuel + 1, (region, depth) :: stack => do
    let boundaries := commas.splits region depth ++ [region.stop]
    match ← walkOperands pred depth boundaries region.start stack with
    | none => return true
    | some stack => walkRegions pred commas fuel stack

/-- A walk pops no more regions than the predicate has bytes and one. -/
def cfgPredicateMarksTest (pred : List Char) : Option Bool :=
  walkRegions pred (CommaIndex.build pred) (byteLen pred + 1) [(⟨0, byteLen pred⟩, 0)]

/-! ### The recursive reading -/

/-- The change of the depth over a character. -/
def charDelta (c : Char) : ℤ := if c = '(' then 1 else if c = ')' then -1 else 0

/-- A text cut at its commas at depth 0, counted from `depth`. -/
def splitTop : ℤ → List Char → List (List Char)
  | _, [] => [[]]
  | depth, c :: text =>
    if c = ',' ∧ depth = 0 then [] :: splitTop depth text
    else
      match splitTop (depth + charDelta c) text with
      | operand :: operands => (c :: operand) :: operands
      | [] => [[c]]

theorem length_le_of_mem_splitTop {depth : ℤ} {text operand : List Char}
    (h : operand ∈ splitTop depth text) : operand.length ≤ text.length := by
  induction text generalizing depth operand with
  | nil =>
    rw [splitTop, List.mem_singleton] at h
    rw [h]
  | cons c text ih =>
    rw [splitTop] at h
    split at h
    · rcases List.mem_cons.mp h with rfl | h
      · exact Nat.zero_le _
      · exact Nat.le_succ_of_le (ih h)
    · cases hsplit : splitTop (depth + charDelta c) text with
      | nil =>
        rw [hsplit, List.mem_singleton] at h
        rw [h]
        exact Nat.succ_le_succ (Nat.zero_le _)
      | cons first operands =>
        have hmem : ∀ o ∈ first :: operands, o.length ≤ text.length := by
          intro o ho
          exact ih (hsplit ▸ ho)
        rw [hsplit] at h
        rcases List.mem_cons.mp h with rfl | h
        · exact Nat.succ_le_succ (hmem first List.mem_cons_self)
        · exact Nat.le_succ_of_le (hmem operand (List.mem_cons_of_mem _ h))

theorem rdropWhile_length_le {α : Type*} (p : α → Bool) (l : List α) :
    (l.rdropWhile p).length ≤ l.length := (List.rdropWhile_prefix p l).length_le

theorem length_trim_le (text : List Char) : (trim text).length ≤ text.length :=
  (rdropWhile_length_le _ _).trans (List.dropWhile_sublist _).length_le

/-- An argument list is shorter than its operand. -/
theorem length_lt_of_combinatorArgs {trimmed inside args : List Char}
    (h : combinatorArgs trimmed = some (inside, args)) : args.length < trimmed.length := by
  unfold combinatorArgs at h
  obtain ⟨rest, hrest, h⟩ := Option.bind_eq_some_iff.mp h
  obtain ⟨inside', hinside, h⟩ := Option.bind_eq_some_iff.mp h
  obtain ⟨args', hargs, h⟩ := Option.bind_eq_some_iff.mp h
  obtain ⟨rfl, rfl⟩ := Prod.mk.inj (Option.some_inj.mp h)
  have hlen : rest.length ≤ trimmed.length := by
    rcases Option.or_eq_some_iff.mp hrest with h | ⟨-, h⟩
    · rw [stripStart_eq_some.mp h, List.length_append]
      omega
    · rw [stripStart_eq_some.mp h, List.length_append]
      omega
  have htrim : (trimStart rest).length ≤ rest.length := (List.dropWhile_sublist _).length_le
  rw [stripStart_eq_some.mp hinside, stripEnd_eq_some.mp hargs] at htrim
  simp only [List.length_append, List.length_singleton] at htrim
  omega

/-- The naive reading: cut the region at its own top-level commas, counting from 0, and
read each operand; `all(...)` and `any(...)` are read the same way again. -/
def naiveMarksTest (region : List Char) : Bool :=
  (splitTop 0 region).attach.any fun ⟨operand, _⟩ =>
    if trim operand = "test".toList then true
    else if isNot (trim operand) then false
    else
      match _ : combinatorArgs (trim operand) with
      | some (_, args) => naiveMarksTest args
      | none => false
termination_by region.length
decreasing_by
  have h₁ := length_lt_of_combinatorArgs ‹combinatorArgs (trim operand) = _›
  have h₂ := length_trim_le operand
  have h₃ := length_le_of_mem_splitTop ‹operand ∈ splitTop 0 region›
  omega

end BigCodeAnalysis.Languages.CfgPredicate
