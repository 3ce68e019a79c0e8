import BigCodeAnalysis.Sequences.Utf8Code
import Mathlib.Algebra.GroupWithZero.Nat
import Mathlib.Data.List.Basic
import Mathlib.Data.List.DropRight

/-! Slices of a sequence by index, as a bounds-checked access takes them, and texts cut at byte
offsets, where a slice exists when its ends are in order, in range and between characters. -/

namespace BigCodeAnalysis.Sequences

section

variable {α : Type*}

/-- `xs[start..stop]`, which fails out of range. -/
def slice (xs : List α) (start stop : ℕ) : Option (List α) :=
  if start ≤ stop ∧ stop ≤ xs.length then some ((xs.take stop).drop start) else none

theorem slice_eq_some {xs : List α} {start stop : ℕ} (hstart : start ≤ stop)
    (hstop : stop ≤ xs.length) : slice xs start stop = some ((xs.take stop).drop start) :=
  if_pos ⟨hstart, hstop⟩

end

/-! ### Byte offsets -/

/-- The length of a text in UTF-8 bytes. -/
def byteLen (text : List Char) : ℕ := (text.map Char.utf8Size).sum

@[simp] theorem byteLen_nil : byteLen [] = 0 := rfl

@[simp] theorem byteLen_cons (c : Char) (text : List Char) :
    byteLen (c :: text) = c.utf8Size + byteLen text := by
  rw [byteLen, List.map_cons, List.sum_cons, byteLen]

@[simp] theorem byteLen_append (a b : List Char) : byteLen (a ++ b) = byteLen a + byteLen b := by
  rw [byteLen, List.map_append, List.sum_append, byteLen, byteLen]

theorem length_le_byteLen (text : List Char) : text.length ≤ byteLen text := by
  induction text with
  | nil => exact Nat.le_refl 0
  | cons c text ih =>
    have hpos := c.utf8Size_pos
    rw [List.length_cons, byteLen_cons]
    omega

/-- The text before and after a byte offset. -/
def splitAtByte : ℕ → List Char → Option (List Char × List Char)
  | 0, text => some ([], text)
  | _ + 1, [] => none
  | n + 1, c :: text =>
    if c.utf8Size ≤ n + 1 then
      (splitAtByte (n + 1 - c.utf8Size) text).map fun (before, after) => (c :: before, after)
    else none

/-- The text between two byte offsets. -/
def sliceBytes (text : List Char) (start stop : ℕ) : Option (List Char) :=
  if start ≤ stop then do
    let (_, rest) ← splitAtByte start text
    let (slice, _) ← splitAtByte (stop - start) rest
    return slice
  else none

theorem splitAtByte_append (a b : List Char) : splitAtByte (byteLen a) (a ++ b) = some (a, b) := by
  induction a with
  | nil => cases b <;> rfl
  | cons c a ih =>
    have hpos := c.utf8Size_pos
    obtain ⟨n, hn⟩ : ∃ n, byteLen (c :: a) = n + 1 := ⟨byteLen (c :: a) - 1, by
      rw [byteLen_cons]
      omega⟩
    have hle : c.utf8Size ≤ n + 1 := by
      rw [← hn, byteLen_cons]
      omega
    have hrest : n + 1 - c.utf8Size = byteLen a := by
      rw [← hn, byteLen_cons]
      omega
    rw [hn, List.cons_append, splitAtByte, if_pos hle, hrest, ih]
    rfl

/-- The text between two cuts is a slice. -/
theorem sliceBytes_append (a b c : List Char) {stop : ℕ} (h : stop = byteLen a + byteLen b) :
    sliceBytes (a ++ b ++ c) (byteLen a) stop = some b := by
  subst h
  rw [sliceBytes, if_pos (Nat.le_add_right _ _), Nat.add_sub_cancel_left, List.append_assoc,
    splitAtByte_append, Option.bind_eq_bind, Option.bind_some]
  simp only [splitAtByte_append, Option.bind_some]
  rfl

/-! ### Prefixes and suffixes -/

section Strip

variable {α : Type*} [DecidableEq α]

def stripStart (start text : List α) : Option (List α) :=
  if start <+: text then some (text.drop start.length) else none

def stripEnd (stop text : List α) : Option (List α) :=
  if stop <:+ text then some (text.take (text.length - stop.length)) else none

theorem stripStart_eq_some {start text rest : List α} :
    stripStart start text = some rest ↔ text = start ++ rest := by
  unfold stripStart
  constructor
  · intro h
    split at h
    · obtain ⟨t, rfl⟩ := ‹start <+: text›
      rw [List.drop_left, Option.some_inj] at h
      rw [h]
    · cases h
  · rintro rfl
    rw [if_pos (List.prefix_append start rest), List.drop_left]

theorem stripStart_eq_none {start text : List α} :
    stripStart start text = none ↔ ¬start <+: text := by
  unfold stripStart
  split <;> simp [*]

theorem stripEnd_eq_some {stop text rest : List α} :
    stripEnd stop text = some rest ↔ text = rest ++ stop := by
  unfold stripEnd
  constructor
  · intro h
    split at h
    · obtain ⟨t, rfl⟩ := ‹stop <:+ text›
      rw [List.length_append, Nat.add_sub_cancel, List.take_left, Option.some_inj] at h
      rw [h]
    · cases h
  · rintro rfl
    rw [if_pos (List.suffix_append rest stop), List.length_append, Nat.add_sub_cancel,
      List.take_left]

end Strip

/-! ### Windows of a sorted list -/

section Window

variable {α : Type*} {l : List α} {p : α → Bool}

/-- Where nothing below follows something above, dropping the lower part filters it out. -/
theorem dropWhile_eq_filter (h : l.Pairwise fun a b => p b = true → p a = true) :
    l.dropWhile p = l.filter fun a => !p a := by
  induction l with
  | nil => rfl
  | cons a l ih =>
    obtain ⟨ha, hl⟩ := List.pairwise_cons.mp h
    by_cases hp : p a = true
    · rw [List.dropWhile_cons_of_pos hp, ih hl, List.filter_cons_of_neg (by simpa using hp)]
    · rw [List.dropWhile_cons_of_neg hp, List.filter_cons_of_pos (by simpa using hp)]
      have hall : ∀ b ∈ l, (!p b) = true := by
        intro b hb
        simpa using fun hpb => hp (ha b hb hpb)
      rw [List.filter_eq_self.mpr hall]

theorem takeWhile_eq_filter (h : l.Pairwise fun a b => p b = true → p a = true) :
    l.takeWhile p = l.filter p := by
  induction l with
  | nil => rfl
  | cons a l ih =>
    obtain ⟨ha, hl⟩ := List.pairwise_cons.mp h
    by_cases hp : p a = true
    · rw [List.takeWhile_cons_of_pos hp, ih hl, List.filter_cons_of_pos hp]
    · rw [List.takeWhile_cons_of_neg hp, List.filter_cons_of_neg hp]
      exact (List.filter_eq_nil_iff.mpr fun b hb hpb => hp (ha b hb hpb)).symm

end Window

end BigCodeAnalysis.Sequences
