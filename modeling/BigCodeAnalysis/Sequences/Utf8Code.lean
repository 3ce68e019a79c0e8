import Mathlib.Data.List.Basic
import Mathlib.Data.Nat.Basic
import Mathlib.Data.Set.Basic

/-! UTF-8 as a code none of whose words is the beginning of another, so that a sequence of words is
read in one way only: the words of the scalar values are prefix free, and an ASCII byte occurs in
the word of its own character only. Lossy decoding replaces a maximal run of bytes that begins no
character by one replacement character. -/

namespace BigCodeAnalysis.Sequences

section

variable {α β : Type*}

structure PrefixCode (s : Set α) (code : α → List β) : Prop where
  ne_nil : ∀ a ∈ s, code a ≠ []
  eq_of_prefix : ∀ a ∈ s, ∀ b ∈ s, code a <+: code b → a = b

namespace PrefixCode
variable {s : Set α} {code : α → List β}

/-- A list of symbols is determined by the words written one after the other. -/
theorem flatMap_injective (h : PrefixCode s code) {l l' : List α} (hl : ∀ a ∈ l, a ∈ s)
    (hl' : ∀ a ∈ l', a ∈ s) (heq : l.flatMap code = l'.flatMap code) : l = l' := by
  induction l generalizing l' with
  | nil =>
    cases l' with
    | nil => rfl
    | cons b l' =>
      have hnil := List.append_eq_nil_iff.mp heq.symm
      exact absurd hnil.1 (h.ne_nil b (hl' b (List.mem_cons_self ..)))
  | cons a l ih =>
    have ha := hl a (List.mem_cons_self ..)
    cases l' with
    | nil =>
      have hnil := List.append_eq_nil_iff.mp heq
      exact absurd hnil.1 (h.ne_nil a ha)
    | cons b l' =>
      have hb := hl' b (List.mem_cons_self ..)
      rw [List.flatMap_cons, List.flatMap_cons] at heq
      have hab : a = b := by
        have hleft : code a <+: code a ++ l.flatMap code := List.prefix_append _ _
        have hright : code b <+: code a ++ l.flatMap code := heq ▸ List.prefix_append _ _
        rcases List.prefix_or_prefix_of_prefix hleft hright with hpre | hpre
        · exact h.eq_of_prefix a ha b hb hpre
        · exact (h.eq_of_prefix b hb a ha hpre).symm
      subst hab
      have hrest := List.append_cancel_left heq
      rw [ih (fun c hc => hl c (List.mem_cons_of_mem _ hc))
        (fun c hc => hl' c (List.mem_cons_of_mem _ hc)) hrest]

end PrefixCode

/-- What stands before the first separator is determined, and what stands behind it. -/
theorem append_separator_inj {sep : β} {x x' y y' : List β} (hx : sep ∉ x) (hx' : sep ∉ x')
    (h : x ++ sep :: y = x' ++ sep :: y') : x = x' ∧ y = y' := by
  induction x generalizing x' with
  | nil =>
    cases x' with
    | nil => exact ⟨rfl, (List.cons_eq_cons.mp h).2⟩
    | cons b x' => exact absurd ((List.cons_eq_cons.mp h).1 ▸ List.mem_cons_self ..) hx'
  | cons a x ih =>
    cases x' with
    | nil => exact absurd ((List.cons_eq_cons.mp h).1 ▸ List.mem_cons_self ..) hx
    | cons b x' =>
      obtain ⟨hab, hrest⟩ := List.cons_eq_cons.mp h
      obtain ⟨htexts, hafter⟩ := ih (fun hmem => hx (List.mem_cons_of_mem _ hmem))
        (fun hmem => hx' (List.mem_cons_of_mem _ hmem)) hrest
      exact ⟨List.cons_eq_cons.mpr ⟨hab, htexts⟩, hafter⟩

end

/-! ### The words of the scalar values -/

theorem forall_byte {p : UInt8 → Prop} (h : ∀ n < 256, p (UInt8.ofNat n)) (b : UInt8) : p b := by
  have hb := h b.toNat (UInt8.toNat_lt b)
  rwa [UInt8.ofNat_toNat] at hb

theorem prefixCode_utf8 : PrefixCode Set.univ String.utf8EncodeChar where
  ne_nil := fun _ _ => String.utf8EncodeChar_ne_nil
  eq_of_prefix := by
    rintro a - b - ⟨rest, hrest⟩
    have ha := ByteArray.utf8DecodeChar?_utf8EncodeChar_append (b := rest.toByteArray) (c := a)
    have hb := ByteArray.utf8DecodeChar?_utf8EncodeChar_append (b := ByteArray.empty) (c := b)
    rw [← List.toByteArray_append, hrest] at ha
    rw [ByteArray.append_empty] at hb
    exact Option.some.inj (ha.symm.trans hb)

theorem utf8EncodeChar_of_lt {c : Char} (h : c.toNat < 128) :
    String.utf8EncodeChar c = [UInt8.ofNat c.toNat] := by
  have hval : c.val.toNat ≤ 127 := Nat.le_of_lt_succ h
  exact if_pos hval

/-- An ASCII byte occurs in the word of its own character only. -/
theorem toNat_eq_of_mem {c : Char} {b : UInt8} (hb : b.toNat < 128)
    (h : b ∈ String.utf8EncodeChar c) : c.toNat = b.toNat := by
  have hhigh : ∀ n base : ℕ, 128 ≤ base → base + n < 256 → b ≠ UInt8.ofNat (n + base) := by
    rintro n base hbase hlt rfl
    rw [UInt8.toNat_ofNat'] at hb
    omega
  unfold String.utf8EncodeChar at h
  dsimp only at h
  split_ifs at h with h₁ h₂ h₃
  · obtain rfl := List.mem_singleton.mp h
    rw [UInt8.toNat_ofNat', Nat.mod_eq_of_lt (by omega)]
    rfl
  · simp only [List.mem_cons, List.not_mem_nil, or_false] at h
    rcases h with h | h <;> exact absurd h (hhigh _ _ (by omega) (by omega))
  · simp only [List.mem_cons, List.not_mem_nil, or_false] at h
    rcases h with h | h | h <;> exact absurd h (hhigh _ _ (by omega) (by omega))
  · simp only [List.mem_cons, List.not_mem_nil, or_false] at h
    rcases h with h | h | h | h <;> exact absurd h (hhigh _ _ (by omega) (by omega))

theorem validateUTF8_iff (bytes : List UInt8) :
    (ByteArray.mk bytes.toArray).validateUTF8 = true ↔
      ∃ text : List Char, text.flatMap String.utf8EncodeChar = bytes := by
  have hbytes : ByteArray.mk bytes.toArray = bytes.toByteArray := by
    apply ByteArray.ext
    rw [List.data_toByteArray]
  rw [ByteArray.validateUTF8_eq_true_iff, hbytes]
  constructor
  · rintro ⟨text, htext⟩
    exact ⟨text, (List.toByteArray_inj.mp htext).symm⟩
  · rintro ⟨text, rfl⟩
    exact ⟨text, rfl⟩

/-! ### Lossy decoding -/

def isContinuation (b : UInt8) : Bool := 0x80 ≤ b ∧ b ≤ 0xBF

/-- The length of the character a lead byte begins, zero for a byte that begins none. -/
def charWidth (b : UInt8) : ℕ :=
  if b < 0x80 then 1
  else if 0xC2 ≤ b ∧ b ≤ 0xDF then 2
  else if 0xE0 ≤ b ∧ b ≤ 0xEF then 3
  else if 0xF0 ≤ b ∧ b ≤ 0xF4 then 4
  else 0

/-- Whether a second byte fits its lead byte: no overlong form, no surrogate and nothing
above U+10FFFF. -/
def secondFits (b next : UInt8) : Bool :=
  if b = 0xE0 then 0xA0 ≤ next ∧ next ≤ 0xBF
  else if b = 0xED then 0x80 ≤ next ∧ next ≤ 0x9F
  else if b = 0xF0 then 0x90 ≤ next ∧ next ≤ 0xBF
  else if b = 0xF4 then 0x80 ≤ next ∧ next ≤ 0x8F
  else isContinuation next

/-- How many of `bytes`, at most `left`, are continuation bytes. -/
def continuations (left : ℕ) (bytes : List UInt8) : ℕ :=
  ((bytes.take left).takeWhile isContinuation).length

/-- The length of the first chunk, a character or a maximal part of none, and whether it
is a character. -/
def firstChunk : List UInt8 → ℕ × Bool
  | [] => (0, false)
  | [b] => (1, charWidth b = 1)
  | b :: next :: rest =>
    match charWidth b with
    | 0 => (1, false)
    | 1 => (1, true)
    | width + 2 =>
      if secondFits b next then
        let more := continuations width rest
        (2 + more, more = width)
      else (1, false)

/-- The replacement character U+FFFD. -/
def replacement : List UInt8 := [0xEF, 0xBF, 0xBD]

def lossyFrom : ℕ → List UInt8 → List UInt8
  | 0, _ => []
  | _ + 1, [] => []
  | fuel + 1, bytes =>
    let (n, valid) := firstChunk bytes
    (if valid then bytes.take n else replacement) ++ lossyFrom fuel (bytes.drop n)

/-- `String::from_utf8_lossy`: every chunk is at least one byte long. -/
def fromUtf8Lossy (bytes : List UInt8) : List UInt8 := lossyFrom bytes.length bytes

end BigCodeAnalysis.Sequences
