import BigCodeAnalysis.Baseline.PathKey
import BigCodeAnalysis.Sequences.Utf8Code
import Mathlib.Algebra.Group.Nat.Defs
import Mathlib.Data.List.Forall2

/-! C-style quoted paths in a diff. Whatever mix of literal bytes, letter escapes and octal
escapes spells a path, unquoting returns its bytes where they are UTF-8 and their lossy
decoding where they are not. A text is its UTF-8 bytes. -/

namespace BigCodeAnalysis.Vcs

open Baseline (isUtf8 backslash)
open Sequences

abbrev Bytes := List UInt8

def doubleQuote : UInt8 := 34

/-- The byte a letter escape stands for. -/
def decodeNamedEscape (b : UInt8) : Option UInt8 :=
  if b = 97 then some 0x07
  else if b = 98 then some 0x08
  else if b = 116 then some 9
  else if b = 110 then some 10
  else if b = 118 then some 0x0b
  else if b = 102 then some 0x0c
  else if b = 114 then some 13
  else if b = doubleQuote then some doubleQuote
  else if b = backslash then some backslash
  else none

def isOctalDigit (b : UInt8) : Bool := (48 ≤ b ∧ b ≤ 57) ∧ b < 56

def toU16 (value : ℕ) : Option ℕ := if value < 2 ^ 16 then some value else none

/-- The digits of an octal escape from `j` on; `left` counts down to three behind the
backslash. `none` where an index is out of range or the value is no `u16`. -/
def octalLoop (raw : Bytes) : ℕ → ℕ → ℕ → Option (ℕ × ℕ)
  | 0, val, j => some (val, j)
  | left + 1, val, j =>
    if j < raw.length then do
      let b ← raw[j]?
      if isOctalDigit b then do
        let high ← toU16 (val * 8)
        let val ← toU16 (high + (b.toNat - 48))
        octalLoop raw left val (j + 1)
      else some (val, j)
    else some (val, j)

/-- The loop over the text between the quotes; `none` also where the fuel runs out. -/
def unescapeFrom (raw : Bytes) : ℕ → ℕ → Bytes → Option Bytes
  | 0, _, _ => none
  | fuel + 1, i, out =>
    if i < raw.length then do
      let b ← raw[i]?
      match if b = backslash then raw[i + 1]? else none with
      | none => unescapeFrom raw fuel (i + 1) (out ++ [b])
      | some next =>
        match decodeNamedEscape next with
        | some byte => unescapeFrom raw fuel (i + 2) (out ++ [byte])
        | none =>
          if isOctalDigit next then do
            let (val, j) ← octalLoop raw 3 0 (i + 1)
            -- three octal digits can spell more than a byte
            unescapeFrom raw fuel j (out ++ [UInt8.ofNat (val % 256)])
          else unescapeFrom raw fuel (i + 1) (out ++ [backslash])
    else some out

def unescape (raw : Bytes) : Option Bytes := unescapeFrom raw (raw.length + 1) 0 []

/-- The text between a pair of double quotes. -/
def stripQuotes : Bytes → Option Bytes
  | [] => none
  | b :: rest =>
    if b = doubleQuote ∧ rest.getLast? = some doubleQuote then some rest.dropLast else none

def fromUtf8OrLossy (bytes : Bytes) : Bytes :=
  if isUtf8 bytes then bytes else fromUtf8Lossy bytes

/-- `none` would be a panic. -/
def unquoteGitPath (token : Bytes) : Option Bytes :=
  match stripQuotes token with
  | none => some token
  | some inner => (unescape inner).map fromUtf8OrLossy

/-! ### Quoting -/

def octalDigits (b : UInt8) : Bytes := [48 + b / 64, 48 + b / 8 % 8, 48 + b % 8]

/-- The letter that spells a byte behind a backslash. -/
def letterOf (b : UInt8) : Option UInt8 :=
  if b = 0x07 then some 97
  else if b = 0x08 then some 98
  else if b = 9 then some 116
  else if b = 10 then some 110
  else if b = 0x0b then some 118
  else if b = 0x0c then some 102
  else if b = 13 then some 114
  else if b = doubleQuote then some doubleQuote
  else if b = backslash then some backslash
  else none

/-- The value of three octal digits. -/
def octalValue (x y z : UInt8) : ℕ := ((x.toNat - 48) * 8 + (y.toNat - 48)) * 8 + (z.toNat - 48)

/-- The spellings of a byte between double quotes. Three octal digits spell the low byte of their
value. -/
inductive Spells : UInt8 → Bytes → Prop
  | literal {b : UInt8} : b ≠ doubleQuote → b ≠ backslash → Spells b [b]
  | letter {b c : UInt8} : letterOf b = some c → Spells b [backslash, c]
  | octal {b x y z : UInt8} : isOctalDigit x = true → isOctalDigit y = true →
      isOctalDigit z = true → b = UInt8.ofNat (octalValue x y z % 256) →
      Spells b [backslash, x, y, z]

def quoted (pieces : List Bytes) : Bytes := doubleQuote :: pieces.flatten ++ [doubleQuote]

/-- A byte as git writes it: bytes above ASCII are escaped under `core.quotePath`. -/
def quoteByte (quotePath : Bool) (b : UInt8) : Bytes :=
  match letterOf b with
  | some letter => [backslash, letter]
  | none =>
    if b < 0x20 ∨ b = 0x7f ∨ (0x80 ≤ b ∧ quotePath) then backslash :: octalDigits b else [b]

/-- A path as git writes it: quoted where some byte is escaped. -/
def gitQuote (quotePath : Bool) (path : Bytes) : Bytes :=
  if path.any fun b => quoteByte quotePath b ≠ [b] then quoted (path.map (quoteByte quotePath))
  else path

/-! ### Octal escapes -/

theorem isOctalDigit_lt {b : UInt8} (h : isOctalDigit b = true) : b.toNat - 48 < 8 := by
  have hall : ∀ b : UInt8, isOctalDigit b = true → b.toNat - 48 < 8 :=
    forall_byte (by decide +kernel)
  exact hall b h

theorem octalLoop_digit {raw : Bytes} {left val j : ℕ} {b : UInt8} (hb : raw[j]? = some b)
    (hdigit : isOctalDigit b = true) (hval : val < 64) :
    octalLoop raw (left + 1) val j = octalLoop raw left (val * 8 + (b.toNat - 48)) (j + 1) := by
  have hj := (List.getElem?_eq_some_iff.mp hb).1
  have hlt := isOctalDigit_lt hdigit
  have hhigh : toU16 (val * 8) = some (val * 8) := if_pos (by omega)
  have hsum : toU16 (val * 8 + (b.toNat - 48)) = some (val * 8 + (b.toNat - 48)) :=
    if_pos (by omega)
  rw [octalLoop, if_pos hj, hb]
  simp only [Option.bind_eq_bind, Option.bind_some, hdigit, if_true, hhigh, hsum]

theorem octalLoop_other {raw : Bytes} {left val j : ℕ}
    (h : (raw[j]?).any isOctalDigit = false) : octalLoop raw left val j = some (val, j) := by
  cases left with
  | zero => rfl
  | succ left =>
    rw [octalLoop]
    by_cases hj : j < raw.length
    · rw [if_pos hj, List.getElem?_eq_getElem hj]
      rw [List.getElem?_eq_getElem hj] at h
      have hdigit : isOctalDigit raw[j] = false := h
      simp [hdigit]
    · rw [if_neg hj]

/-- The value stays below `8 ^ 3` and the place within the text. -/
theorem octalLoop_spec (raw : Bytes) (left : ℕ) : ∀ val j, left ≤ 3 → val < 8 ^ (3 - left) →
    j ≤ raw.length → ∃ v k, octalLoop raw left val j = some (v, k) ∧ j ≤ k ∧ k ≤ raw.length ∧
      v < 512 := by
  induction left with
  | zero =>
    intro val j _ hval hj
    exact ⟨val, j, rfl, le_rfl, hj, hval⟩
  | succ left ih =>
    intro val j hleft hval hj
    have hpow : 8 ^ (3 - left) = 8 * 8 ^ (3 - (left + 1)) := by
      rw [← Nat.pow_succ']
      congr 1
      omega
    have hle : 8 ^ (3 - (left + 1)) ≤ 8 ^ 2 := Nat.pow_le_pow_right (by omega) (by omega)
    cases hany : (raw[j]?).any isOctalDigit with
    | false => exact ⟨val, j, octalLoop_other hany, le_rfl, hj, by omega⟩
    | true =>
      obtain ⟨b, hb, hdigit⟩ := Option.any_eq_true _ _ |>.mp hany
      have hlt := isOctalDigit_lt hdigit
      have hnext := (List.getElem?_eq_some_iff.mp hb).1
      obtain ⟨v, k, hloop, hjk, hk, hv⟩ := ih (val * 8 + (b.toNat - 48)) (j + 1) (by omega)
        (by omega) (by omega)
      refine ⟨v, k, ?_, by omega, hk, hv⟩
      rw [octalLoop_digit hb hdigit (by omega), hloop]

/-! ### The loop -/

variable {raw : Bytes} {fuel i : ℕ} {out : Bytes}

theorem unescapeFrom_end (hi : raw.length ≤ i) : unescapeFrom raw (fuel + 1) i out = some out := by
  rw [unescapeFrom, if_neg (by omega)]

theorem unescapeFrom_plain {b : UInt8} (hb : raw[i]? = some b)
    (hnext : (if b = backslash then raw[i + 1]? else none) = none) :
    unescapeFrom raw (fuel + 1) i out = unescapeFrom raw fuel (i + 1) (out ++ [b]) := by
  rw [unescapeFrom, if_pos (List.getElem?_eq_some_iff.mp hb).1, hb, Option.bind_eq_bind,
    Option.bind_some, hnext]

theorem unescapeFrom_letter {next byte : UInt8} (hb : raw[i]? = some backslash)
    (hnext : raw[i + 1]? = some next) (hletter : decodeNamedEscape next = some byte) :
    unescapeFrom raw (fuel + 1) i out = unescapeFrom raw fuel (i + 2) (out ++ [byte]) := by
  rw [unescapeFrom, if_pos (List.getElem?_eq_some_iff.mp hb).1, hb, Option.bind_eq_bind,
    Option.bind_some, if_pos rfl, hnext]
  dsimp only
  rw [hletter]

theorem unescapeFrom_octal {next : UInt8} {val j : ℕ} (hb : raw[i]? = some backslash)
    (hnext : raw[i + 1]? = some next) (hletter : decodeNamedEscape next = none)
    (hdigit : isOctalDigit next = true) (hloop : octalLoop raw 3 0 (i + 1) = some (val, j)) :
    unescapeFrom raw (fuel + 1) i out =
      unescapeFrom raw fuel j (out ++ [UInt8.ofNat (val % 256)]) := by
  rw [unescapeFrom, if_pos (List.getElem?_eq_some_iff.mp hb).1, hb, Option.bind_eq_bind,
    Option.bind_some, if_pos rfl, hnext]
  dsimp only
  rw [hletter]
  dsimp only
  rw [if_pos hdigit, hloop]
  rfl

theorem unescapeFrom_kept {next : UInt8} (hb : raw[i]? = some backslash)
    (hnext : raw[i + 1]? = some next) (hletter : decodeNamedEscape next = none)
    (hdigit : isOctalDigit next = false) :
    unescapeFrom raw (fuel + 1) i out = unescapeFrom raw fuel (i + 1) (out ++ [backslash]) := by
  rw [unescapeFrom, if_pos (List.getElem?_eq_some_iff.mp hb).1, hb, Option.bind_eq_bind,
    Option.bind_some, if_pos rfl, hnext]
  dsimp only
  rw [hletter]
  dsimp only
  rw [if_neg (by rw [hdigit]; exact Bool.false_ne_true)]

/-- Every turn moves on, within the text. -/
theorem unescapeFrom_total (raw : Bytes) (fuel : ℕ) : ∀ i out, i ≤ raw.length →
    raw.length - i < fuel → ∃ result, unescapeFrom raw fuel i out = some result := by
  induction fuel with
  | zero =>
    intro i out _ hfuel
    omega
  | succ fuel ih =>
    intro i out hi hfuel
    rcases hi.eq_or_lt with heq | hlt
    · exact ⟨out, unescapeFrom_end heq.ge⟩
    have hb : raw[i]? = some raw[i] := List.getElem?_eq_getElem hlt
    cases hnext : (if raw[i] = backslash then raw[i + 1]? else none) with
    | none =>
      rw [unescapeFrom_plain hb hnext]
      exact ih _ _ (by omega) (by omega)
    | some next =>
      split_ifs at hnext with hslash
      rw [hslash] at hb
      have hbound := (List.getElem?_eq_some_iff.mp hnext).1
      cases hletter : decodeNamedEscape next with
      | some byte =>
        rw [unescapeFrom_letter hb hnext hletter]
        exact ih _ _ (by omega) (by omega)
      | none =>
        cases hdigit : isOctalDigit next with
        | true =>
          have hlt := isOctalDigit_lt hdigit
          obtain ⟨val, j, hloop, hij, hj, -⟩ := octalLoop_spec raw 2
            (0 * 8 + (next.toNat - 48)) (i + 1 + 1) (by omega) (by omega) (by omega)
          rw [← octalLoop_digit hnext hdigit (by omega)] at hloop
          rw [unescapeFrom_octal hb hnext hletter hdigit hloop]
          exact ih _ _ hj (by omega)
        | false =>
          rw [unescapeFrom_kept hb hnext hletter hdigit]
          exact ih _ _ (by omega) (by omega)

/-! ### Spelled bytes -/

theorem decodeNamedEscape_letterOf {b c : UInt8} (h : letterOf b = some c) :
    decodeNamedEscape c = some b := by
  have hall : ∀ b : UInt8, (letterOf b).all (fun c => decodeNamedEscape c = some b) = true :=
    forall_byte (by decide +kernel)
  have hb := hall b
  rw [h] at hb
  exact of_decide_eq_true hb

theorem octalDigits_spec (b : UInt8) : ∃ x y z, octalDigits b = [x, y, z] ∧
    isOctalDigit x = true ∧ isOctalDigit y = true ∧ isOctalDigit z = true ∧
    octalValue x y z = b.toNat := by
  refine ⟨48 + b / 64, 48 + b / 8 % 8, 48 + b % 8, rfl, ?_⟩
  revert b
  exact forall_byte (by decide +kernel)

theorem Spells.byte (b : UInt8) : Spells b (backslash :: octalDigits b) := by
  obtain ⟨x, y, z, hdigits, hx, hy, hz, hvalue⟩ := octalDigits_spec b
  rw [hdigits]
  exact .octal hx hy hz (by rw [hvalue, Nat.mod_eq_of_lt (UInt8.toNat_lt b), UInt8.ofNat_toNat])

theorem decodeNamedEscape_octal {b : UInt8} (h : isOctalDigit b = true) :
    decodeNamedEscape b = none := by
  have hall : ∀ b : UInt8, isOctalDigit b = true → decodeNamedEscape b = none :=
    forall_byte (by decide +kernel)
  exact hall b h

/-- One spelled byte is read as that byte. -/
theorem unescapeFrom_spells {b : UInt8} {piece rest : Bytes} (h : Spells b piece)
    (hraw : raw.drop i = piece ++ rest) :
    unescapeFrom raw (fuel + 1) i out =
      unescapeFrom raw fuel (i + piece.length) (out ++ [b]) := by
  have hget : ∀ k, raw[i + k]? = (piece ++ rest)[k]? := by
    intro k
    rw [← hraw, List.getElem?_drop]
  cases h with
  | literal hquote hslash =>
    exact unescapeFrom_plain (hget 0) (if_neg hslash)
  | letter hletter =>
    exact unescapeFrom_letter (hget 0) (hget 1) (decodeNamedEscape_letterOf hletter)
  | @octal x y z hx hy hz hb =>
    have hxlt := isOctalDigit_lt hx
    have hylt := isOctalDigit_lt hy
    have hloop : octalLoop raw 3 0 (i + 1) = some (octalValue x y z, i + 4) := by
      rw [octalLoop_digit (hget 1) hx (by omega), octalLoop_digit (hget 2) hy (by omega),
        octalLoop_digit (hget 3) hz (by omega), octalLoop, Nat.zero_mul, Nat.zero_add, octalValue]
    rw [hb]
    exact unescapeFrom_octal (hget 0) (hget 1) (decodeNamedEscape_octal hx) hx hloop

theorem unescapeFrom_pieces {bytes : Bytes} {pieces : List Bytes}
    (h : List.Forall₂ Spells bytes pieces) : ∀ {fuel i : ℕ} {out : Bytes},
    raw.drop i = pieces.flatten → i ≤ raw.length → raw.length - i < fuel →
    unescapeFrom raw fuel i out = some (out ++ bytes) := by
  induction h with
  | nil =>
    intro fuel i out hraw hi hfuel
    obtain ⟨fuel, rfl⟩ := Nat.exists_eq_succ_of_ne_zero (by omega : fuel ≠ 0)
    have hend : raw.length ≤ i := List.drop_eq_nil_iff.mp hraw
    rw [unescapeFrom_end hend, List.append_nil]
  | @cons b piece bytes pieces hpiece _ ih =>
    intro fuel i out hraw hi hfuel
    obtain ⟨fuel, rfl⟩ := Nat.exists_eq_succ_of_ne_zero (by omega : fuel ≠ 0)
    rw [List.flatten_cons] at hraw
    have hpos : 0 < piece.length := by
      cases hpiece <;> simp
    have hlen := congrArg List.length hraw
    rw [List.length_drop, List.length_append] at hlen
    have hrest : raw.drop (i + piece.length) = pieces.flatten := by
      rw [← List.drop_drop, hraw, List.drop_left]
    rw [unescapeFrom_spells hpiece hraw, ih hrest (by omega) (by omega), List.append_assoc]
    rfl

theorem unescape_pieces {bytes : Bytes} {pieces : List Bytes}
    (h : List.Forall₂ Spells bytes pieces) : unescape pieces.flatten = some bytes := by
  rw [unescape, unescapeFrom_pieces h rfl (Nat.zero_le _) (by omega), List.nil_append]

theorem stripQuotes_quoted (pieces : List Bytes) :
    stripQuotes (quoted pieces) = some pieces.flatten := by
  rw [quoted, List.cons_append, stripQuotes, if_pos ⟨rfl, List.getLast?_concat⟩,
    List.dropLast_concat]

theorem unquoteGitPath_of_spells {bytes : Bytes} {pieces : List Bytes}
    (h : List.Forall₂ Spells bytes pieces) :
    unquoteGitPath (quoted pieces) = some (fromUtf8OrLossy bytes) := by
  rw [unquoteGitPath, stripQuotes_quoted]
  dsimp only
  rw [unescape_pieces h]
  rfl

theorem fromUtf8OrLossy_of_isUtf8 {bytes : Bytes} (h : isUtf8 bytes = true) :
    fromUtf8OrLossy bytes = bytes := if_pos h

/-! ### What git writes -/

theorem spells_quoteByte (quotePath : Bool) (b : UInt8) : Spells b (quoteByte quotePath b) := by
  unfold quoteByte
  cases hletter : letterOf b with
  | some letter => exact .letter hletter
  | none =>
    dsimp only
    split_ifs
    · exact .byte b
    · refine .literal ?_ ?_
      · rintro rfl
        cases hletter
      · rintro rfl
        cases hletter

theorem unquoteGitPath_gitQuote (quotePath : Bool) {path : Bytes} (h : isUtf8 path = true) :
    unquoteGitPath (gitQuote quotePath path) = some path := by
  unfold gitQuote
  split_ifs with hquote
  · have hspells : List.Forall₂ Spells path (path.map (quoteByte quotePath)) := by
      rw [List.forall₂_map_right_iff, List.forall₂_same]
      exact fun b _ => spells_quoteByte quotePath b
    rw [unquoteGitPath_of_spells hspells, fromUtf8OrLossy_of_isUtf8 h]
  · have hplain : stripQuotes path = none := by
      cases path with
      | nil => rfl
      | cons b rest =>
        rw [stripQuotes, if_neg]
        rintro ⟨rfl, -⟩
        refine hquote ?_
        rw [List.any_cons]
        rfl
    rw [unquoteGitPath, hplain]

/-- Every quoting of a path reads back as the path, lossily where it is no UTF-8, and
no text at all makes an index or a value overflow. -/
theorem unquoteGitPath_reads :
    (∀ (bytes : Bytes) (pieces : List Bytes), List.Forall₂ Spells bytes pieces →
      unquoteGitPath (quoted pieces) =
        some (if isUtf8 bytes then bytes else fromUtf8Lossy bytes)) ∧
    (∀ (quotePath : Bool) (path : Bytes), isUtf8 path = true →
      unquoteGitPath (gitQuote quotePath path) = some path) ∧
    ∀ token : Bytes, ∃ text, unquoteGitPath token = some text := by
  refine ⟨fun bytes pieces h => unquoteGitPath_of_spells h,
    fun quotePath path h => unquoteGitPath_gitQuote quotePath h, fun token => ?_⟩
  unfold unquoteGitPath
  cases stripQuotes token with
  | none => exact ⟨token, rfl⟩
  | some inner =>
    obtain ⟨result, hresult⟩ := unescapeFrom_total inner (inner.length + 1) 0 []
      (Nat.zero_le _) (by omega)
    refine ⟨fromUtf8OrLossy result, ?_⟩
    dsimp only
    rw [unescape, hresult]
    rfl

/-- An accented letter, and a letter spelled by three digits above a byte. -/
theorem unquoteGitPath_reads_naive :
    unquoteGitPath (quoted [[110], [97], backslash :: octalDigits 0xC3,
      backslash :: octalDigits 0xAF, [118], [backslash, 53, 52, 53]]) =
        some [110, 97, 0xC3, 0xAF, 118, 101] ∧
    unquoteGitPath (gitQuote true [97, 34, 0xC3, 0xAF]) = some [97, 34, 0xC3, 0xAF] := by
  constructor
  · rw [unquoteGitPath_reads.1 [110, 97, 0xC3, 0xAF, 118, 101] _ (.cons
      (.literal (by decide) (by decide)) (.cons (.literal (by decide) (by decide)) (.cons
      (.byte _) (.cons (.byte _) (.cons (.literal (by decide) (by decide)) (.cons
      (.octal (x := 53) (y := 52) (z := 53) (by decide) (by decide) (by decide) (by decide))
      .nil))))))]
    decide +kernel
  · exact unquoteGitPath_reads.2.1 true _ (by decide +kernel)

/-- A byte that is no UTF-8 is read as the replacement character. -/
theorem unquoteGitPath_lossy :
    gitQuote true [0xFF] = quoted [[backslash, 51, 55, 55]] ∧
    unquoteGitPath (gitQuote true [0xFF]) = some [0xEF, 0xBF, 0xBD] := by
  constructor <;> decide +kernel

end BigCodeAnalysis.Vcs
