import BigCodeAnalysis.Output.OffenderRecord
import BigCodeAnalysis.Uri.Reference

/-! The URI of a finding in the SARIF report. Backslashes become slashes, bytes outside a small
set are escaped, and a prefix keeps drives and colons from being read as a scheme. -/

namespace BigCodeAnalysis.Output

open Baseline (slash backslash fold foldChar map_fold_utf8)
open Sequences
open Uri

def isAsciiAlphabetic (b : UInt8) : Bool := 65 ≤ b ∧ b ≤ 90 ∨ 97 ≤ b ∧ b ≤ 122

def isSeparator (b : UInt8) : Bool := b = slash ∨ b = backslash

/-- A drive such as `C:`, alone or before a separator. -/
def isWindowsDriveAbs : List UInt8 → Bool
  | letter :: colon :: rest =>
    isAsciiAlphabetic letter && colon = 58 && (rest = [] || rest.head?.any isSeparator)
  | _ => false

/-- A relative path whose first segment would be read as a scheme. -/
def relativeFirstSegmentHasColon (bytes : List UInt8) : Bool :=
  !isWindowsDriveAbs bytes && bytes.head? ≠ some slash && bytes.head? ≠ some backslash &&
    (bytes.takeWhile fun b => !isSeparator b).any (· = 58)

def hexDigit (nibble : UInt8) : Char :=
  if nibble ≤ 9 then Char.ofNat (48 + nibble.toNat)
  else if nibble ≤ 15 then Char.ofNat (55 + nibble.toNat)
  else '0'

/-- Letters, digits and `-._~/:@`. -/
def isPlain (b : UInt8) : Bool :=
  isAsciiAlphabetic b ∨ (48 ≤ b ∧ b ≤ 57) ∨ b ∈ ([45, 46, 95, 126, 47, 58, 64] : List UInt8)

/-- One turn of the loop over the bytes. -/
def encodeByte (b : UInt8) : List Char :=
  if b = backslash then ['/']
  else if isPlain b then [Char.ofNat b.toNat]
  else ['%', hexDigit (b >>> 4), hexDigit (b &&& 0xF)]

/-- What is written before the path. -/
def addedPrefix (bytes : List UInt8) : List Char :=
  if isWindowsDriveAbs bytes then ['f', 'i', 'l', 'e', ':', '/', '/', '/']
  else if relativeFirstSegmentHasColon bytes then ['.', '/']
  else []

def pathToUriReference (path : String) : String :=
  let bytes := utf8 path
  String.ofList (addedPrefix bytes ++ bytes.flatMap encodeByte)

/-! ### One byte -/

theorem plain_char (b : UInt8) : isPlain b = true → isSeparator b = false →
    isPchar (Char.ofNat b.toNat) = true := by
  revert b
  exact forall_byte (by decide +kernel)

theorem utf8_plain (b : UInt8) : isPlain b = true →
    String.utf8EncodeChar (Char.ofNat b.toNat) = [b] ∧ Char.ofNat b.toNat ≠ '%' := by
  revert b
  exact forall_byte (by decide +kernel)

theorem escape_digits (b : UInt8) : isHexDigit (hexDigit (b >>> 4)) = true ∧
    isHexDigit (hexDigit (b &&& 0xF)) = true ∧
    UInt8.ofNat (16 * hexValue (hexDigit (b >>> 4)) + hexValue (hexDigit (b &&& 0xF))) = b := by
  revert b
  exact forall_byte (by decide +kernel)

theorem colon_mem_encodeByte (b : UInt8) : ':' ∈ encodeByte b → b = 58 := by
  revert b
  exact forall_byte (by decide +kernel)

theorem segment_encodeByte {b : UInt8} (h : isSeparator b = false) : Segment (encodeByte b) := by
  have hne : b ≠ backslash := by
    rintro rfl
    revert h
    decide
  rw [encodeByte, if_neg hne]
  by_cases hplain : isPlain b = true
  · rw [if_pos hplain]
    exact .char (plain_char b hplain h) .nil
  · rw [if_neg hplain]
    obtain ⟨hhigh, hlow, -⟩ := escape_digits b
    exact .escape hhigh hlow .nil

theorem encodeByte_separator {b : UInt8} (h : isSeparator b = true) : encodeByte b = ['/'] := by
  rcases of_decide_eq_true h with rfl | rfl
  · decide
  · decide

theorem encodeByte_ne_nil (b : UInt8) : encodeByte b ≠ [] := by
  unfold encodeByte
  split_ifs <;> exact List.cons_ne_nil _ _

theorem percentDecode_encodeByte (b : UInt8) (rest : List Char) :
    percentDecode (encodeByte b ++ rest) = fold b :: percentDecode rest := by
  unfold encodeByte
  by_cases hback : b = backslash
  · subst hback
    rw [if_pos rfl]
    exact percentDecode_char (by decide) rest
  · rw [if_neg hback, fold, if_neg hback]
    by_cases hplain : isPlain b = true
    · obtain ⟨hbytes, hne⟩ := utf8_plain b hplain
      rw [if_pos hplain, List.singleton_append, percentDecode_char hne, hbytes]
      rfl
    · obtain ⟨hhigh, hlow, hvalue⟩ := escape_digits b
      rw [if_neg hplain]
      exact (percentDecode_escape hhigh hlow rest).trans (by rw [hvalue])

theorem percentDecode_encode (bytes : List UInt8) :
    percentDecode (bytes.flatMap encodeByte) = bytes.map fold := by
  induction bytes with
  | nil => rfl
  | cons b bytes ih => rw [List.flatMap_cons, percentDecode_encodeByte, ih, List.map_cons]

/-! ### The path as segments -/

/-- The bytes before the first separator. -/
def firstSegment (bytes : List UInt8) : List UInt8 := bytes.takeWhile fun b => !isSeparator b

theorem segment_encode {bytes : List UInt8} (h : ∀ b ∈ bytes, isSeparator b = false) :
    Segment (bytes.flatMap encodeByte) := by
  induction bytes with
  | nil => exact .nil
  | cons b bytes ih =>
    rw [List.flatMap_cons]
    exact (segment_encodeByte (h b (List.mem_cons_self ..))).append
      (ih fun c hc => h c (List.mem_cons_of_mem _ hc))

theorem segment_firstSegment (bytes : List UInt8) :
    Segment ((firstSegment bytes).flatMap encodeByte) := by
  apply segment_encode
  intro b hb
  simpa using List.mem_takeWhile_imp hb

/-- What is written of a path is its first segment and segments behind slashes. -/
theorem exists_pathAbempty (bytes : List UInt8) : ∃ p, PathAbempty p ∧
    bytes.flatMap encodeByte = (firstSegment bytes).flatMap encodeByte ++ p := by
  induction bytes with
  | nil => exact ⟨[], .nil, rfl⟩
  | cons b bytes ih =>
    obtain ⟨p, hp, hbytes⟩ := ih
    rw [List.flatMap_cons, firstSegment]
    by_cases hsep : isSeparator b = true
    · rw [List.takeWhile_cons_of_neg (by simp [hsep]), encodeByte_separator hsep, hbytes]
      exact ⟨'/' :: ((firstSegment bytes).flatMap encodeByte ++ p),
        .cons (segment_firstSegment bytes) hp, rfl⟩
    · rw [List.takeWhile_cons_of_pos (by simp [hsep]), List.flatMap_cons, hbytes]
      exact ⟨p, hp, (List.append_assoc ..).symm⟩

theorem colon_notMem {bytes : List UInt8} (h : ¬ (firstSegment bytes).any (· = 58)) :
    ':' ∉ (firstSegment bytes).flatMap encodeByte := by
  intro hmem
  obtain ⟨b, hb, hcolon⟩ := List.mem_flatMap.mp hmem
  apply h
  exact List.any_eq_true.mpr ⟨b, hb, decide_eq_true (colon_mem_encodeByte b hcolon)⟩

theorem fileUri_encode (bytes : List UInt8) :
    FileUri (['f', 'i', 'l', 'e', ':', '/', '/', '/'] ++ bytes.flatMap encodeByte) := by
  obtain ⟨p, hp, hbytes⟩ := exists_pathAbempty bytes
  exact ⟨_, .cons (segment_firstSegment bytes) hp, by rw [hbytes]; rfl⟩

theorem relativePath_dotted (bytes : List UInt8) :
    RelativePath (['.', '/'] ++ bytes.flatMap encodeByte) := by
  obtain ⟨p, hp, hbytes⟩ := exists_pathAbempty bytes
  rw [hbytes]
  exact .inr (.inl ⟨['.'], _, List.cons_ne_nil _ _, by decide, .char rfl .nil,
    .cons (segment_firstSegment bytes) hp, rfl⟩)

/-- A path whose first segment has no colon is one that starts with at most one separator. -/
theorem relativePath_encode {bytes : List UInt8} (hcolon : ¬ (firstSegment bytes).any (· = 58))
    (hseps : ∀ a b rest, bytes = a :: b :: rest → isSeparator a = true → isSeparator b = false) :
    RelativePath (bytes.flatMap encodeByte) := by
  cases bytes with
  | nil => exact .inr (.inr rfl)
  | cons a bytes =>
    by_cases ha : isSeparator a = true
    · rw [List.flatMap_cons, encodeByte_separator ha]
      cases bytes with
      | nil => exact .inl (.inl rfl)
      | cons b rest =>
        have hb := hseps a b rest rfl ha
        obtain ⟨p, hp, hbytes⟩ := exists_pathAbempty (b :: rest)
        refine .inl (.inr ⟨_, p, ?_, segment_firstSegment (b :: rest), hp, by rw [hbytes]; rfl⟩)
        rw [firstSegment, List.takeWhile_cons_of_pos (by simp [hb]), List.flatMap_cons]
        exact List.append_ne_nil_of_left_ne_nil (encodeByte_ne_nil b) _
    · obtain ⟨p, hp, hbytes⟩ := exists_pathAbempty (a :: bytes)
      refine .inr (.inl ⟨_, p, ?_, colon_notMem hcolon, segment_firstSegment _, hp, hbytes⟩)
      rw [firstSegment, List.takeWhile_cons_of_pos (by simp [ha]), List.flatMap_cons]
      exact List.append_ne_nil_of_left_ne_nil (encodeByte_ne_nil a) _

end BigCodeAnalysis.Output
