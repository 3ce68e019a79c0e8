import BigCodeAnalysis.Output.Sarif
import Mathlib

/-! What a SARIF location points at: a file on a drive or a place beneath the root of the report,
and only the path it was written from. The first bytes of a path decide what is put in front of
it: what makes a file URI, a dot segment that keeps the first segment from reading as a scheme, or
nothing. The rest is percent-encoded byte by byte and decodes to the path with its backslashes
turned into slashes, so the URIs of two paths are told apart by their first bytes. -/

namespace BigCodeAnalysis.Output

open Baseline (slash backslash fold foldChar map_fold_utf8)
open Sequences
open Uri

/-- The path with backslashes turned into slashes. -/
def withSlashes (path : String) : List Char := path.toList.map foldChar

/-- A letter and a colon, alone or before a slash. -/
def startsWithDrive : List Char → Bool
  | letter :: ':' :: rest => letter.isAlpha && (rest = [] || rest.head? = some '/')
  | _ => false

/-! ### Bytes and characters -/

theorem map_fold_utf8Bytes (path : String) :
    (utf8 path).map fold = (withSlashes path).flatMap String.utf8EncodeChar := by
  rw [utf8, withSlashes, List.map_flatMap, List.flatMap_map]
  exact List.flatMap_congr fun c _ => map_fold_utf8 c

/-- An ASCII byte at the start of a text is its first character. -/
theorem cons_of_bytes {text : List Char} {b : UInt8} {bytes : List UInt8} (hb : b.toNat < 128)
    (h : text.flatMap String.utf8EncodeChar = b :: bytes) :
    ∃ rest, text = Char.ofNat b.toNat :: rest ∧ bytes = rest.flatMap String.utf8EncodeChar := by
  cases text with
  | nil => cases h
  | cons c rest =>
    rw [List.flatMap_cons] at h
    have hmem : b ∈ String.utf8EncodeChar c := by
      cases henc : String.utf8EncodeChar c with
      | nil => exact absurd henc String.utf8EncodeChar_ne_nil
      | cons d ds =>
        rw [henc, List.cons_append] at h
        rw [(List.cons_eq_cons.mp h).1]
        exact List.mem_cons_self ..
    have hc := toNat_eq_of_mem hb hmem
    rw [utf8EncodeChar_of_lt (by omega)] at h
    refine ⟨rest, ?_, (List.cons_eq_cons.mp h).2.symm⟩
    rw [← hc, Char.ofNat_toNat]

theorem flatMap_utf8_cons {c : Char} (hc : c.toNat < 128) (rest : List Char) :
    (c :: rest).flatMap String.utf8EncodeChar =
      UInt8.ofNat c.toNat :: rest.flatMap String.utf8EncodeChar := by
  rw [List.flatMap_cons, utf8EncodeChar_of_lt hc]
  rfl

theorem toNat_lt_of_isAlpha {c : Char} (h : c.isAlpha) : c.toNat < 128 := by
  simp only [Char.isAlpha, Char.isUpper, Char.isLower, Bool.or_eq_true, Bool.and_eq_true,
    decide_eq_true_eq, ge_iff_le, UInt32.le_iff_toNat_le] at h
  have hnat : c.toNat = c.val.toNat := rfl
  have hZ : 'Z'.val.toNat = 90 := rfl
  have hz : 'z'.val.toNat = 122 := rfl
  omega

theorem isSeparator_lt {b : UInt8} (h : isSeparator b = true) : b.toNat < 128 := by
  rcases of_decide_eq_true h with rfl | rfl <;> decide

theorem isAlpha_ofNat (b : UInt8) : isAsciiAlphabetic b = true →
    (Char.ofNat b.toNat).isAlpha = true ∧ b.toNat < 128 ∧
      foldChar (Char.ofNat b.toNat) = Char.ofNat b.toNat := by
  revert b
  exact forall_byte (by decide +kernel)

theorem isAsciiAlphabetic_ofNat {c : Char} (h : c.isAlpha) :
    isAsciiAlphabetic (UInt8.ofNat c.toNat) = true := by
  simp only [Char.isAlpha, Char.isUpper, Char.isLower, Bool.or_eq_true, Bool.and_eq_true,
    decide_eq_true_eq, ge_iff_le, UInt32.le_iff_toNat_le] at h
  have hnat : c.toNat = c.val.toNat := rfl
  have hletters :
      'A'.val.toNat = 65 ∧ 'Z'.val.toNat = 90 ∧ 'a'.val.toNat = 97 ∧ 'z'.val.toNat = 122 :=
    ⟨rfl, rfl, rfl, rfl⟩
  have hbyte : (UInt8.ofNat c.toNat).toNat = c.toNat := by
    rw [UInt8.toNat_ofNat', Nat.mod_eq_of_lt (by omega)]
  simp only [isAsciiAlphabetic, decide_eq_true_eq, UInt8.le_iff_toNat_le, hbyte]
  have hbytes : (65 : UInt8).toNat = 65 ∧ (90 : UInt8).toNat = 90 ∧ (97 : UInt8).toNat = 97 ∧
      (122 : UInt8).toNat = 122 := ⟨rfl, rfl, rfl, rfl⟩
  omega

theorem foldChar_eq_slash {c : Char} : foldChar c = '/' ↔ c = '/' ∨ c = '\\' := by
  unfold foldChar
  split_ifs with h <;> simp [h]

theorem foldChar_eq_self {c : Char} (h : foldChar c ≠ '/') : foldChar c = c := by
  unfold foldChar at h ⊢
  split_ifs at h ⊢ with hc
  · exact absurd rfl h
  · rfl

theorem drive_of_bytes {path : String} (h : isWindowsDriveAbs (utf8 path) = true) :
    startsWithDrive (withSlashes path) = true := by
  cases hbytes : utf8 path with
  | nil => rw [hbytes] at h; cases h
  | cons letter tail =>
    cases tail with
    | nil => rw [hbytes] at h; cases h
    | cons colon rest =>
      rw [hbytes] at h
      simp only [isWindowsDriveAbs, Bool.and_eq_true, Bool.or_eq_true, decide_eq_true_eq] at h
      obtain ⟨⟨hletter, rfl⟩, hrest⟩ := h
      obtain ⟨halpha, hlt, hfold⟩ := isAlpha_ofNat letter hletter
      obtain ⟨text, htext, htail⟩ := cons_of_bytes hlt hbytes
      obtain ⟨text', rfl, hrest'⟩ := cons_of_bytes (by decide) htail.symm
      rw [withSlashes, htext, List.map_cons, List.map_cons, hfold]
      simp only [startsWithDrive]
      show (Char.isAlpha _ && _) = true
      rw [halpha, Bool.true_and, Bool.or_eq_true]
      rcases hrest with rfl | hsep
      · left
        cases text' with
        | nil => rfl
        | cons c text' =>
          exact absurd (List.append_eq_nil_iff.mp hrest'.symm).1 String.utf8EncodeChar_ne_nil
      · right
        cases rest with
        | nil => cases hsep
        | cons s rest =>
          have hs : isSeparator s = true := hsep
          obtain ⟨text'', rfl, -⟩ := cons_of_bytes (isSeparator_lt hs) hrest'.symm
          rcases of_decide_eq_true hs with rfl | rfl <;> rfl

theorem bytes_of_drive {path : String} (h : startsWithDrive (withSlashes path) = true) :
    isWindowsDriveAbs (utf8 path) = true := by
  rw [withSlashes] at h
  rw [utf8]
  cases htext : path.toList with
  | nil => rw [htext] at h; cases h
  | cons letter tail =>
    cases tail with
    | nil => rw [htext] at h; cases h
    | cons colon rest =>
      rw [htext, List.map_cons, List.map_cons] at h
      unfold startsWithDrive at h
      split at h
      · next letter' rest' heq =>
        obtain ⟨rfl, htail⟩ := List.cons_eq_cons.mp heq
        obtain ⟨hcolon, rfl⟩ := List.cons_eq_cons.mp htail
        simp only [Bool.and_eq_true, Bool.or_eq_true, decide_eq_true_eq] at h
        obtain ⟨halpha, hrest⟩ := h
        have hletter : foldChar letter = letter := by
          apply foldChar_eq_self
          intro hslash
          rw [hslash] at halpha
          exact absurd halpha (by decide)
        have hcolon' : colon = ':' := by
          rw [← hcolon]
          refine (foldChar_eq_self ?_).symm
          rw [hcolon]
          decide
        subst hcolon'
        rw [hletter] at halpha
        rw [flatMap_utf8_cons (toNat_lt_of_isAlpha halpha), flatMap_utf8_cons (by decide)]
        simp only [isWindowsDriveAbs, isAsciiAlphabetic_ofNat halpha, Bool.true_and, Bool.and_eq_true,
          Bool.or_eq_true, decide_eq_true_eq]
        refine ⟨rfl, ?_⟩
        rcases hrest with hnil | hhead
        · left
          rw [List.map_eq_nil_iff.mp hnil]
          rfl
        · right
          cases rest with
          | nil => cases hhead
          | cons s rest =>
            rcases foldChar_eq_slash.mp (Option.some.inj hhead) with rfl | rfl
            · rw [flatMap_utf8_cons (by decide)]
              rfl
            · rw [flatMap_utf8_cons (by decide)]
              rfl
      · cases h

/-- Two separators at the start are two slashes. -/
theorem slashes_of_separators {path : String} {a b : UInt8} {rest : List UInt8}
    (h : utf8 path = a :: b :: rest) (ha : isSeparator a = true) (hb : isSeparator b = true) :
    ['/', '/'] <+: withSlashes path := by
  obtain ⟨text, htext, htail⟩ := cons_of_bytes (isSeparator_lt ha) h
  obtain ⟨text', rfl, -⟩ := cons_of_bytes (isSeparator_lt hb) htail.symm
  rw [withSlashes, htext]
  refine ⟨text'.map foldChar, ?_⟩
  rcases of_decide_eq_true ha with rfl | rfl <;> rcases of_decide_eq_true hb with rfl | rfl <;> rfl

/-! ### Paths with one URI -/

theorem withSlashes_eq_of_bytes {path : String} {text : List Char}
    (h : (utf8 path).map fold = text.flatMap String.utf8EncodeChar) : withSlashes path = text := by
  rw [map_fold_utf8Bytes] at h
  exact prefixCode_utf8.flatMap_injective (fun _ _ => Set.mem_univ _) (fun _ _ => Set.mem_univ _) h

/-- The paths written with one prefix are one path. -/
theorem withSlashes_eq_of_encode {path other : String}
    (h : (utf8 path).flatMap encodeByte = (utf8 other).flatMap encodeByte) :
    withSlashes path = withSlashes other := by
  apply withSlashes_eq_of_bytes
  rw [← map_fold_utf8Bytes, ← percentDecode_encode, h, percentDecode_encode]

/-- A path written without a prefix that reads as another with one. -/
theorem withSlashes_eq_append {path other : String} {added : List Char} (hplain : '%' ∉ added)
    (h : (utf8 path).flatMap encodeByte = added ++ (utf8 other).flatMap encodeByte) :
    withSlashes path = added ++ withSlashes other := by
  apply withSlashes_eq_of_bytes
  rw [List.flatMap_append, ← map_fold_utf8Bytes, ← percentDecode_encode, ← percentDecode_encode, h,
    percentDecode_append hplain]

theorem addedPrefix_cases (bytes : List UInt8) :
    addedPrefix bytes = ['f', 'i', 'l', 'e', ':', '/', '/', '/'] ∧ isWindowsDriveAbs bytes = true ∨
      addedPrefix bytes = ['.', '/'] ∧ isWindowsDriveAbs bytes = false ∨
      addedPrefix bytes = [] ∧ isWindowsDriveAbs bytes = false ∧
        ¬ (firstSegment bytes).any (· = 58) := by
  unfold addedPrefix
  cases hdrive : isWindowsDriveAbs bytes with
  | true => exact .inl ⟨rfl, rfl⟩
  | false =>
    cases hcolon : relativeFirstSegmentHasColon bytes with
    | true => exact .inr (.inl ⟨rfl, rfl⟩)
    | false =>
      refine .inr (.inr ⟨rfl, rfl, ?_⟩)
      intro hany
      -- a path that starts with a separator has an empty first segment
      have hhead : ∀ b : UInt8, isSeparator b = true → bytes.head? ≠ some b := by
        intro b hb hhead
        cases bytes with
        | nil => cases hhead
        | cons c bytes =>
          obtain rfl : c = b := Option.some.inj hhead
          rw [firstSegment, List.takeWhile_cons_of_neg (by simp [hb])] at hany
          cases hany
      have hslash := hhead slash (by decide)
      have hback := hhead backslash (by decide)
      rw [firstSegment] at hany
      simp [relativeFirstSegmentHasColon, hdrive, hslash, hback, hany] at hcolon

/-- A path whose URI would start as a file URI does has a colon in its first segment. -/
theorem encode_ne_file {bytes : List UInt8} (hcolon : ¬ (firstSegment bytes).any (· = 58))
    (rest : List Char) : bytes.flatMap encodeByte ≠ ['f', 'i', 'l', 'e', ':'] ++ rest := by
  intro h
  obtain ⟨p, hp, hbytes⟩ := exists_pathAbempty bytes
  have hscheme := splitScheme_noscheme (segment_firstSegment bytes) (colon_notMem hcolon) hp
  rw [← hbytes, h] at hscheme
  cases hscheme

theorem toList_pathToUriReference (path : String) : (pathToUriReference path).toList =
    addedPrefix (utf8 path) ++ (utf8 path).flatMap encodeByte :=
  String.toList_ofList

theorem scheme_eq (text : List Char) : (components text).scheme = (splitScheme text).1 := rfl

theorem fileUri_of_drive {path : String} (h : startsWithDrive (withSlashes path) = true) :
    FileUri (pathToUriReference path).toList := by
  rw [toList_pathToUriReference, addedPrefix, if_pos (bytes_of_drive h)]
  exact fileUri_encode _

theorem scheme_of_not_drive {path : String} (h : startsWithDrive (withSlashes path) = false) :
    (components (pathToUriReference path).toList).scheme = none := by
  rw [toList_pathToUriReference]
  rcases addedPrefix_cases (utf8 path) with ⟨-, hdrive⟩ | ⟨hadded, -⟩ | ⟨hadded, -, hcolon⟩
  · rw [drive_of_bytes hdrive] at h
    cases h
  · rw [hadded, (relativePath_dotted _).components_eq]
  · obtain ⟨p, hp, hbytes⟩ := exists_pathAbempty (utf8 path)
    rw [hadded, List.nil_append, scheme_eq, hbytes,
      splitScheme_noscheme (segment_firstSegment _) (colon_notMem hcolon) hp]

theorem relativePath_of_not_drive {path : String} (h : startsWithDrive (withSlashes path) = false)
    (hslashes : ¬ ['/', '/'] <+: withSlashes path) :
    RelativePath (pathToUriReference path).toList := by
  rw [toList_pathToUriReference]
  rcases addedPrefix_cases (utf8 path) with ⟨-, hdrive⟩ | ⟨hadded, -⟩ | ⟨hadded, -, hcolon⟩
  · rw [drive_of_bytes hdrive] at h
    cases h
  · rw [hadded]
    exact relativePath_dotted _
  · rw [hadded]
    apply relativePath_encode hcolon
    intro a b rest hbytes ha
    cases hb : isSeparator b with
    | false => rfl
    | true => exact absurd (slashes_of_separators hbytes ha hb) hslashes

/-- The three prefixes against each other: only a path that is written without one can have the
URI of a path with another. -/
theorem withSlashes_of_uri_eq {path other : String}
    (h : pathToUriReference path = pathToUriReference other) :
    withSlashes path = withSlashes other ∨ withSlashes path = ['.', '/'] ++ withSlashes other ∨
      withSlashes other = ['.', '/'] ++ withSlashes path := by
  have hlist := congrArg String.toList h
  rw [toList_pathToUriReference, toList_pathToUriReference] at hlist
  rcases addedPrefix_cases (utf8 path) with ⟨hadded, -⟩ | ⟨hadded, -⟩ | ⟨hadded, -, hcolon⟩ <;>
    rcases addedPrefix_cases (utf8 other) with ⟨hadded', -⟩ | ⟨hadded', -⟩ | ⟨hadded', -, hcolon'⟩ <;>
    rw [hadded, hadded'] at hlist
  · exact .inl (withSlashes_eq_of_encode (List.append_cancel_left hlist))
  · cases hlist
  · exact absurd hlist.symm (encode_ne_file hcolon' _)
  · cases hlist
  · exact .inl (withSlashes_eq_of_encode (List.append_cancel_left hlist))
  · exact .inr (.inr (withSlashes_eq_append (by decide) hlist.symm))
  · exact absurd hlist (encode_ne_file hcolon _)
  · exact .inr (.inl (withSlashes_eq_append (by decide) hlist))
  · exact .inl (withSlashes_eq_of_encode hlist)

/-- The URI of a path is a file URI exactly for a letter and a colon, alone or before a separator.
The URI of any other path that does not start with two separators is a relative path, so it has
neither a scheme nor an authority. What is written behind the prefix decodes to the path with
slashes, and paths with one URI are equal up to separators and a leading `./`. -/
theorem sarif_locations (path : String) :
    (startsWithDrive (withSlashes path) = true → FileUri (pathToUriReference path).toList) ∧
    ((components (pathToUriReference path).toList).scheme = some ['f', 'i', 'l', 'e'] ↔
      startsWithDrive (withSlashes path) = true) ∧
    (startsWithDrive (withSlashes path) = false → ¬ ['/', '/'] <+: withSlashes path →
      RelativePath (pathToUriReference path).toList ∧
        (components (pathToUriReference path).toList).scheme = none ∧
        (components (pathToUriReference path).toList).authority = none) ∧
    (∃ added ∈ [['f', 'i', 'l', 'e', ':', '/', '/', '/'], ['.', '/'], []], ∃ body,
      (pathToUriReference path).toList = added ++ body ∧
        percentDecode body = (withSlashes path).flatMap String.utf8EncodeChar) ∧
    ∀ other, pathToUriReference path = pathToUriReference other →
      withSlashes path = withSlashes other ∨ withSlashes path = ['.', '/'] ++ withSlashes other ∨
        withSlashes other = ['.', '/'] ++ withSlashes path := by
  refine ⟨fileUri_of_drive, ⟨?_, ?_⟩, ?_, ?_, ?_⟩
  · intro hscheme
    cases hdrive : startsWithDrive (withSlashes path) with
    | true => rfl
    | false =>
      rw [scheme_of_not_drive hdrive] at hscheme
      cases hscheme
  · intro hdrive
    obtain ⟨p, -, hparts⟩ := (fileUri_of_drive hdrive).components_eq
    rw [hparts]
  · intro hdrive hslashes
    have hrelative := relativePath_of_not_drive hdrive hslashes
    refine ⟨hrelative, ?_, ?_⟩ <;> rw [hrelative.components_eq]
  · refine ⟨addedPrefix (utf8 path), ?_, (utf8 path).flatMap encodeByte,
      toList_pathToUriReference path, ?_⟩
    · rcases addedPrefix_cases (utf8 path) with ⟨hadded, -⟩ | ⟨hadded, -⟩ | ⟨hadded, -⟩ <;>
        rw [hadded] <;> decide
    · rw [percentDecode_encode, map_fold_utf8Bytes]
  · intro other hsame
    exact withSlashes_of_uri_eq hsame

/-- A path beneath the root of a report. -/
theorem sarif_locations_spaced :
    RelativePath (pathToUriReference "src/my file.rs").toList :=
  ((sarif_locations "src/my file.rs").2.2.1 (by decide +kernel) (by decide +kernel)).1

/-- A drive letter and a colon do not make a file URI before a name. -/
theorem driveRelative_not_file : ¬ ∀ path : String,
    (∃ letter rest, path.toList = letter :: ':' :: rest ∧ letter.isAlpha = true) →
      (components (pathToUriReference path).toList).scheme = some ['f', 'i', 'l', 'e'] := by
  intro h
  have hscheme := h "C:foo.rs" ⟨'C', "foo.rs".toList, by decide, by decide⟩
  revert hscheme
  decide +kernel

end BigCodeAnalysis.Output
