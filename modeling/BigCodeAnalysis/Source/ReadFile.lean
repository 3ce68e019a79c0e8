import BigCodeAnalysis.Sequences.Slice
import BigCodeAnalysis.Sequences.Utf8Code
import BigCodeAnalysis.Source.LineEndings

/-! Reading a source file. The first bytes decide whether the file is text, a UTF-8 byte-order
mark is cut off, and the line endings are normalised as those of an in-memory buffer are. What is
compared in the end is a file and its bytes in memory: they give the same buffer unless the bytes
begin with that mark, which normalising alone does not cut off. -/

namespace BigCodeAnalysis.Source

open Comments (Bytes lineFeed carriageReturn)
open Sequences

/-! ### The probe -/

def utf8ProbeBytes : ℕ := 64

/-- Why a file is not handed to the metrics. -/
inductive SkipReason where
  | empty
  | tooSmall
  | utf16Bom
  | notUtf8
  deriving DecidableEq, Repr

def SkipReason.forSize (size : ℕ) : SkipReason := if size = 0 then .empty else .tooSmall

def utf16BeBom : Bytes := [0xFE, 0xFF]

def utf16LeBom : Bytes := [0xFF, 0xFE]

def utf8Bom : Bytes := [0xEF, 0xBB, 0xBF]

/-- What decoding says of bytes: they are UTF-8, they are up to a character cut off at their
end, or they are not. -/
inductive Decoding where
  | valid
  | incomplete
  | invalid
  deriving DecidableEq, Repr

def decodeFrom : ℕ → Bytes → Decoding
  | _, [] => .valid
  | 0, _ :: _ => .invalid
  | fuel + 1, b :: rest =>
    let (n, valid) := firstChunk (b :: rest)
    if valid then decodeFrom fuel ((b :: rest).drop n)
    else if n = (b :: rest).length ∧ 2 ≤ charWidth b then .incomplete else .invalid

/-- `std::str::from_utf8`: every character is at least one byte long. -/
def fromUtf8 (bytes : Bytes) : Decoding := decodeFrom bytes.length bytes

def probeDecodablePrefix (start : Bytes) (fileSize probeLen : ℕ) : Except SkipReason Bytes :=
  if utf16BeBom.isPrefixOf start || utf16LeBom.isPrefixOf start then .error .utf16Bom
  else
    let start := (stripStart utf8Bom start).getD start
    let probeTruncated := fileSize > probeLen
    match fromUtf8 start with
    | .valid => .ok start
    | .incomplete => if probeTruncated then .ok start else .error .notUtf8
    | .invalid => .error .notUtf8

/-! ### The file -/

variable {ε : Type*}

/-- What the file system answers for a path: the size and whether it is a file or a directory,
where `stat` succeeds, and the bytes that opening and reading it give. -/
structure File (ε : Type*) where
  stat : Option (ℕ × Bool)
  contents : Except ε Bytes

/-- Why reading stops short. -/
inductive ReadStop (ε : Type*) where
  | io (error : ε)
  | skip (reason : SkipReason)

def readGated (file : File ε) : Except (ReadStop ε) Bytes :=
  let fileSize := (file.stat.map Prod.fst).getD (1024 * 1024)
  if fileSize ≤ 3 then
    match (file.stat.map Prod.snd).getD false, file.contents with
    | true, .error error => .error (.io error)
    | _, _ => .error (.skip (.forSize fileSize))
  else
    match file.contents with
    | .error error => .error (.io error)
    | .ok contents =>
      let probeLen := min utf8ProbeBytes fileSize
      -- an exact read of the probe meets the end of a shorter file
      if contents.length < probeLen then .error (.skip .tooSmall)
      else
        match probeDecodablePrefix (contents.take probeLen) fileSize probeLen with
        | .error reason => .error (.skip reason)
        | .ok start => .ok (normalizeLineEndings (start ++ contents.drop probeLen))

def readFileWithEolClassified (file : File ε) : Except ε (Except SkipReason Bytes) :=
  match readGated file with
  | .ok data => .ok (.ok data)
  | .error (.skip reason) => .ok (.error reason)
  | .error (.io error) => .error error

def readFileWithEol (file : File ε) : Except ε (Option Bytes) :=
  (readFileWithEolClassified file).map fun data => data.toOption

/-! ### What is read -/

theorem probeDecodablePrefix_ok {start kept : Bytes} {fileSize probeLen : ℕ}
    (h : probeDecodablePrefix start fileSize probeLen = .ok kept) :
    kept = (stripStart utf8Bom start).getD start := by
  unfold probeDecodablePrefix at h
  split_ifs at h with hmark
  dsimp only at h
  split at h
  · exact (Except.ok.inj h).symm
  · split_ifs at h
    exact (Except.ok.inj h).symm
  · cases h

/-- A mark is found in a window of the file that is long enough. -/
theorem stripStart_take {mark contents : Bytes} {n : ℕ} (hn : mark.length ≤ n) :
    (stripStart mark (contents.take n)).getD (contents.take n) ++ contents.drop n =
      (stripStart mark contents).getD contents := by
  cases hstrip : stripStart mark contents with
  | some rest =>
    obtain rfl := stripStart_eq_some.mp hstrip
    have htake : (mark ++ rest).take n = mark ++ rest.take (n - mark.length) := by
      rw [List.take_append, List.take_of_length_le hn]
    rw [htake, stripStart_eq_some.mpr rfl, List.drop_append, List.drop_of_length_le hn]
    simp only [Option.getD_some, List.nil_append, List.take_append_drop]
  | none =>
    have hnone : stripStart mark (contents.take n) = none := by
      refine stripStart_eq_none.mpr fun hmark => stripStart_eq_none.mp hstrip ?_
      exact hmark.trans (List.take_prefix n contents)
    rw [hnone, Option.getD_none, Option.getD_none, List.take_append_drop]

/-- A file that is accepted is read without its UTF-8 byte-order mark. -/
theorem readGated_ok {file : File ε} {contents data : Bytes} (hfile : file.contents = .ok contents)
    (h : readGated file = .ok data) :
    data = normalizeEol ((stripStart utf8Bom contents).getD contents) := by
  unfold readGated at h
  dsimp only at h
  split_ifs at h with hsize
  · split at h <;> cases h
  · rw [hfile] at h
    dsimp only at h
    split_ifs at h with hshort
    split at h
    · cases h
    · next start hstart =>
      obtain rfl := Except.ok.inj h
      rw [probeDecodablePrefix_ok hstart, stripStart_take]
      · rfl
      · refine Nat.le_min.mpr ⟨by decide, ?_⟩
        show 3 ≤ _
        omega

theorem readFileWithEol_ok {file : File ε} {contents data : Bytes}
    (hfile : file.contents = .ok contents) (h : readFileWithEol file = .ok (some data)) :
    data = normalizeEol ((stripStart utf8Bom contents).getD contents) := by
  unfold readFileWithEol readFileWithEolClassified at h
  split at h
  · next buffer hread =>
    obtain rfl : buffer = data := Option.some.inj (Except.ok.inj h)
    exact readGated_ok hfile hread
  · cases Except.ok.inj h
  · cases h

/-! ### The byte-order mark in memory -/

theorem count_toLineFeeds {b : UInt8} (hreturn : b ≠ carriageReturn) (hfeed : b ≠ lineFeed)
    (data : Bytes) : ∀ afterCr, (toLineFeeds afterCr data).count b = data.count b := by
  induction data with
  | nil => exact fun _ => rfl
  | cons c rest ih =>
    intro afterCr
    rw [toLineFeeds]
    split_ifs with hc hc
    · rw [List.count_cons_of_ne hfeed.symm, hc, List.count_cons_of_ne hreturn.symm, ih]
    · rw [hc.1, List.count_cons_of_ne hfeed.symm, ih]
    · rw [List.count_cons, List.count_cons, ih]

/-- Normalising keeps every byte that breaks no line. -/
theorem count_normalizeEol {b : UInt8} (hreturn : b ≠ carriageReturn) (hfeed : b ≠ lineFeed)
    (data : Bytes) : (normalizeEol data).count b = data.count b := by
  obtain ⟨feeds, hfeeds, hdata⟩ := trimLineFeeds_append (toLineFeeds false data)
  have hnone : feeds.count b = 0 := List.count_eq_zero.mpr fun hmem => hfeed (hfeeds b hmem)
  have hcount := congrArg (List.count b) hdata
  rw [List.count_append, hnone, count_toLineFeeds hreturn hfeed] at hcount
  have hend : [lineFeed].count b = 0 := List.count_eq_zero.mpr (by simpa using hfeed)
  rw [normalizeEol, normalizeLineEndings_eq, List.count_append, hend, hcount]

theorem normalizeEol_strip_iff (contents : Bytes) :
    normalizeEol ((stripStart utf8Bom contents).getD contents) = normalizeEol contents ↔
      ¬ utf8Bom <+: contents := by
  cases hstrip : stripStart utf8Bom contents with
  | none => exact iff_of_true rfl (stripStart_eq_none.mp hstrip)
  | some rest =>
    obtain rfl := stripStart_eq_some.mp hstrip
    refine iff_of_false (fun h => ?_) (not_not_intro (List.prefix_append _ _))
    -- the mark's first byte is counted once more in memory
    have hcount := congrArg (List.count 0xEF) h
    rw [count_normalizeEol (by decide) (by decide), count_normalizeEol (by decide) (by decide),
      List.count_append] at hcount
    have hmark : utf8Bom.count 0xEF = 1 := by decide
    rw [hmark, Option.getD_some] at hcount
    omega

/-- A file and its bytes in memory give the same buffer unless they begin with a UTF-8 byte-order
mark, which only the file reader cuts off. Normalising line endings is idempotent, leaves no
carriage return and exactly one line feed at the end, and maps every terminator to one. -/
theorem readFileWithEol_eq_normalizeEol :
    (∀ (file : File ε) (contents data : Bytes), file.contents = .ok contents →
      readFileWithEol file = .ok (some data) →
        (data = normalizeEol contents ↔ ¬ utf8Bom <+: contents)) ∧
    ∀ data : Bytes,
      normalizeLineEndings (normalizeLineEndings data) = normalizeLineEndings data ∧
      carriageReturn ∉ normalizeLineEndings data ∧
      (∃ body, normalizeLineEndings data = body ++ [lineFeed] ∧ body.getLast? ≠ some lineFeed) ∧
      (∃ lines last, Broken lines last ∧ textOf lines last = data) ∧
      ∀ lines last, Broken lines last → textOf lines last = data →
        normalizeLineEndings data =
          trimLineFeeds (lines.flatMap (fun line => line.1 ++ [lineFeed]) ++ last) ++ [lineFeed] := by
  refine ⟨fun file contents data hfile h => ?_, fun data => ⟨normalizeLineEndings_idem data,
    carriageReturn_notMem_normalizeLineEndings data, normalizeLineEndings_ends data,
    exists_broken data, ?_⟩⟩
  · rw [readFileWithEol_ok hfile h]
    exact normalizeEol_strip_iff contents
  · rintro lines last hbroken rfl
    rw [normalizeLineEndings_eq, toLineFeeds_textOf hbroken]

theorem readFileWithEol_eq_normalizeEol_return :
    [97, 10, 98, 10] = normalizeEol [97, 13, 98, 10] := by
  have hdata : normalizeLineEndings [97, 13, 98, 10] = [97, 10, 98, 10] := by
    rw [normalizeLineEndings_eq]
    decide
  have hread : readFileWithEol (⟨some (4, true), .ok [97, 13, 98, 10]⟩ : File Unit) =
      .ok (some (normalizeLineEndings [97, 13, 98, 10])) := rfl
  rw [hdata] at hread
  exact (readFileWithEol_eq_normalizeEol.1 _ _ _ rfl hread).mpr (by decide)

/-- A file of a UTF-8 byte-order mark and `abc`. -/
theorem normalizeEol_keeps_mark : ∃ (file : File Unit) (contents data : Bytes),
    file.contents = .ok contents ∧ file.stat = some (contents.length, true) ∧
      3 < contents.length ∧ readFileWithEol file = .ok (some data) ∧
      data ≠ normalizeEol contents := by
  refine ⟨⟨some (6, true), .ok [0xEF, 0xBB, 0xBF, 97, 98, 99]⟩, [0xEF, 0xBB, 0xBF, 97, 98, 99],
    normalizeLineEndings [97, 98, 99], rfl, rfl, by decide, rfl, fun h => ?_⟩
  rw [normalizeEol, normalizeLineEndings_eq, normalizeLineEndings_eq] at h
  exact absurd h (by decide)

end BigCodeAnalysis.Source
