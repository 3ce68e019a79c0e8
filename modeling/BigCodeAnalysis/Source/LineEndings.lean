import BigCodeAnalysis.Comments.Removal
import BigCodeAnalysis.Sequences.Strip

/-! The line endings of a source text. A text is compacted in place, a write position behind a
read position, until every line ends in one line feed; the text itself then ends in exactly
one. -/

namespace BigCodeAnalysis.Source

open Comments (Bytes lineFeed carriageReturn)
open Sequences

/-- The bytes of the line break that a carriage return at `r` begins. -/
def breakWidth (data : Bytes) (r : ℕ) : ℕ := if data[r + 1]? = some lineFeed then 2 else 1

theorem breakWidth_pos (data : Bytes) (r : ℕ) : 0 < breakWidth data r := by
  unfold breakWidth
  split_ifs <;> decide

/-- The compaction from write position `w` and read position `r` on, with the length written. -/
def compact (data : Bytes) (w r : ℕ) : Bytes × ℕ :=
  match h : data[r]? with
  | none => (data, w)
  | some b =>
    have : r < data.length := (List.getElem?_eq_some_iff.mp h).1
    if b = carriageReturn then
      let data' := data.set w lineFeed
      compact data' (w + 1) (r + breakWidth data' r)
    else compact (data.set w b) (w + 1) (r + 1)
termination_by data.length - r
decreasing_by
  · have hpos := breakWidth_pos (data.set w lineFeed) r
    rw [List.length_set]
    omega
  · rw [List.length_set]
    omega

/-- The text without the line feeds at its end. -/
def trimLineFeeds (data : Bytes) : Bytes :=
  let trailing := (data.reverse.takeWhile (· = lineFeed)).length
  data.take (data.length - trailing)

def normalizeLineEndings (data : Bytes) : Bytes :=
  let (buffer, w) := compact data 0 0
  trimLineFeeds (buffer.take w) ++ [lineFeed]

/-- The in-memory source buffer. -/
def normalizeEol (data : Bytes) : Bytes := normalizeLineEndings data

/-! ### The compacted text -/

/-- Every line break as a line feed; `afterCr` says that the byte before was a carriage return. -/
def toLineFeeds : Bool → Bytes → Bytes
  | _, [] => []
  | afterCr, b :: rest =>
    if b = carriageReturn then lineFeed :: toLineFeeds true rest
    else if b = lineFeed ∧ afterCr then toLineFeeds false rest
    else b :: toLineFeeds false rest

theorem toLineFeeds_true_cons (rest : Bytes) :
    toLineFeeds true (lineFeed :: rest) = toLineFeeds false rest := by
  rw [toLineFeeds, if_neg (by decide), if_pos ⟨rfl, rfl⟩]

theorem toLineFeeds_true {data : Bytes} (h : data[0]? ≠ some lineFeed) :
    toLineFeeds true data = toLineFeeds false data := by
  cases data with
  | nil => rfl
  | cons b rest =>
    have hb : b ≠ lineFeed := fun hb => h (by rw [hb]; rfl)
    rw [toLineFeeds, toLineFeeds, if_neg (fun hand : b = lineFeed ∧ _ => hb hand.1),
      if_neg (fun hand : b = lineFeed ∧ _ => hb hand.1)]

theorem take_set {data : Bytes} {w : ℕ} (b : UInt8) (h : w < data.length) :
    (data.set w b).take (w + 1) = data.take w ++ [b] := by
  rw [List.take_add_one, List.take_set_of_le (Nat.le_refl w), List.getElem?_set_self h]
  rfl

/-- The write position never passes the read position, so the loop reads what was there. -/
theorem compact_spec (data : Bytes) (w r : ℕ) (h : w ≤ r) :
    (compact data w r).1.take (compact data w r).2 =
      data.take w ++ toLineFeeds false (data.drop r) := by
  fun_induction compact data w r with
  | case1 data w r hr =>
    rw [List.drop_eq_nil_of_le (List.getElem?_eq_none_iff.mp hr), toLineFeeds, List.append_nil]
  | case2 data w r data' hr hlt ih =>
    have hnext : data'[r + 1]? = data[r + 1]? := List.getElem?_set_ne (by omega)
    have hhere : data.drop r = carriageReturn :: data.drop (r + 1) :=
      List.drop_eq_getElem?_toList_append.trans (by rw [hr]; rfl)
    have hpos := breakWidth_pos data' r
    rw [ih (by omega), take_set _ (by omega), hhere, toLineFeeds, if_pos rfl, List.append_assoc,
      List.singleton_append, breakWidth, hnext]
    congr 2
    split_ifs with hfeed
    · have hrest : data.drop (r + 1) = lineFeed :: data.drop (r + 2) :=
        List.drop_eq_getElem?_toList_append.trans (by rw [hfeed]; rfl)
      rw [hrest, toLineFeeds_true_cons, List.drop_set_of_lt (by omega)]
    · rw [toLineFeeds_true (by rwa [List.getElem?_drop]), List.drop_set_of_lt (by omega)]
  | case3 data w r b hr hlt hb ih =>
    have hhere : data.drop r = b :: data.drop (r + 1) :=
      List.drop_eq_getElem?_toList_append.trans (by rw [hr]; rfl)
    rw [ih (by omega), take_set _ (by omega), hhere, toLineFeeds, if_neg hb,
      if_neg (fun hand : _ ∧ false = true => Bool.false_ne_true hand.2),
      List.drop_set_of_lt (by omega), List.append_assoc, List.singleton_append]

theorem normalizeLineEndings_eq (data : Bytes) :
    normalizeLineEndings data = trimLineFeeds (toLineFeeds false data) ++ [lineFeed] := by
  have h := compact_spec data 0 0 (Nat.le_refl 0)
  rw [List.take_zero, List.nil_append, List.drop_zero] at h
  unfold normalizeLineEndings
  dsimp only
  rw [h]

/-! ### The end of the text -/

theorem trimLineFeeds_eq (data : Bytes) :
    trimLineFeeds data = data.rdropWhile fun b => b = lineFeed := by
  have hsplit := List.takeWhile_append_dropWhile (p := fun b => b = lineFeed) (l := data.reverse)
  have hlength := congrArg List.length hsplit
  rw [List.length_append, List.length_reverse] at hlength
  have hdata : data = data.rdropWhile (fun b => b = lineFeed) ++
      (data.reverse.takeWhile fun b => b = lineFeed).reverse := by
    rw [List.rdropWhile, ← List.reverse_append, hsplit, List.reverse_reverse]
  have hkept : data.length - (data.reverse.takeWhile fun b => b = lineFeed).length =
      (data.rdropWhile fun b => b = lineFeed).length := by
    rw [List.rdropWhile, List.length_reverse]
    omega
  unfold trimLineFeeds
  dsimp only
  rw [hkept]
  exact (congrArg (List.take _) hdata).trans List.take_left

/-- Only line feeds are cut off. -/
theorem trimLineFeeds_append (data : Bytes) :
    ∃ feeds, (∀ b ∈ feeds, b = lineFeed) ∧ trimLineFeeds data ++ feeds = data := by
  refine ⟨(data.reverse.takeWhile fun b => b = lineFeed).reverse, fun b hb => ?_, ?_⟩
  · have hfeed := List.mem_takeWhile_imp (List.mem_reverse.mp hb)
    simpa using hfeed
  · rw [trimLineFeeds_eq, List.rdropWhile, ← List.reverse_append,
      List.takeWhile_append_dropWhile, List.reverse_reverse]

theorem carriageReturn_notMem_toLineFeeds (data : Bytes) :
    ∀ afterCr, carriageReturn ∉ toLineFeeds afterCr data := by
  induction data with
  | nil => exact fun _ => List.not_mem_nil
  | cons b rest ih =>
    intro afterCr
    rw [toLineFeeds]
    split_ifs with hreturn hfeed
    · exact List.not_mem_cons_of_ne_of_not_mem (by decide) (ih true)
    · exact ih false
    · simp [ih, Ne.symm hreturn]

theorem toLineFeeds_of_notMem {data : Bytes} (h : carriageReturn ∉ data) :
    toLineFeeds false data = data := by
  induction data with
  | nil => rfl
  | cons b rest ih =>
    obtain ⟨hb, hrest⟩ := List.ne_and_not_mem_of_not_mem_cons h
    rw [toLineFeeds, if_neg hb.symm, if_neg (fun hand : _ ∧ false = true => Bool.false_ne_true hand.2),
      ih hrest]

theorem carriageReturn_notMem_normalizeLineEndings (data : Bytes) :
    carriageReturn ∉ normalizeLineEndings data := by
  rw [normalizeLineEndings_eq, List.mem_append, trimLineFeeds_eq]
  rintro (hmem | hmem)
  · exact carriageReturn_notMem_toLineFeeds data false ((List.rdropWhile_prefix _ _).subset hmem)
  · exact absurd (List.mem_singleton.mp hmem) (by decide)

/-- The text ends in exactly one line feed. -/
theorem normalizeLineEndings_ends (data : Bytes) :
    ∃ body, normalizeLineEndings data = body ++ [lineFeed] ∧ body.getLast? ≠ some lineFeed := by
  refine ⟨_, normalizeLineEndings_eq data, fun hlast => ?_⟩
  rw [trimLineFeeds_eq] at hlast
  obtain ⟨hne, hend⟩ := List.mem_getLast?_eq_getLast hlast
  exact List.rdropWhile_last_not _ _ hne (by simp [← hend])

theorem normalizeLineEndings_idem (data : Bytes) :
    normalizeLineEndings (normalizeLineEndings data) = normalizeLineEndings data := by
  rw [normalizeLineEndings_eq (normalizeLineEndings data),
    toLineFeeds_of_notMem (carriageReturn_notMem_normalizeLineEndings data), normalizeLineEndings_eq,
    trimLineFeeds_eq, trimLineFeeds_eq, rdropWhile_append_of_pos (by simp), List.rdropWhile_idempotent]

/-! ### Line by line -/

inductive Terminator where
  | lineFeed
  | crLf
  | carriageReturn
  deriving DecidableEq, Repr

def Terminator.bytes : Terminator → Bytes
  | .lineFeed => [Comments.lineFeed]
  | .crLf => [Comments.carriageReturn, Comments.lineFeed]
  | .carriageReturn => [Comments.carriageReturn]

/-- Lines with their terminators and what follows the last of them. -/
def textOf (lines : List (Bytes × Terminator)) (last : Bytes) : Bytes :=
  lines.flatMap (fun line => line.1 ++ line.2.bytes) ++ last

def Plain (line : Bytes) : Prop := carriageReturn ∉ line ∧ lineFeed ∉ line

/-- The lines hold no break, and a carriage return stands alone only where no line feed
follows it. -/
def Broken : List (Bytes × Terminator) → Bytes → Prop
  | [], last => Plain last
  | line :: lines, last => Plain line.1 ∧
      (line.2 = .carriageReturn → (textOf lines last)[0]? ≠ some lineFeed) ∧ Broken lines last

theorem textOf_cons (line : Bytes × Terminator) (lines : List (Bytes × Terminator)) (last : Bytes) :
    textOf (line :: lines) last = line.1 ++ (line.2.bytes ++ textOf lines last) := by
  simp only [textOf, List.flatMap_cons, List.append_assoc]

theorem toLineFeeds_plain {line : Bytes} (h : Plain line) (rest : Bytes) :
    toLineFeeds false (line ++ rest) = line ++ toLineFeeds false rest := by
  induction line with
  | nil => rfl
  | cons b line ih =>
    obtain ⟨hreturn, hline⟩ := List.ne_and_not_mem_of_not_mem_cons h.1
    have hrest := (List.ne_and_not_mem_of_not_mem_cons h.2).2
    rw [List.cons_append, toLineFeeds, if_neg hreturn.symm,
      if_neg (fun hand : _ ∧ false = true => Bool.false_ne_true hand.2), ih ⟨hline, hrest⟩,
      List.cons_append]

theorem toLineFeeds_terminator (terminator : Terminator) {rest : Bytes}
    (h : terminator = .carriageReturn → rest[0]? ≠ some lineFeed) :
    toLineFeeds false (terminator.bytes ++ rest) = lineFeed :: toLineFeeds false rest := by
  cases terminator with
  | lineFeed =>
    rw [Terminator.bytes, List.singleton_append, toLineFeeds, if_neg (by decide), if_neg (by simp)]
  | crLf =>
    rw [Terminator.bytes, List.cons_append, List.singleton_append, toLineFeeds, if_pos rfl,
      toLineFeeds_true_cons]
  | carriageReturn =>
    rw [Terminator.bytes, List.singleton_append, toLineFeeds, if_pos rfl, toLineFeeds_true (h rfl)]

/-- Every terminator becomes one line feed. -/
theorem toLineFeeds_textOf {lines : List (Bytes × Terminator)} {last : Bytes}
    (h : Broken lines last) : toLineFeeds false (textOf lines last) =
      lines.flatMap (fun line => line.1 ++ [lineFeed]) ++ last := by
  induction lines with
  | nil =>
    have hlast := toLineFeeds_plain h []
    rwa [List.append_nil, toLineFeeds, List.append_nil] at hlast
  | cons line lines ih =>
    obtain ⟨hline, hterminator, hrest⟩ := h
    rw [textOf_cons, toLineFeeds_plain hline, toLineFeeds_terminator _ hterminator, ih hrest,
      List.flatMap_cons]
    simp only [List.append_assoc, List.cons_append, List.nil_append]

/-- Every text has its lines. -/
theorem exists_broken (data : Bytes) : ∃ lines last, Broken lines last ∧ textOf lines last = data := by
  induction data with
  | nil => exact ⟨[], [], ⟨List.not_mem_nil, List.not_mem_nil⟩, rfl⟩
  | cons b data ih =>
    obtain ⟨lines, last, hbroken, rfl⟩ := ih
    by_cases hfeed : b = lineFeed
    · subst hfeed
      exact ⟨([], .lineFeed) :: lines, last, ⟨⟨List.not_mem_nil, List.not_mem_nil⟩, nofun, hbroken⟩,
        by rw [textOf_cons]; rfl⟩
    by_cases hreturn : b = carriageReturn
    · subst hreturn
      by_cases hnext : (textOf lines last)[0]? = some lineFeed
      · cases lines with
        | nil => exact absurd (List.mem_of_getElem? hnext) hbroken.2
        | cons line lines =>
          obtain ⟨line, terminator⟩ := line
          obtain ⟨hline, hterminator, hrest⟩ := hbroken
          rw [textOf_cons] at hnext
          cases line with
          | nil =>
            cases terminator with
            | lineFeed =>
              exact ⟨([], .crLf) :: lines, last, ⟨hline, nofun, hrest⟩,
                by rw [textOf_cons, textOf_cons]; rfl⟩
            | crLf => exact absurd (Option.some.inj hnext) (by decide)
            | carriageReturn => exact absurd (Option.some.inj hnext) (by decide)
          | cons c line =>
            exact absurd (Option.some.inj hnext) (List.ne_and_not_mem_of_not_mem_cons hline.2).1.symm
      · exact ⟨([], .carriageReturn) :: lines, last,
          ⟨⟨List.not_mem_nil, List.not_mem_nil⟩, fun _ => hnext, hbroken⟩, by rw [textOf_cons]; rfl⟩
    · have hcons : ∀ {line : Bytes}, Plain line → Plain (b :: line) := fun hline =>
        ⟨by simp [hline.1, Ne.symm hreturn], by simp [hline.2, Ne.symm hfeed]⟩
      cases lines with
      | nil => exact ⟨[], b :: last, hcons hbroken, rfl⟩
      | cons line lines =>
        obtain ⟨hline, hterminator, hrest⟩ := hbroken
        exact ⟨(b :: line.1, line.2) :: lines, last, ⟨hcons hline, hterminator, hrest⟩,
          by rw [textOf_cons, textOf_cons]; rfl⟩

end BigCodeAnalysis.Source
