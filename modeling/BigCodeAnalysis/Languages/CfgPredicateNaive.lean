import BigCodeAnalysis.Languages.CfgPredicate
import Mathlib.Data.List.Induction
import Mathlib.Tactic.Common

/-! The walk reads a predicate as the naive recursion does. A region lies in the text
behind characters whose parentheses sum to its nesting depth, so a comma has the
region's absolute depth exactly when it has depth 0 counted from the region's start:
the index gives each region its own top-level commas. -/

namespace BigCodeAnalysis.Languages.CfgPredicate

open Sequences Spaces

/-- The change of the depth over a text. -/
def textDelta : List Char → ℤ
  | [] => 0
  | c :: text => charDelta c + textDelta text

@[simp] theorem textDelta_nil : textDelta [] = 0 := rfl

@[simp] theorem textDelta_cons (c : Char) (text : List Char) :
    textDelta (c :: text) = charDelta c + textDelta text := rfl

@[simp] theorem textDelta_append (a b : List Char) :
    textDelta (a ++ b) = textDelta a + textDelta b := by
  induction a with
  | nil => simp
  | cons c a ih =>
    rw [List.cons_append, textDelta_cons, ih, textDelta_cons]
    omega

/-- A text without parentheses keeps the depth. -/
theorem textDelta_eq_zero {text : List Char} (h : ∀ c ∈ text, c ≠ '(' ∧ c ≠ ')') :
    textDelta text = 0 := by
  induction text with
  | nil => rfl
  | cons c text ih =>
    obtain ⟨hopen, hclose⟩ := h c List.mem_cons_self
    rw [textDelta_cons, ih fun d hd => h d (List.mem_cons_of_mem c hd), charDelta, if_neg hopen,
      if_neg hclose]
    rfl

/-! ### The scan, character by character -/

/-- What a character adds to the index. -/
def charEntry (depth : ℤ) (offset : ℕ) (c : Char) : List (ℕ × ℕ) :=
  if c = ',' ∧ 0 ≤ depth then [(depth.toNat, offset)] else []

def scanChars : ℤ → ℕ → List Char → List (ℕ × ℕ)
  | _, _, [] => []
  | depth, offset, c :: text =>
    charEntry depth offset c ++ scanChars (depth + charDelta c) (offset + c.utf8Size) text

theorem scanCommas_quiet (depth : ℤ) (offset : ℕ) {bytes : List UInt8} (rest : List UInt8)
    (h : ∀ b ∈ bytes, b ≠ openParen ∧ b ≠ closeParen ∧ b ≠ comma) :
    scanCommas depth offset (bytes ++ rest) = scanCommas depth (offset + bytes.length) rest := by
  induction bytes generalizing offset with
  | nil => rfl
  | cons b bytes ih =>
    obtain ⟨hopen, hclose, hcomma⟩ := h b List.mem_cons_self
    rw [List.cons_append, scanCommas, if_neg hopen, if_neg hclose, if_neg hcomma,
      ih (offset + 1) fun b hb => h b (List.mem_cons_of_mem _ hb), List.length_cons,
      Nat.add_assoc, Nat.add_comm 1]

/-- Bytes of no other character are read as a parenthesis or a comma. -/
theorem scanCommas_char (depth : ℤ) (offset : ℕ) (c : Char) (rest : List UInt8) :
    scanCommas depth offset (String.utf8EncodeChar c ++ rest) =
      charEntry depth offset c ++
        scanCommas (depth + charDelta c) (offset + c.utf8Size) rest := by
  by_cases hopen : c = '('
  · subst hopen
    rfl
  by_cases hclose : c = ')'
  · subst hclose
    rfl
  by_cases hcomma : c = ','
  · subst hcomma
    have hdelta : depth + charDelta ',' = depth := by
      rw [charDelta, if_neg (by decide), if_neg (by decide), add_zero]
    have hbytes : String.utf8EncodeChar ',' = [comma] := by decide
    have hsize : (',' : Char).utf8Size = 1 := by decide
    rw [hbytes, hdelta, hsize, List.singleton_append, scanCommas, if_neg (by decide),
      if_neg (by decide), if_pos rfl, charEntry]
    by_cases hdepth : 0 ≤ depth
    · rw [if_pos hdepth, if_pos ⟨rfl, hdepth⟩]
      rfl
    · rw [if_neg hdepth, if_neg fun h => hdepth h.2]
      rfl
  have hquiet : ∀ b ∈ String.utf8EncodeChar c, b ≠ openParen ∧ b ≠ closeParen ∧ b ≠ comma := by
    have hne : ∀ (d : Char) (b : UInt8), c ≠ d → b.toNat = d.toNat → b.toNat < 128 →
        b ∉ String.utf8EncodeChar c := by
      intro d b hcd hbd hb hmem
      exact hcd (Char.toNat_inj.mp ((toNat_eq_of_mem hb hmem).trans hbd))
    intro b hb
    refine ⟨?_, ?_, ?_⟩ <;> rintro rfl
    · exact hne '(' openParen hopen rfl (by decide) hb
    · exact hne ')' closeParen hclose rfl (by decide) hb
    · exact hne ',' comma hcomma rfl (by decide) hb
  rw [scanCommas_quiet depth offset rest hquiet, String.length_utf8EncodeChar, charEntry,
    if_neg fun h => hcomma h.1, charDelta, if_neg hopen, if_neg hclose, add_zero]
  rfl

theorem scanCommas_utf8 (depth : ℤ) (offset : ℕ) (text : List Char) :
    scanCommas depth offset (text.flatMap String.utf8EncodeChar) =
      scanChars depth offset text := by
  induction text generalizing depth offset with
  | nil => rfl
  | cons c text ih => rw [List.flatMap_cons, scanCommas_char, ih, scanChars]

theorem scanChars_append (depth : ℤ) (offset : ℕ) (a b : List Char) :
    scanChars depth offset (a ++ b) =
      scanChars depth offset a ++ scanChars (depth + textDelta a) (offset + byteLen a) b := by
  induction a generalizing depth offset with
  | nil => simp [scanChars]
  | cons c a ih =>
    rw [List.cons_append, scanChars, ih, scanChars, textDelta_cons, byteLen_cons, List.append_assoc,
      Int.add_assoc, Nat.add_assoc]

/-- The entries of a text lie in it, in ascending order. -/
theorem scanChars_offsets (depth : ℤ) (offset : ℕ) (text : List Char) :
    (∀ e ∈ scanChars depth offset text, offset ≤ e.2 ∧ e.2 < offset + byteLen text) ∧
      (scanChars depth offset text).Pairwise fun a b => a.2 < b.2 := by
  induction text generalizing depth offset with
  | nil => simp [scanChars]
  | cons c text ih =>
    obtain ⟨hin, hsorted⟩ := ih (depth + charDelta c) (offset + c.utf8Size)
    have hpos := c.utf8Size_pos
    have hentry : ∀ e ∈ charEntry depth offset c, e.2 = offset := by
      intro e he
      unfold charEntry at he
      split at he
      · rw [List.mem_singleton.mp he]
      · cases he
    constructor
    · intro e he
      rw [byteLen_cons]
      rcases List.mem_append.mp he with he | he
      · rw [hentry e he]
        omega
      · have := hin e he
        omega
    · refine List.pairwise_append.mpr ⟨?_, hsorted, ?_⟩
      · unfold charEntry
        split <;> simp
      · intro a ha b hb
        rw [hentry a ha]
        have := hin b hb
        omega

/-! ### The split points of a region -/

/-- Offsets of the commas at depth 0. -/
def topOffsets : ℤ → ℕ → List Char → List ℕ
  | _, _, [] => []
  | depth, offset, c :: text =>
    if c = ',' ∧ depth = 0 then offset :: topOffsets depth (offset + 1) text
    else topOffsets (depth + charDelta c) (offset + c.utf8Size) text

/-- The entries at the depth of a region are its own top-level commas. -/
theorem topOffsets_eq (regionDepth : ℕ) (depth : ℤ) (offset : ℕ) (text : List Char) :
    ((scanChars (regionDepth + depth) offset text).filter
        fun e => decide (e.1 = regionDepth)).map Prod.snd = topOffsets depth offset text := by
  induction text generalizing depth offset with
  | nil => rfl
  | cons c text ih =>
    rw [scanChars, List.filter_append, List.map_append, Int.add_assoc, ih, topOffsets]
    by_cases hcomma : c = ','
    · subst hcomma
      have hdelta : charDelta ',' = 0 := by decide
      have hsize : (',' : Char).utf8Size = 1 := by decide
      rw [hdelta, add_zero, hsize]
      by_cases hdepth : depth = 0
      · subst hdepth
        simp [charEntry]
      · rw [if_neg fun h => hdepth h.2]
        by_cases hneg : 0 ≤ (regionDepth : ℤ) + depth
        · have hne : ((regionDepth : ℤ) + depth).toNat ≠ regionDepth := by omega
          simp [charEntry, hneg, hne]
        · simp [charEntry, hneg]
    · rw [if_neg fun h => hcomma h.1]
      simp [charEntry, hcomma]

theorem entryLe_iff (a b : ℕ × ℕ) :
    entryLe a b = true ↔ a.1 < b.1 ∨ a.1 = b.1 ∧ a.2 ≤ b.2 := by
  simp [entryLe]

theorem entries_pairwise (pred : List Char) :
    (CommaIndex.build pred).entries.Pairwise fun a b => entryLe a b = true := by
  refine List.pairwise_mergeSort (fun a b c hab hbc => ?_) (fun a b => ?_) _
  · rw [entryLe_iff] at hab hbc ⊢
    omega
  · rw [Bool.or_eq_true, entryLe_iff, entryLe_iff]
    omega

/-- The run of entries a region asks for holds all its split points and no others. -/
theorem splits_eq_filter (pred : List Char) (region : Region) (depth : ℕ) :
    (CommaIndex.build pred).splits region depth =
      ((CommaIndex.build pred).entries.filter fun e =>
        decide (e.1 = depth ∧ region.start ≤ e.2 ∧ e.2 < region.stop)).map Prod.snd := by
  have hsorted := entries_pairwise pred
  have hlow : (CommaIndex.build pred).entries.Pairwise fun a b =>
      (!entryLe (depth, region.start) b) = true → (!entryLe (depth, region.start) a) = true := by
    refine hsorted.imp ?_
    intro a b hab hb
    rw [Bool.not_eq_true', Bool.eq_false_iff, ne_eq, entryLe_iff] at hb ⊢
    rw [entryLe_iff] at hab
    omega
  rw [CommaIndex.splits, dropWhile_eq_filter hlow, takeWhile_eq_filter, List.filter_filter]
  · congr 1
    refine List.filter_congr fun e _ => ?_
    rw [Bool.eq_iff_iff, Bool.and_eq_true, Bool.and_eq_true, decide_eq_true_iff,
      decide_eq_true_iff, decide_eq_true_iff, Bool.not_not, entryLe_iff]
    omega
  · refine List.Pairwise.imp_of_mem ?_ (hsorted.filter _)
    intro a b ha _ hab hb
    have hge := (List.mem_filter.mp ha).2
    rw [Bool.not_not, entryLe_iff] at hge
    rw [entryLe_iff] at hab
    simp only [Bool.and_eq_true, decide_eq_true_iff] at hb ⊢
    omega

/-- A region behind characters whose parentheses sum to `depth` is split at its own
top-level commas. -/
theorem splits_eq (a region b : List Char) {depth : ℕ} (hdepth : textDelta a = depth) :
    (CommaIndex.build (a ++ region ++ b)).splits ⟨byteLen a, byteLen a + byteLen region⟩ depth =
      topOffsets 0 (byteLen a) region := by
  rw [splits_eq_filter, ← topOffsets_eq depth, add_zero]
  set window : ℕ × ℕ → Bool := fun e =>
    decide (e.1 = depth ∧ byteLen a ≤ e.2 ∧ e.2 < byteLen a + byteLen region) with hwindow
  have hin := (scanChars_offsets depth (byteLen a) region).1
  -- only the entries of the region itself lie in its range
  have hscan : (scanChars 0 0 (a ++ region ++ b)).filter window =
      (scanChars depth (byteLen a) region).filter fun e => decide (e.1 = depth) := by
    have hbefore : (scanChars 0 0 a).filter window = [] := by
      refine List.filter_eq_nil_iff.mpr fun e he => ?_
      have := (scanChars_offsets 0 0 a).1 e he
      simp only [hwindow, decide_eq_true_iff]
      omega
    have hafter : ∀ d, (scanChars d (byteLen a + byteLen region) b).filter window = [] := by
      intro d
      refine List.filter_eq_nil_iff.mpr fun e he => ?_
      have := (scanChars_offsets d (byteLen a + byteLen region) b).1 e he
      simp only [hwindow, decide_eq_true_iff]
      omega
    rw [scanChars_append, scanChars_append, List.filter_append, List.filter_append, hbefore,
      byteLen_append, Nat.zero_add, Nat.zero_add, hafter, List.nil_append, List.append_nil,
      Int.zero_add, hdepth]
    refine List.filter_congr fun e he => ?_
    have := hin e he
    rw [decide_eq_decide]
    omega
  have hperm : ((CommaIndex.build (a ++ region ++ b)).entries.filter window).Perm
      ((scanChars 0 0 (a ++ region ++ b)).filter window) := by
    rw [CommaIndex.build, scanCommas_utf8]
    exact (List.mergeSort_perm _ _).filter _
  rw [← hscan]
  refine @List.Perm.eq_of_pairwise _ (fun x y => x ≤ y) _ _ (fun x y _ _ hxy hyx => by omega)
    ?_ ?_ (hperm.map Prod.snd)
  · refine List.pairwise_map.mpr (List.Pairwise.imp_of_mem ?_ ((entries_pairwise _).filter _))
    intro x y hx hy hxy
    have hx' := (List.mem_filter.mp hx).2
    have hy' := (List.mem_filter.mp hy).2
    rw [entryLe_iff] at hxy
    simp only [hwindow, decide_eq_true_iff] at hx' hy'
    omega
  · refine List.pairwise_map.mpr (((scanChars_offsets 0 0 _).2.filter _).imp ?_)
    intro x y hxy
    omega

/-! ### Operands -/

/-- A text of white space. -/
def Blank (text : List Char) : Prop := ∀ c ∈ text, isWhitespace c = true

theorem Blank.textDelta {text : List Char} (h : Blank text) : textDelta text = 0 := by
  refine textDelta_eq_zero fun c hc => ⟨?_, ?_⟩ <;> rintro rfl
  · exact absurd (h _ hc) (by decide)
  · exact absurd (h _ hc) (by decide)

theorem trimStart_split (text : List Char) :
    ∃ lead, Blank lead ∧ text = lead ++ trimStart text :=
  ⟨text.takeWhile isWhitespace, fun _ h => List.mem_takeWhile_imp h,
    List.takeWhile_append_dropWhile.symm⟩

theorem trimEnd_split (text : List Char) :
    ∃ trail, Blank trail ∧ text = trimEnd text ++ trail :=
  ⟨text.rtakeWhile isWhitespace, fun _ h => List.mem_rtakeWhile_imp h,
    List.rdropWhile_append_rtakeWhile.symm⟩

/-- White space is cut off behind a last character that is none. -/
theorem trimEnd_append {text trail : List Char} {c : Char} (hc : isWhitespace c = false)
    (htrail : Blank trail) : trimEnd (text ++ [c] ++ trail) = text ++ [c] := by
  induction trail using List.reverseRecOn with
  | nil =>
    rw [List.append_nil]
    exact List.rdropWhile_concat_neg _ _ _ (by simp [hc])
  | append_singleton trail d ih =>
    have hd : isWhitespace d = true := htrail d (by simp)
    rw [← List.append_assoc, trimEnd, List.rdropWhile_concat_pos _ _ _ hd]
    exact ih fun e he => htrail e (by simp [he])

/-- The shape of an operand with an argument list: the parentheses in front of the list
are one opening one. -/
theorem combinatorArgs_split {operand inside args : List Char}
    (h : combinatorArgs (trim operand) = some (inside, args)) :
    ∃ before trail, textDelta before = 1 ∧ inside = args ++ [')'] ∧
      trimEnd operand = before ++ inside ∧ operand = before ++ args ++ ')' :: trail := by
  unfold combinatorArgs at h
  obtain ⟨rest, hrest, h⟩ := Option.bind_eq_some_iff.mp h
  obtain ⟨inside', hinside, h⟩ := Option.bind_eq_some_iff.mp h
  obtain ⟨args', hargs, h⟩ := Option.bind_eq_some_iff.mp h
  obtain ⟨rfl, rfl⟩ := Prod.mk.inj (Option.some_inj.mp h)
  obtain ⟨name, hname, htrimmed⟩ : ∃ name, textDelta name = 0 ∧ trim operand = name ++ rest := by
    rcases Option.or_eq_some_iff.mp hrest with h | ⟨-, h⟩
    · exact ⟨"all".toList, by decide, stripStart_eq_some.mp h⟩
    · exact ⟨"any".toList, by decide, stripStart_eq_some.mp h⟩
  obtain ⟨gap, hgap, hsplit⟩ := trimStart_split rest
  obtain ⟨lead, hlead, hoperand⟩ := trimStart_split operand
  obtain ⟨trail, htrail, htail⟩ := trimEnd_split (trimStart operand)
  have hin := stripStart_eq_some.mp hinside
  have hout := stripEnd_eq_some.mp hargs
  have hall : operand = lead ++ name ++ gap ++ ['('] ++ args' ++ [')'] ++ trail := by
    rw [hoperand, htail, ← trim, htrimmed, hsplit, hin, hout]
    simp [List.append_assoc]
  refine ⟨lead ++ name ++ gap ++ ['('], trail, ?_, hout, ?_, ?_⟩
  · have hparen : textDelta ['('] = 1 := by decide
    simp only [textDelta_append, hlead.textDelta, hname, hgap.textDelta, hparen]
    decide
  · rw [hall, trimEnd_append (by decide) htrail, hout]
    simp [List.append_assoc]
  · rw [hall]
    simp [List.append_assoc]

/-- What the naive reading makes of an operand that is not `test`: the argument list to
descend into, if any. -/
def argsOf (operand : List Char) : Option (List Char) :=
  if isNot (trim operand) then none else (combinatorArgs (trim operand)).map Prod.snd

def isTest (operand : List Char) : Bool := trim operand = "test".toList

theorem length_lt_of_argsOf {operand args : List Char} (h : argsOf operand = some args) :
    args.length < operand.length := by
  unfold argsOf at h
  split at h
  · cases h
  · obtain ⟨⟨inside, args'⟩, hargs, rfl⟩ := Option.map_eq_some_iff.mp h
    exact (length_lt_of_combinatorArgs hargs).trans_le (length_trim_le operand)

theorem naiveMarksTest_eq (region : List Char) :
    naiveMarksTest region = (splitTop 0 region).any fun operand =>
      isTest operand || (argsOf operand).any naiveMarksTest := by
  have hread : ∀ operand : List Char, (isTest operand || (argsOf operand).any naiveMarksTest) =
      if trim operand = "test".toList then true
      else if isNot (trim operand) then false
      else (combinatorArgs (trim operand)).elim false fun p => naiveMarksTest p.2 := by
    intro operand
    unfold isTest argsOf
    by_cases htest : trim operand = "test".toList
    · rw [if_pos htest, decide_eq_true htest, Bool.true_or]
    · rw [if_neg htest, decide_eq_false htest, Bool.false_or]
      by_cases hnot : isNot (trim operand) = true
      · rw [if_pos hnot, if_pos hnot]
        rfl
      · rw [if_neg hnot, if_neg hnot]
        cases combinatorArgs (trim operand) <;> rfl
  simp only [hread]
  rw [naiveMarksTest]
  conv_rhs => rw [← List.attach_map_subtype_val (splitTop 0 region), List.any_map]
  congr 1
  funext ⟨operand, hmem⟩
  simp only [Function.comp_apply]
  split
  · rfl
  · split
    · rfl
    · split <;> simp [*]

/-- The range of a text, at its nesting depth. -/
def Denotes (pred : List Char) (frame : Region × ℕ) (region : List Char) : Prop :=
  ∃ a b, pred = a ++ region ++ b ∧ frame.1 = ⟨byteLen a, byteLen a + byteLen region⟩ ∧
    textDelta a = frame.2

/-- A slice of the predicate is classified as its text is read. -/
theorem classifyCfgOperand_spec {pred a operand b : List Char} (hpred : pred = a ++ operand ++ b)
    {depth : ℕ} (hdepth : textDelta a = depth) {stop : ℕ}
    (hstop : stop = byteLen a + byteLen operand) :
    ∃ result, classifyCfgOperand pred ⟨byteLen a, stop⟩ = some result ∧
      (isTest operand = true → result = .test) ∧
      (isTest operand = false → argsOf operand = none → result = .opaqueOperand) ∧
      (isTest operand = false → ∀ args, argsOf operand = some args →
        ∃ region, result = .args region ∧ Denotes pred (region, depth + 1) args) := by
  have hslice : sliceBytes pred (byteLen a) stop = some operand := by
    rw [hpred]
    exact sliceBytes_append a operand b hstop
  by_cases htest : trim operand = "test".toList
  · refine ⟨.test, ?_, fun _ => rfl, ?_, ?_⟩
    · simp only [classifyCfgOperand, hslice, Option.bind_eq_bind, Option.bind_some, if_pos htest]
      rfl
    · simp [isTest, htest]
    · simp [isTest, htest]
  by_cases hnot : isNot (trim operand) = true
  · refine ⟨.opaqueOperand, ?_, ?_, fun _ _ => rfl, ?_⟩
    · simp only [classifyCfgOperand, hslice, Option.bind_eq_bind, Option.bind_some,
        if_neg htest, if_pos hnot]
      rfl
    · exact fun h => absurd (of_decide_eq_true h) htest
    · simp [argsOf, hnot]
  cases hargs : combinatorArgs (trim operand) with
  | none =>
    refine ⟨.opaqueOperand, ?_, ?_, fun _ _ => rfl, ?_⟩
    · simp only [classifyCfgOperand, hslice, Option.bind_eq_bind, Option.bind_some,
        if_neg htest, if_neg hnot, hargs]
      rfl
    · exact fun h => absurd (of_decide_eq_true h) htest
    · simp [argsOf, hargs]
  | some p =>
    obtain ⟨inside, args⟩ := p
    obtain ⟨before, trail, hbefore, hinside, hend, hoperand⟩ := combinatorArgs_split hargs
    have hstart : byteLen a + byteLen (trimEnd operand) - byteLen inside =
        byteLen a + byteLen before := by
      rw [hend, byteLen_append]
      omega
    have hle : byteLen inside ≤ byteLen a + byteLen (trimEnd operand) := by
      rw [hend, byteLen_append]
      omega
    refine ⟨.args ⟨byteLen a + byteLen before, byteLen a + byteLen before + byteLen args⟩, ?_, ?_,
      ?_, ?_⟩
    · simp only [classifyCfgOperand, hslice, Option.bind_eq_bind, Option.bind_some,
        if_neg htest, if_neg hnot, hargs, if_pos hle, hstart]
      rfl
    · exact fun h => absurd (of_decide_eq_true h) htest
    · simp [argsOf, hnot, hargs]
    · intro _ args' hargs'
      obtain rfl : args = args' := by simpa [argsOf, hnot, hargs] using hargs'
      refine ⟨_, rfl, a ++ before, ')' :: trail ++ b, ?_, ?_, ?_⟩
      · rw [hpred, hoperand]
        simp [List.append_assoc]
      · rw [byteLen_append]
      · rw [textDelta_append, hdepth, hbefore]
        omega

/-! ### The walk -/

/-- The operand being read and the rest of its region, cut at the region's commas. -/
theorem splitTop_append_of_top (text : List Char) (depth : ℤ) :
    ∃ first rest, splitTop depth text = first :: rest := by
  induction text generalizing depth with
  | nil => exact ⟨[], [], rfl⟩
  | cons c text ih =>
    rw [splitTop]
    split
    · exact ⟨[], _, rfl⟩
    · obtain ⟨first, rest, h⟩ := ih (depth + charDelta c)
      rw [h]
      exact ⟨c :: first, rest, rfl⟩

/-- The operands of a region of which `read` has been read since its last comma. -/
def operandsFrom (read : List Char) (text : List Char) : List (List Char) :=
  match splitTop (textDelta read) text with
  | first :: rest => (read ++ first) :: rest
  | [] => [read]

theorem operandsFrom_comma {read : List Char} (h : textDelta read = 0) (text : List Char) :
    operandsFrom read (',' :: text) = read :: operandsFrom [] text := by
  obtain ⟨first, rest, hsplit⟩ := splitTop_append_of_top text 0
  simp [operandsFrom, splitTop, h, hsplit]

theorem operandsFrom_cons {read : List Char} {c : Char} (h : ¬(c = ',' ∧ textDelta read = 0))
    (text : List Char) : operandsFrom read (c :: text) = operandsFrom (read ++ [c]) text := by
  obtain ⟨first, rest, hsplit⟩ := splitTop_append_of_top text (textDelta read + charDelta c)
  simp [operandsFrom, splitTop, h, hsplit]

/-- The stack holds the ranges of these texts. -/
def Frames (pred : List Char) (stack : List (Region × ℕ)) (texts : List (List Char)) : Prop :=
  List.Forall₂ (Denotes pred) stack texts

/-- One turn of the operand loop: it stops at `test`, or it pushes the argument list. -/
theorem walkOperands_cons {pred a operand b : List Char} (hpred : pred = a ++ operand ++ b)
    {depth : ℕ} (hdepth : textDelta a = depth) {stack : List (Region × ℕ)}
    {texts : List (List Char)} (hstack : Frames pred stack texts) {stop : ℕ}
    (hstop : stop = byteLen a + byteLen operand) (boundaries : List ℕ) :
    (isTest operand = true →
      walkOperands pred depth (stop :: boundaries) (byteLen a) stack = some none) ∧
    (isTest operand = false → ∃ stack', Frames pred stack' ((argsOf operand).toList ++ texts) ∧
      walkOperands pred depth (stop :: boundaries) (byteLen a) stack =
        walkOperands pred depth boundaries (stop + 1) stack') := by
  obtain ⟨result, hclass, htest, hdead, hargs⟩ := classifyCfgOperand_spec hpred hdepth hstop
  constructor
  · intro h
    rw [walkOperands, hclass, htest h]
    rfl
  · intro h
    cases hread : argsOf operand with
    | none =>
      refine ⟨stack, hstack, ?_⟩
      rw [walkOperands, hclass, hdead h hread]
      rfl
    | some args =>
      obtain ⟨region, hresult, hregion⟩ := hargs h args hread
      refine ⟨(region, depth + 1) :: stack, .cons hregion hstack, ?_⟩
      rw [walkOperands, hclass, hresult]
      rfl

/-- The loop over a region, from inside an operand of which `read` has been read. -/
theorem walkOperands_spec {pred : List Char} {depth : ℕ} (text : List Char)
    {a read b : List Char} {stack : List (Region × ℕ)} {texts : List (List Char)}
    (hpred : pred = a ++ read ++ text ++ b) (hdepth : textDelta a = depth)
    (hstack : Frames pred stack texts) :
    let boundaries := topOffsets (textDelta read) (byteLen a + byteLen read) text ++
      [byteLen a + byteLen read + byteLen text]
    ((operandsFrom read text).any isTest = true →
      walkOperands pred depth boundaries (byteLen a) stack = some none) ∧
    ((operandsFrom read text).any isTest = false → ∃ stack',
      walkOperands pred depth boundaries (byteLen a) stack = some (some stack') ∧
      Frames pred stack' (((operandsFrom read text).filterMap argsOf).reverse ++ texts)) := by
  induction text generalizing a read stack texts with
  | nil =>
    have hpred' : pred = a ++ read ++ b := by simpa using hpred
    have hlast := walkOperands_cons hpred' hdepth hstack rfl []
    simp only [topOffsets, List.nil_append, byteLen_nil, add_zero, operandsFrom, splitTop,
      List.append_nil, List.any_cons, List.any_nil, Bool.or_false]
    refine ⟨hlast.1, fun h => ?_⟩
    obtain ⟨stack', hframes, hwalk⟩ := hlast.2 h
    refine ⟨stack', hwalk, ?_⟩
    cases hread : argsOf read <;> simpa [hread] using hframes
  | cons c text ih =>
    by_cases hcomma : c = ',' ∧ textDelta read = 0
    · -- the operand ends here and the next one starts behind the comma
      obtain ⟨rfl, hzero⟩ := hcomma
      have hpred' : pred = a ++ read ++ (',' :: text ++ b) := by simpa using hpred
      have hpred₁ : pred = (a ++ read ++ [',']) ++ [] ++ text ++ b := by simpa using hpred
      have hdepth₁ : textDelta (a ++ read ++ [',']) = depth := by
        have hparen : textDelta [','] = 0 := by decide
        rw [textDelta_append, textDelta_append, hdepth, hzero, hparen]
        omega
      have hsize : (',' : Char).utf8Size = 1 := by decide
      have hnext : byteLen a + byteLen read + 1 = byteLen (a ++ read ++ [',']) := by
        simp [hsize, Nat.add_assoc]
      have hend : byteLen a + byteLen read + byteLen (',' :: text) =
          byteLen (a ++ read ++ [',']) + byteLen text := by
        simp [hsize, Nat.add_assoc]
      set after := topOffsets 0 (byteLen (a ++ read ++ [','])) text ++
        [byteLen (a ++ read ++ [',']) + byteLen text] with hafter
      have hstep := walkOperands_cons hpred' hdepth hstack rfl after
      have htail : ∀ {stack₁ texts₁}, Frames pred stack₁ texts₁ → _ := fun hframes =>
        ih hpred₁ hdepth₁ hframes
      simp only [textDelta_nil, byteLen_nil, add_zero, ← hafter] at htail
      rw [topOffsets, if_pos ⟨rfl, hzero⟩, hend, hzero, List.cons_append,
        operandsFrom_comma hzero, List.any_cons, hnext, ← hafter]
      refine ⟨fun h => ?_, fun h => ?_⟩
      · by_cases htest : isTest read = true
        · exact hstep.1 htest
        · obtain ⟨stack₁, hframes, hwalk⟩ := hstep.2 (by simpa using htest)
          rw [hwalk, hnext]
          exact (htail hframes).1 (by simpa [htest] using h)
      · rw [Bool.or_eq_false_iff] at h
        obtain ⟨stack₁, hframes, hwalk⟩ := hstep.2 h.1
        obtain ⟨stack', hloop, hframes'⟩ := (htail hframes).2 h.2
        refine ⟨stack', by rw [hwalk, hnext, hloop], ?_⟩
        cases hread : argsOf read with
        | none => simpa [hread] using hframes'
        | some args => simpa [hread] using hframes'
    · have hpred' : pred = a ++ (read ++ [c]) ++ text ++ b := by simpa using hpred
      have hdelta : textDelta (read ++ [c]) = textDelta read + charDelta c := by simp
      have hlen : byteLen a + byteLen (read ++ [c]) = byteLen a + byteLen read + c.utf8Size := by
        simp [Nat.add_assoc]
      have hend : byteLen a + byteLen read + byteLen (c :: text) =
          byteLen a + byteLen read + c.utf8Size + byteLen text := by
        simp [Nat.add_assoc]
      rw [operandsFrom_cons hcomma, topOffsets, if_neg hcomma, hend, ← hlen, ← hdelta]
      exact ih hpred' hdepth hstack

/-- The characters still to be walked, and one for each region. -/
def weight : List (List Char) → ℕ
  | [] => 0
  | text :: texts => text.length + 1 + weight texts

theorem weight_append (a b : List (List Char)) : weight (a ++ b) = weight a + weight b := by
  induction a with
  | nil => simp [weight]
  | cons t a ih =>
    rw [List.cons_append, weight, weight, ih]
    omega

theorem weight_reverse (a : List (List Char)) : weight a.reverse = weight a := by
  induction a with
  | nil => rfl
  | cons t a ih =>
    rw [List.reverse_cons, weight_append, ih, weight, weight, weight]
    omega

theorem weight_splitTop (depth : ℤ) (text : List Char) :
    weight (splitTop depth text) = text.length + 1 := by
  induction text generalizing depth with
  | nil => rfl
  | cons c text ih =>
    rw [splitTop]
    split
    · rw [weight, ih, List.length_nil, List.length_cons]
      omega
    · obtain ⟨first, rest, hsplit⟩ := splitTop_append_of_top text (depth + charDelta c)
      have hweight := ih (depth + charDelta c)
      rw [hsplit, weight] at hweight
      rw [hsplit]
      simp only [weight, List.length_cons]
      omega

/-- The argument lists of a region weigh less than the region. -/
theorem weight_filterMap_argsOf (operands : List (List Char)) :
    weight (operands.filterMap argsOf) + operands.length ≤ weight operands := by
  induction operands with
  | nil => exact Nat.le_refl 0
  | cons operand operands ih =>
    rw [List.filterMap_cons, List.length_cons, weight]
    cases hread : argsOf operand with
    | none =>
      simp only
      omega
    | some args =>
      have hlt := length_lt_of_argsOf hread
      simp only [weight]
      omega

theorem any_naive_eq (operands : List (List Char)) :
    (operands.any fun operand => isTest operand || (argsOf operand).any naiveMarksTest) =
      (operands.any isTest || (operands.filterMap argsOf).any naiveMarksTest) := by
  induction operands with
  | nil => rfl
  | cons operand operands ih =>
    rw [List.any_cons, ih, List.any_cons, List.filterMap_cons]
    cases argsOf operand with
    | none => simp [Bool.or_assoc]
    | some args =>
      simp only [Option.any_some, List.any_cons]
      cases isTest operand <;> cases naiveMarksTest args <;> simp

theorem walkRegions_spec {pred : List Char} {fuel : ℕ} {stack : List (Region × ℕ)}
    {texts : List (List Char)} (hstack : Frames pred stack texts) (hfuel : weight texts ≤ fuel) :
    walkRegions pred (CommaIndex.build pred) fuel stack = some (texts.any naiveMarksTest) := by
  induction fuel generalizing stack texts with
  | zero =>
    cases hstack with
    | nil => rfl
    | cons _ _ =>
      rw [weight] at hfuel
      omega
  | succ fuel ih =>
    cases hstack with
    | nil => rfl
    | @cons frame region stack texts hframe hstack =>
      obtain ⟨range, depth⟩ := frame
      obtain ⟨a, b, hpred, hrange, hdepth⟩ := hframe
      simp only at hrange hdepth
      have hsplits : (CommaIndex.build pred).splits range depth =
          topOffsets 0 (byteLen a) region := by
        rw [hpred, hrange]
        exact splits_eq a region b hdepth
      have hpred' : pred = a ++ [] ++ region ++ b := by simpa using hpred
      have hwalk := walkOperands_spec region hpred' hdepth hstack
      have hoperands : operandsFrom [] region = splitTop 0 region := by
        obtain ⟨first, rest, hsplit⟩ := splitTop_append_of_top region 0
        simp [operandsFrom, hsplit]
      simp only [textDelta_nil, byteLen_nil, add_zero, hoperands] at hwalk
      rw [weight] at hfuel
      rw [List.any_cons, naiveMarksTest_eq, any_naive_eq, walkRegions, hsplits, hrange]
      by_cases htest : (splitTop 0 region).any isTest = true
      · rw [hwalk.1 htest, htest]
        rfl
      · have hfalse : (splitTop 0 region).any isTest = false := by simpa using htest
        obtain ⟨stack', hloop, hframes⟩ := hwalk.2 hfalse
        have hweight := weight_filterMap_argsOf (splitTop 0 region)
        obtain ⟨first, rest, hsplit⟩ := splitTop_append_of_top region 0
        have hpos : 0 < (splitTop 0 region).length := by
          rw [hsplit]
          exact Nat.succ_pos _
        rw [weight_splitTop] at hweight
        have hless : weight (((splitTop 0 region).filterMap argsOf).reverse ++ texts) ≤ fuel := by
          rw [weight_append, weight_reverse]
          omega
        rw [hloop, hfalse, Bool.false_or]
        refine (ih hframes hless).trans ?_
        rw [List.any_append, List.any_reverse]

/-- The walk stays in range, cuts no character and ends with the naive answer. -/
theorem cfgPredicateMarksTest_eq (pred : List Char) :
    cfgPredicateMarksTest pred = some (naiveMarksTest pred) := by
  have hframe : Denotes pred (⟨0, byteLen pred⟩, 0) pred :=
    ⟨[], [], by simp, by simp, rfl⟩
  have hlen := length_le_byteLen pred
  have hwalk := walkRegions_spec (.cons hframe .nil)
    (show weight [pred] ≤ byteLen pred + 1 by simp only [weight]; omega)
  rw [cfgPredicateMarksTest, hwalk, List.any_cons, List.any_nil, Bool.or_false]

end BigCodeAnalysis.Languages.CfgPredicate
