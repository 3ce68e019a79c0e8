import BigCodeAnalysis.Languages.CMacroLiterals

/-! What the scanner writes for each lexical element: an identifier that names a macro is
overwritten, and so are the letters of a number that name one. -/

namespace BigCodeAnalysis.Languages.CMacro

open Sequences (slice)

variable {macros : Finset String}

/-! ### Bytes of a run -/

theorem ne_of_isIdentifierPart {c d : UInt8} (h : isIdentifierPart c = true)
    (hd : isIdentifierPart d = false) : c ≠ d := by
  rintro rfl
  rw [h] at hd
  cases hd

theorem isIdentifierPart_of_starter {c : UInt8} (h : isIdentifierStarter c = true) :
    isIdentifierPart c = true := by
  unfold isIdentifierStarter at h
  unfold isIdentifierPart
  grind

theorem isAsciiDigit_of_starter {c : UInt8} (h : isIdentifierStarter c = true) :
    isAsciiDigit c = false := by
  unfold isIdentifierStarter isAsciiLetter underscore at h
  unfold isAsciiDigit
  simp [UInt8.le_iff_toNat_le, ← UInt8.toNat_inj] at h ⊢
  omega

theorem lt_of_isIdentifierPart {c : UInt8} (h : isIdentifierPart c = true) : c.toNat < 128 := by
  unfold isIdentifierPart isAsciiLetter isAsciiDigit underscore at h
  simp [UInt8.le_iff_toNat_le, ← UInt8.toNat_inj] at h
  omega

theorem toNat_ofNat {n : ℕ} (h : n < 128) : (Char.ofNat n).toNat = n := by
  have hvalid : n.isValidChar := Or.inl (by omega)
  rw [Char.ofNat, dif_pos hvalid]
  rfl

/-- A run is ASCII, so it has a name. -/
theorem fromUtf8_ascii {run : Bytes} (h : ∀ b ∈ run, b.toNat < 128) :
    fromUtf8 run = some (nameOf run) := by
  have hchars : (run.map fun b => Char.ofNat b.toNat).flatMap String.utf8EncodeChar = run := by
    induction run with
    | nil => rfl
    | cons b run ih =>
      have hb := h b List.mem_cons_self
      have hchar : (Char.ofNat b.toNat).toNat = b.toNat :=
        toNat_ofNat hb
      rw [List.map_cons, List.flatMap_cons, Sequences.utf8EncodeChar_of_lt (by omega), hchar,
        UInt8.ofNat_toNat, ih fun b' hb' => h b' (List.mem_cons_of_mem _ hb')]
      rfl
  have hbytes : (nameOf run).toByteArray = ByteArray.mk run.toArray := by
    apply ByteArray.ext
    rw [nameOf, String.toByteArray_ofList, List.utf8Encode, hchars, List.data_toByteArray]
  rw [fromUtf8, ← hbytes, String.fromUTF8?, dif_pos (nameOf run).isValidUTF8]
  rfl

/-- The scanner masks the run. -/
def hit (macros : Finset String) (run : Bytes) : Bool := run ≠ [] && isMacro macros (nameOf run)

/-- A run as the scanner writes it. -/
def maskedRun (macros : Finset String) (run : Bytes) : Bytes :=
  if hit macros run then List.replicate run.length dollar else run

theorem hit_nil : hit macros [] = false := rfl

theorem maskedRun_nil : maskedRun macros [] = [] := rfl

/-! ### The output so far -/

/-- `out` stands for the text up to `i`; something in it is masked when `touched`. -/
structure Written (code : Bytes) (i : ℕ) (out : Bytes) (touched : Bool) (mask : MaskState) :
    Prop where
  le : mask.codeStart ≤ i
  out_eq : mask.newCode ++ (code.take i).drop mask.codeStart = out
  touched_eq : touched = decide (mask.codeStart ≠ 0)

theorem Written.set {code out : Bytes} {i : ℕ} {touched : Bool} {mask : MaskState}
    (h : Written code i out touched mask) (kStart : ℕ) (inNumber : Bool) :
    Written code i out touched { mask with kStart, inNumber } := ⟨h.le, h.out_eq, h.touched_eq⟩

theorem At.take_append {code xs ys : Bytes} {i : ℕ} (h : At code i (xs ++ ys)) :
    code.take (i + xs.length) = code.take i ++ xs := by
  rw [List.take_add, h.drop_eq, List.take_left]

theorem Written.append {code out xs ys : Bytes} {i : ℕ} {touched : Bool} {mask : MaskState}
    (h : Written code i out touched mask) (hat : At code i (xs ++ ys)) :
    Written code (i + xs.length) (out ++ xs) touched mask := by
  refine ⟨Nat.le_add_right_of_le h.le, ?_, h.touched_eq⟩
  have hlen : (code.take i).length = i := List.length_take_of_le hat.le
  rw [hat.take_append, List.drop_append_of_le_length (by rw [hlen]; exact h.le), ← List.append_assoc,
    h.out_eq]

theorem Written.push {code out rest : Bytes} {c : UInt8} {i : ℕ} {touched : Bool}
    {mask : MaskState} (h : Written code i out touched mask) (hat : At code i (c :: rest)) :
    Written code (i + 1) (out ++ [c]) touched mask := by
  have hsplit : At code i ([c] ++ rest) := hat
  exact h.append hsplit

theorem maskRun_eq {code out run rest : Bytes} {i : ℕ} {touched : Bool} {mask : MaskState}
    (h : Written code i out touched mask) (hat : At code i (run ++ rest)) (hrun : run ≠ []) :
    ∃ mask', maskRun code mask i (i + run.length) = some mask' ∧
      Written code (i + run.length) (out ++ List.replicate run.length dollar) true mask' ∧
      mask'.kStart = mask.kStart ∧ mask'.inNumber = mask.inNumber := by
  have hslice := Sequences.slice_eq_some h.le hat.le
  have hpos := List.length_pos_iff_ne_nil.mpr hrun
  have hlen : (code.take (i + run.length)).length ≤ i + run.length := List.length_take_le _ _
  refine ⟨{ mask with
    newCode := mask.newCode ++ (code.take i).drop mask.codeStart ++
      List.replicate run.length dollar
    codeStart := i + run.length }, ?_, ⟨le_rfl, ?_, ?_⟩, rfl, rfl⟩
  · unfold maskRun
    rw [hslice, Nat.add_sub_cancel_left]
    rfl
  · dsimp only
    rw [List.drop_eq_nil_of_le hlen, h.out_eq, List.append_nil]
  · symm
    simp only [decide_eq_true_eq]
    omega

/-- `out` stands for the text up to `i` and a run starts there, `[]` where there is none. -/
structure Pending (code : Bytes) (i : ℕ) (run out : Bytes) (touched : Bool) (mask : MaskState) :
    Prop where
  written : Written code i out touched mask
  kStart_eq : mask.kStart = if run = [] then 0 else i + 1
  ascii : ∀ b ∈ run, b.toNat < 128

theorem finish_written (macros : Finset String) (state : LexState) {code out : Bytes}
    {touched : Bool} {mask : MaskState} (h : Written code code.length out touched mask) (hk : mask.kStart = 0) :
    finish macros code mask state = some (if touched then some out else none) := by
  have hslice := Sequences.slice_eq_some h.le le_rfl
  rw [List.take_length] at hslice
  have hout := h.out_eq
  rw [List.take_length] at hout
  unfold finish
  by_cases hstart : mask.codeStart = 0
  · simp [hk, hstart, h.touched_eq]
  · simp [hk, hstart, h.touched_eq, hslice, hout]

/-! ### The end of a run -/

theorem At.openNext_eq {code rest : Bytes} {c : UInt8} {i : ℕ} (h : At code i (c :: rest))
    (mask : MaskState) :
    openNext code i c mask =
      some (if c = slash ∧ rest.head? = some slash then (2, mask, .lineComment)
        else if c = slash ∧ rest.head? = some star then (2, mask, .blockComment)
        else if c = quote then (1, mask, .string)
        else if c = apostrophe then (1, mask, .char)
        else if mask.kStart = 0 ∧ isIdentifierStarter c = true then
          (1, { mask with kStart := i + 1 }, .normal)
        else (1, mask, .normal)) := by
  have hlt := h.next_lt
  have hnext := h.next
  unfold openNext
  rw [hnext]
  cases rest with
  | nil =>
    simp [hlt]
    grind
  | cons d rest =>
    by_cases hc : c = slash
    · simp [hlt, hc]
      grind
    · simp [hc]
      grind

/-- A byte that ends no run opens what it opens. -/
theorem At.stepNormal_next {code rest : Bytes} {c : UInt8} {j : ℕ} (h : At code j (c :: rest))
    {mask : MaskState} {inNumber : Bool}
    (htrack : trackNumericRun code j mask.kStart mask.inNumber = some (false, inNumber))
    (hrun : mask.kStart = 0 ∨ isIdentifierPart c = true) :
    stepNormal macros code j mask = openNext code j c { mask with inNumber } := by
  unfold stepNormal
  rw [h.getElem?, htrack]
  rcases hrun with hrun | hrun <;> simp [hrun]

/-- Outside a number the numeric flag tells whether a number starts here. -/
theorem At.trackNumericRun_idle {code rest : Bytes} {c : UInt8} {i : ℕ} (h : At code i (c :: rest))
    (kStart : ℕ) :
    trackNumericRun code i kStart false = some (false, kStart = 0 && isAsciiDigit c) := by
  unfold trackNumericRun isDigitSeparator
  rw [h.getElem?]
  by_cases hc : c = apostrophe <;> simp [hc]

/-- In a number it tells whether the number goes on. -/
theorem At.trackNumericRun_number {code rest : Bytes} {before c : UInt8} {i : ℕ}
    (h : At code (i + 1) (c :: rest)) (hbefore : code[i]? = some before) (kStart : ℕ)
    {inNumber : Bool} (hnumber : inNumber = true) :
    trackNumericRun code (i + 1) kStart inNumber =
      some (if c = apostrophe ∧ isAsciiHexdigit before = true ∧
          rest.head?.any isAsciiHexdigit = true then (true, true)
        else (false, isIdentifierPart c || c = period)) := by
  have hlt := h.next_lt
  have hnext := h.next
  subst hnumber
  unfold trackNumericRun isDigitSeparator
  rw [h.getElem?, Nat.add_sub_cancel, hbefore, hnext]
  by_cases hc : c = apostrophe
  · cases hb : isAsciiHexdigit before
    · simp [hc, hb]
    · cases rest with
      | nil => simp [hc, hlt]
      | cons d rest => cases hd : isAsciiHexdigit d <;> simp [hc, hb, hlt, hd]
  · simp [hc]

/-- A byte that ends the run is read as without the run. -/
theorem Pending.stepNormal_close {code run rest out : Bytes} {c : UInt8} {i : ℕ}
    {touched inNumber : Bool} {mask : MaskState} (h : Pending code i run out touched mask)
    (hat : At code i (run ++ c :: rest))
    (htrack : trackNumericRun code (i + run.length) mask.kStart mask.inNumber =
      some (false, inNumber))
    (hc : isIdentifierPart c = false) (hraw : ¬ (isRawStringPrefix run = true ∧ c = quote)) :
    ∃ mask', Pending code (i + run.length) [] (out ++ maskedRun macros run)
        (touched || hit macros run) mask' ∧ mask'.inNumber = inNumber ∧
      stepNormal macros code (i + run.length) mask = openNext code (i + run.length) c mask' := by
  have hget := hat.append.getElem?
  have hk := h.kStart_eq
  by_cases hrun : run = []
  · subst hrun
    rw [if_pos rfl] at hk
    have hwritten := h.written.set mask.kStart inNumber
    refine ⟨{ mask with inNumber }, ⟨?_, by simpa using hk, by simp⟩, rfl, ?_⟩
    · simpa only [hit_nil, maskedRun_nil, List.append_nil, Bool.or_false, List.length_nil,
        Nat.add_zero] using hwritten
    · exact hat.append.stepNormal_next htrack (.inl hk)
  · rw [if_neg hrun] at hk
    have hword := h.written.append hat
    have hutf8 := fromUtf8_ascii h.ascii
    have hclear := h.written.set 0 inNumber
    have hnot : ¬ (c = quote ∧ isRawStringPrefix run = true) := fun hboth => hraw hboth.symm
    cases hmacro : isMacro macros (nameOf run) with
    | false =>
      have hhit : hit macros run = false := by simp [hit, hmacro]
      refine ⟨{ mask with kStart := 0, inNumber := inNumber }, ⟨?_, rfl, by simp⟩, rfl, ?_⟩
      · simpa [maskedRun, hhit] using hword.set 0 inNumber
      · unfold stepNormal
        rw [hget, htrack]
        simp [hk, hc, hat.slice, hutf8, hnot, hmacro]
    | true =>
      have hhit : hit macros run = true := by simp [hit, hmacro, hrun]
      obtain ⟨mask', hmask, hwritten, hk', hnumber⟩ := maskRun_eq hclear hat hrun
      refine ⟨mask', ⟨?_, by simpa using hk', by simp⟩, by simpa using hnumber, ?_⟩
      · simpa [maskedRun, hhit] using hwritten
      · unfold stepNormal
        rw [hget, htrack]
        simp [hk, hc, hat.slice, hutf8, hnot, hmacro, hmask]

theorem Pending.stepNormal_raw (macros : Finset String) {code run rest out : Bytes} {i : ℕ}
    {touched inNumber : Bool} {mask : MaskState} (h : Pending code i run out touched mask)
    (hat : At code i (run ++ quote :: rest))
    (htrack : trackNumericRun code (i + run.length) mask.kStart mask.inNumber =
      some (false, inNumber)) (hraw : isRawStringPrefix run = true) :
    ∃ mask', Pending code (i + run.length) [] (out ++ run) touched mask' ∧
      mask'.inNumber = inNumber ∧
      step macros code (i + run.length) mask .normal =
        (enterRawString code (i + run.length)).map fun next => (next.1, mask', next.2) := by
  have hget := hat.append.getElem?
  have hk := h.kStart_eq
  have hrun : run ≠ [] := by
    rintro rfl
    exact absurd hraw (by decide)
  rw [if_neg hrun] at hk
  have hquote : isIdentifierPart quote = false := by decide
  refine ⟨{ mask with kStart := 0, inNumber := inNumber },
    ⟨(h.written.append hat).set 0 inNumber, rfl, by simp⟩, rfl, ?_⟩
  unfold step stepNormal
  rw [hget, htrack]
  cases enterRawString code (i + run.length) <;>
    simp [hk, hquote, hat.slice, fromUtf8_ascii h.ascii, hraw]

theorem Pending.finish_close {code run out : Bytes} {i : ℕ} {touched : Bool} {mask : MaskState}
    (h : Pending code i run out touched mask) (hat : At code i run) :
    finish macros code mask .normal =
      some (if touched || hit macros run then some (out ++ maskedRun macros run) else none) := by
  have hk := h.kStart_eq
  have hat' : At code i (run ++ []) := by rwa [List.append_nil]
  have hend := hat'.append.eq_length
  by_cases hrun : run = []
  · subst hrun
    rw [if_pos rfl] at hk
    have hwritten := h.written
    rw [show i = code.length from hend] at hwritten
    rw [finish_written macros .normal hwritten hk]
    simp [hit_nil, maskedRun_nil]
  · rw [if_neg hrun] at hk
    have hslice := hat'.slice
    rw [hend] at hslice
    have hutf8 := fromUtf8_ascii h.ascii
    cases hmacro : isMacro macros (nameOf run) with
    | false =>
      have hhit : hit macros run = false := by simp [hit, hmacro]
      have hword := h.written.append hat'
      rw [hend] at hword
      have hfinish := finish_written macros .normal
        (hword.set 0 mask.inNumber) rfl
      rw [maskedRun, hhit, Bool.or_false, if_neg Bool.false_ne_true, ← hfinish]
      unfold finish
      simp [hk, hslice, hutf8, hmacro]
    | true =>
      have hhit : hit macros run = true := by simp [hit, hmacro, hrun]
      obtain ⟨mask', hmask, hwritten, -, -⟩ := maskRun_eq h.written hat' hrun
      rw [hend] at hmask hwritten
      have hfinish := finish_written macros .normal
        (hwritten.set 0 mask'.inNumber) rfl
      rw [maskedRun, hhit, Bool.or_true, if_pos rfl, if_pos rfl]
      rw [if_pos rfl] at hfinish
      rw [← hfinish]
      unfold finish
      simp [hk, hslice, hutf8, hmacro, hmask]

/-! ### Elements -/

/-- A number as the scanner writes it, without its last run. -/
def maskedNumber (macros : Finset String) (run : Bytes) : Bytes → Bytes
  | [] => []
  | c :: rest =>
    if c = period then maskedRun macros run ++ c :: maskedNumber macros [] rest
    else if run ≠ [] ∨ isIdentifierStarter c = true then maskedNumber macros (run ++ [c]) rest
    else c :: maskedNumber macros [] rest

/-- An element as the scanner writes it. -/
def Element.scanned (macros : Finset String) : Element → Bytes
  | .identifier word => maskedRun macros word
  | .rawPrefix word => word
  | .number bytes raw =>
    let last := (CMacro.numberRuns [] bytes).2
    maskedNumber macros [] bytes ++ if raw then last else maskedRun macros last
  | .inert bytes => bytes

/-- The scanner masks something in the element. -/
def Element.touched (macros : Finset String) : Element → Bool
  | .identifier word => hit macros word
  | e => e.numberRuns.any (hit macros)

@[simp] theorem Element.touched_inert (bytes : Bytes) :
    (Element.inert bytes).touched macros = false := rfl

@[simp] theorem Element.touched_rawPrefix (word : Bytes) :
    (Element.rawPrefix word).touched macros = false := rfl

theorem Element.touched_number (bytes : Bytes) (raw : Bool) : (number bytes raw).touched macros =
    (number bytes raw).numberRuns.any (hit macros) := rfl

/-- What the scanner returns with `out` written, before the elements `es`. -/
def answer (macros : Finset String) (out : Bytes) (touched : Bool) (es : List Element) :
    Option Bytes :=
  if touched || es.any (Element.touched macros) then
    some (out ++ es.flatMap (Element.scanned macros))
  else none

theorem answer_cons (out : Bytes) (touched : Bool) (e : Element) (es : List Element) :
    answer macros out touched (e :: es) =
      answer macros (out ++ e.scanned macros) (touched || e.touched macros) es := by
  simp [answer, Bool.or_assoc]

/-- From normal text at `j`, outside a number, the scanner goes through the elements. -/
def Scans (macros : Finset String) (code : Bytes) (j : ℕ) (rest : Bytes) : Prop :=
  ∀ out touched mask, Pending code j [] out touched mask → mask.inNumber = false →
    Result macros code j mask .normal (some (answer macros out touched (elements rest)))

theorem scans_nil {code : Bytes} {j : ℕ} (hat : At code j []) : Scans macros code j [] := by
  intro out touched mask h _
  have hend := hat.eq_length
  refine .of_finish hend.ge ?_
  rw [h.finish_close hat]
  simp [answer, elements, elementsFrom, hit_nil, maskedRun_nil]

theorem Pending.close {code run rest out : Bytes} {i : ℕ} {touched : Bool} {mask : MaskState}
    (h : Pending code i run out touched mask) (hat : At code i (run ++ rest))
    (hrest : ∀ c tail, rest = c :: tail → isIdentifierPart c = false ∧
      trackNumericRun code (i + run.length) mask.kStart mask.inNumber = some (false, false) ∧
      ¬ (isRawStringPrefix run = true ∧ c = quote))
    (hscans : Scans macros code (i + run.length) rest) :
    Result macros code (i + run.length) mask .normal
      (some (answer macros (out ++ maskedRun macros run) (touched || hit macros run)
        (elements rest))) := by
  cases rest with
  | nil =>
    rw [List.append_nil] at hat
    have hend := hat.length_eq
    refine .of_finish hend.ge ?_
    rw [h.finish_close hat]
    simp [answer, elements, elementsFrom]
  | cons c tail =>
    obtain ⟨hc, htrack, hraw⟩ := hrest c tail rfl
    obtain ⟨mask', hpend, hnumber, hstep⟩ := h.stepNormal_close hat htrack hc hraw
    refine .congr ?_ ?_ (hscans _ _ mask' hpend hnumber)
    · intro _
      have hidle : trackNumericRun code (i + run.length) mask'.kStart mask'.inNumber =
          some (false, false) := by
        have hdigit : isAsciiDigit c = false := by
          unfold isIdentifierPart at hc
          grind
        rw [hnumber, hat.append.trackNumericRun_idle, hdigit, Bool.and_false]
      have hclosed : stepNormal macros code (i + run.length) mask' = openNext code _ c _ :=
        hat.append.stepNormal_next hidle (.inl hpend.kStart_eq)
      rw [← hnumber] at hclosed
      exact hstep.trans hclosed.symm
    · intro hend
      have hlt := hat.append.lt
      omega

/-- The letters of a word do not change the scanner. -/
theorem Result.letters {code : Bytes} (mask : MaskState) (hk : mask.kStart ≠ 0)
    (hnumber : mask.inNumber = false) {r : Option (Option Bytes)} (rest : Bytes) :
    ∀ j, At code j rest →
      Result macros code (j + (rest.takeWhile isIdentifierPart).length) mask .normal r →
      Result macros code j mask .normal r := by
  induction rest with
  | nil =>
    intro j _ h
    exact h
  | cons c rest ih =>
    intro j hat h
    by_cases hc : isIdentifierPart c = true
    · rw [List.takeWhile_cons_of_pos hc] at h
      refine .of_step mask .normal hat.lt Nat.one_pos ?_
        (ih (j + 1) hat.tail (h.cast (by simp only [List.length_cons]; omega)))
      have hslash : c ≠ slash := ne_of_isIdentifierPart hc (by decide)
      have hquote : c ≠ quote := ne_of_isIdentifierPart hc (by decide)
      have hchar : c ≠ apostrophe := ne_of_isIdentifierPart hc (by decide)
      have htrack : trackNumericRun code j mask.kStart mask.inNumber =
          some (false, mask.inNumber) := by
        rw [hnumber, hat.trackNumericRun_idle, decide_eq_false hk, Bool.false_and]
      rw [step, hat.stepNormal_next htrack (.inr hc), hat.openNext_eq]
      simp [hk, hslash, hquote, hchar]
    · rw [List.takeWhile_cons_of_neg hc] at h
      exact h

/-- The scanner behind a number: its last run `last` is pending before `rest`. -/
structure Behind (code : Bytes) (j : ℕ) (last out : Bytes) (touched : Bool) (rest : Bytes)
    (mask : MaskState) : Prop where
  exists_start : ∃ i, i + last.length = j ∧ At code i (last ++ rest) ∧
    Pending code i last out touched mask
  inNumber_eq : mask.inNumber = true
  ends : ∀ c tail, rest = c :: tail → isIdentifierPart c = false ∧
    trackNumericRun code j mask.kStart mask.inNumber = some (false, false)

/-- From the end of a number the program returns `r`; `run` is pending before its `tail`. -/
def EndsWith (macros : Finset String) (code : Bytes) (r : Option (Option Bytes)) (j : ℕ)
    (run out : Bytes) (touched : Bool) (tail rest : Bytes) : Prop :=
  ∀ mask, Behind code (j + tail.length) (numberRuns run tail).2
    (out ++ maskedNumber macros run tail)
    (touched || (numberRuns run tail).1.any (hit macros)) rest mask →
    Result macros code (j + tail.length) mask .normal r

section EndsWith

variable {code run out tail rest : Bytes} {r : Option (Option Bytes)} {j : ℕ} {touched : Bool}

theorem EndsWith.point (h : EndsWith macros code r j run out touched (period :: tail) rest) :
    EndsWith macros code r (j + 1) [] (out ++ maskedRun macros run ++ [period])
      (touched || hit macros run) tail rest := by
  have hj : j + (period :: tail).length = j + 1 + tail.length := by
    rw [List.length_cons]
    omega
  intro mask hbehind
  unfold EndsWith at h
  rw [hj] at h
  refine h mask ?_
  simpa [numberRuns, maskedNumber, Bool.or_assoc] using hbehind

theorem EndsWith.extend {c : UInt8} (hc : c ≠ period)
    (hrun : run ≠ [] ∨ isIdentifierStarter c = true)
    (h : EndsWith macros code r j run out touched (c :: tail) rest) :
    EndsWith macros code r (j + 1) (run ++ [c]) out touched tail rest := by
  have hj : j + (c :: tail).length = j + 1 + tail.length := by
    rw [List.length_cons]
    omega
  intro mask hbehind
  unfold EndsWith at h
  rw [hj, numberRuns, if_neg hc, if_pos hrun, maskedNumber, if_neg hc, if_pos hrun] at h
  exact h mask hbehind

theorem EndsWith.skip {c : UInt8} (hc : c ≠ period)
    (hrun : ¬ (run ≠ [] ∨ isIdentifierStarter c = true))
    (h : EndsWith macros code r j run out touched (c :: tail) rest) :
    EndsWith macros code r (j + 1) [] (out ++ [c]) touched tail rest := by
  have hj : j + (c :: tail).length = j + 1 + tail.length := by
    rw [List.length_cons]
    omega
  intro mask hbehind
  unfold EndsWith at h
  rw [hj, numberRuns, if_neg hc, if_neg hrun, maskedNumber, if_neg hc, if_neg hrun,
    List.append_cons] at h
  exact h mask hbehind

end EndsWith

/-- The next byte of a number that is not a point. -/
def GoesOn (before c : UInt8) (rest : Bytes) : Prop :=
  isIdentifierPart c = true ∨ (c = apostrophe ∧ isAsciiHexdigit before = true ∧
    rest.head?.any isAsciiHexdigit = true)

theorem GoesOn.lt {before c : UInt8} {rest : Bytes} (h : GoesOn before c rest) :
    c.toNat < 128 := by
  rcases h with hpart | hsep
  · exact lt_of_isIdentifierPart hpart
  · rw [hsep.1]
    decide

theorem At.step_number (macros : Finset String) {code rest : Bytes} {before c : UInt8} {j : ℕ} {mask : MaskState}
    (h : At code (j + 1) (c :: rest)) (hbefore : code[j]? = some before)
    (hnumber : mask.inNumber = true) (hgoes : GoesOn before c rest) :
    step macros code (j + 1) mask .normal =
      some (1, if mask.kStart = 0 ∧ isIdentifierStarter c = true then
        { mask with kStart := j + 1 + 1 } else mask, .normal) := by
  have htrack := h.trackNumericRun_number hbefore mask.kStart hnumber
  have hmask : { mask with inNumber := true } = mask := by rw [← hnumber]
  by_cases hpart : isIdentifierPart c = true
  · have hslash : c ≠ slash := ne_of_isIdentifierPart hpart (by decide)
    have hquote : c ≠ quote := ne_of_isIdentifierPart hpart (by decide)
    have hchar : c ≠ apostrophe := ne_of_isIdentifierPart hpart (by decide)
    rw [if_neg fun h => hchar h.1, hpart, Bool.true_or] at htrack
    rw [step, h.stepNormal_next htrack (.inr hpart), h.openNext_eq, hmask]
    simp only [hslash, hquote, hchar, false_and, if_false]
    split_ifs <;> rfl
  · have hsep := hgoes.resolve_left hpart
    have hstarter := mt isIdentifierPart_of_starter hpart
    rw [if_pos hsep] at htrack
    rw [step, stepNormal, h.getElem?, htrack, if_neg fun h => hstarter h.2]
    simp [hmask]

theorem Result.numeric {code : Bytes} {r : Option (Option Bytes)} (rest : Bytes) :
    ∀ before run out touched mask i j, i + run.length = j + 1 → At code i (run ++ rest) →
      code[j]? = some before → Pending code i run out touched mask → mask.inNumber = true →
      EndsWith macros code r (j + 1) run out touched (numberTail before rest).1
        (numberTail before rest).2 →
      Result macros code (j + 1) mask .normal r := by
  induction rest with
  | nil =>
    intro before run out touched mask i j hj hat hbefore hpend hnumber hends
    refine hends mask ⟨⟨i, hj, hat, ?_⟩, hnumber, by simp [numberTail]⟩
    simpa [numberTail, numberRuns, maskedNumber] using hpend
  | cons c rest ih =>
    intro before run out touched mask i j hj hat hbefore hpend hnumber hends
    have hc := hat.append
    rw [hj] at hc
    have htrack := hc.trackNumericRun_number hbefore mask.kStart hnumber
    by_cases hperiod : c = period
    · subst hperiod
      have hsep : period ≠ apostrophe := by decide
      rw [numberTail, if_pos (by simp)] at hends
      rw [if_neg fun h => hsep h.1, decide_eq_true rfl, Bool.or_true, ← hj] at htrack
      obtain ⟨mask', hpend', hnumber', hstep⟩ := hpend.stepNormal_close hat htrack (by decide)
        fun h => absurd h.2 (by decide)
      have hk := hpend'.kStart_eq
      rw [hj] at hpend' hstep
      refine .of_step mask' .normal hc.lt Nat.one_pos ?_ ?_
      · rw [step, hstep, hc.openNext_eq, if_neg fun h => absurd h.1 (by decide),
          if_neg fun h => absurd h.1 (by decide), if_neg (by decide), if_neg (by decide),
          if_neg fun h => absurd h.2 (by decide)]
      · exact ih period [] _ _ mask' (j + 1 + 1) (j + 1) rfl hc.tail hc.getElem?
          ⟨hpend'.written.push hc, hk, by simp⟩ hnumber' hends.point
    by_cases hgoes : GoesOn before c rest
    · rw [numberTail, if_pos (by grind [GoesOn])] at hends
      have hstep := hc.step_number macros hbefore hnumber hgoes
      have hnext := hc.getElem?
      by_cases hext : run ≠ [] ∨ isIdentifierStarter c = true
      · have hword : At code i ((run ++ [c]) ++ rest) := by simpa using hat
        have hlen : i + (run ++ [c]).length = j + 1 + 1 := by
          rw [List.length_append, List.length_singleton]
          omega
        have hascii : ∀ b ∈ run ++ [c], b.toNat < 128 := by
          intro b hb
          rcases List.mem_append.mp hb with hb | hb
          · exact hpend.ascii b hb
          · rw [List.mem_singleton.mp hb]
            exact hgoes.lt
        have hk := hpend.kStart_eq
        refine .of_step _ _ hc.lt Nat.one_pos hstep
          (ih c (run ++ [c]) out touched _ i (j + 1) hlen hword hnext ⟨?_, ?_, hascii⟩ ?_
            (hends.extend hperiod hext))
        · split_ifs
          · exact hpend.written.set _ _
          · exact hpend.written
        · have hne : run ++ [c] ≠ [] := by simp
          rw [if_neg hne]
          by_cases hrun : run = []
          · rw [if_pos hrun] at hk
            rw [if_pos ⟨hk, hext.resolve_left (not_not.mpr hrun)⟩]
            simp only [hrun, List.length_nil, Nat.add_zero] at hj
            rw [hj]
          · rw [if_neg hrun] at hk
            rw [if_neg (by omega), hk]
        · split_ifs <;> exact hnumber
      · obtain ⟨hrun, hstarter⟩ := not_or.mp hext
        obtain rfl := not_not.mp hrun
        refine .of_step _ _ hc.lt Nat.one_pos hstep
          (ih c [] (out ++ [c]) touched _ (j + 1 + 1) (j + 1) rfl hc.tail hnext ?_ ?_
            (hends.skip hperiod hext))
        · rw [if_neg fun h => hstarter h.2]
          have hi : i = j + 1 := hj
          subst hi
          exact ⟨hpend.written.push hc, hpend.kStart_eq, by simp⟩
        · split_ifs <;> exact hnumber
    · have htail : numberTail before (c :: rest) = ([], c :: rest) := by
        rw [numberTail, if_neg]
        simpa [hperiod, GoesOn] using hgoes
      rw [htail] at hends
      rw [if_neg fun h => hgoes (.inr h)] at htrack
      have hpart : isIdentifierPart c = false := by
        simpa using fun h => hgoes (.inl h)
      refine hends mask ⟨⟨i, hj, hat, ?_⟩, hnumber, ?_⟩
      · simpa [numberRuns, maskedNumber] using hpend
      · rintro d tail ⟨rfl, rfl⟩
        refine ⟨hpart, ?_⟩
        rw [List.length_nil, Nat.add_zero, htrack]
        simp [hpart, hperiod]

/-! ### The whole text -/

/-- A raw string, or a plain one, behind its prefix. -/
theorem Pending.raw {code run rest out : Bytes} {i : ℕ} {touched : Bool} {mask : MaskState}
    (h : Pending code i run out touched mask) (hat : At code i (run ++ quote :: rest))
    (htrack : trackNumericRun code (i + run.length) mask.kStart mask.inNumber =
      some (false, false)) (hraw : isRawStringPrefix run = true)
    (ih : ∀ k tail, tail.length < (quote :: rest).length → At code k tail →
      Scans macros code k tail) :
    Result macros code (i + run.length) mask .normal
      (some (answer macros (out ++ run) touched (elementsFrom true (quote :: rest)))) := by
  obtain ⟨mask', hpend, hnumber, hstep⟩ := h.stepNormal_raw macros hat htrack hraw
  have hstring := stringTail_append true rest
  have hsplit : quote :: rest = (quote :: (stringTail true rest).1) ++ (stringTail true rest).2 := by
    rw [List.cons_append, hstring]
  have hquote := hat.append
  refine .prefixed hquote hpend.kStart_eq hstep ?_
  have helements : elementsFrom true (quote :: rest) =
      .inert (quote :: (stringTail true rest).1) :: elements (stringTail true rest).2 := by
    rw [elementsFrom_cons, firstElement_quote]
    rfl
  have hless : (stringTail true rest).2.length < (quote :: rest).length := by
    have hlen := congrArg List.length hstring
    rw [List.length_append] at hlen
    rw [List.length_cons]
    omega
  rw [helements, answer_cons, Element.touched_inert, Bool.or_false]
  rw [hsplit] at hquote
  exact ih _ _ hless hquote.append _ _ mask' ⟨hpend.written.append hquote, hpend.kStart_eq, by simp⟩ hnumber

theorem Scans.inert (bytes rest' : Bytes) {code rest : Bytes} {c : UInt8} {j : ℕ}
    (hat : At code j (c :: rest)) (hfirst : firstElement false c rest = (.inert bytes, rest', false))
    (ih : ∀ k tail, tail.length < (c :: rest).length → At code k tail → Scans macros code k tail)
    (hrun : ∀ mask r, mask.kStart = 0 → mask.inNumber = false →
      Result macros code (j + bytes.length) mask .normal r → Result macros code j mask .normal r) :
    Scans macros code j (c :: rest) := by
  intro out touched mask hpend hnumber
  have hk := hpend.kStart_eq
  have hsplit := firstElement_append false c rest
  have hpos := firstElement_bytes_pos false c rest
  rw [hfirst] at hsplit hpos
  have hless : rest'.length < (c :: rest).length := by
    rw [← hsplit, List.length_append]
    exact Nat.lt_add_of_pos_left hpos
  rw [← hsplit] at hat
  have helements : elements (c :: rest) = .inert bytes :: elements rest' := by
    rw [elements, elementsFrom_cons, hfirst]
    rfl
  rw [helements, answer_cons, Element.touched_inert, Bool.or_false]
  exact hrun mask _ hk hnumber
    (ih _ _ hless hat.append _ _ mask ⟨hpend.written.append hat, hk, by simp⟩ hnumber)

/-- From normal text outside a number, a byte that starts neither a word nor a number. -/
theorem At.step_open {code rest : Bytes} {c : UInt8} {j : ℕ} (h : At code j (c :: rest))
    {mask : MaskState} (hk : mask.kStart = 0) (hnumber : mask.inNumber = false)
    (hstarter : isIdentifierStarter c = false) (hdigit : isAsciiDigit c = false) :
    step macros code j mask .normal =
      some (if c = slash ∧ rest.head? = some slash then (2, mask, .lineComment)
        else if c = slash ∧ rest.head? = some star then (2, mask, .blockComment)
        else if c = quote then (1, mask, .string)
        else if c = apostrophe then (1, mask, .char)
        else (1, mask, .normal)) := by
  have htrack : trackNumericRun code j mask.kStart mask.inNumber =
      some (false, mask.inNumber) := by
    rw [hnumber, h.trackNumericRun_idle, hdigit, Bool.and_false]
  rw [step, h.stepNormal_next htrack (.inl hk), h.openNext_eq, hstarter]
  simp

theorem scans_word {code rest : Bytes} {c : UInt8} {j : ℕ} (hat : At code j (c :: rest))
    (hstarter : isIdentifierStarter c = true)
    (ih : ∀ k tail, tail.length < (c :: rest).length → At code k tail → Scans macros code k tail) :
    Scans macros code j (c :: rest) := by
  intro out touched mask hpend hnumber
  have hk := hpend.kStart_eq
  have hpart := isIdentifierPart_of_starter hstarter
  have hslash : c ≠ slash := ne_of_isIdentifierPart hpart (by decide)
  have hquote : c ≠ quote := ne_of_isIdentifierPart hpart (by decide)
  have hchar : c ≠ apostrophe := ne_of_isIdentifierPart hpart (by decide)
  have htrack : trackNumericRun code j mask.kStart mask.inNumber =
      some (false, mask.inNumber) := by
    rw [hnumber, hat.trackNumericRun_idle, isAsciiDigit_of_starter hstarter, Bool.and_false]
  have hstep : step macros code j mask .normal =
      some (1, { mask with kStart := j + 1 }, .normal) := by
    rw [step, hat.stepNormal_next htrack (.inl hk), hat.openNext_eq, if_neg fun h => hslash h.1,
      if_neg fun h => hslash h.1, if_neg hquote, if_neg hchar, if_pos ⟨hk, hstarter⟩]
  have hsplit : c :: rest = (c :: rest.takeWhile isIdentifierPart) ++
      rest.dropWhile isIdentifierPart := by
    rw [List.cons_append, List.takeWhile_append_dropWhile]
  have hword := hat
  rw [hsplit] at hword
  have hlen : j + 1 + (rest.takeWhile isIdentifierPart).length =
      j + (c :: rest.takeWhile isIdentifierPart).length := by
    rw [List.length_cons]
    omega
  have hascii : ∀ b ∈ c :: rest.takeWhile isIdentifierPart, b.toNat < 128 := by
    intro b hb
    rcases List.mem_cons.mp hb with rfl | hb
    · exact lt_of_isIdentifierPart hpart
    · exact lt_of_isIdentifierPart (List.mem_takeWhile_imp hb)
  have hrun : Pending code j (c :: rest.takeWhile isIdentifierPart) out touched
      { mask with kStart := j + 1 } :=
    ⟨hpend.written.set _ _, (if_neg (List.cons_ne_nil _ _)).symm, hascii⟩
  refine .of_step _ _ hat.lt Nat.one_pos hstep
    (Result.letters { mask with kStart := j + 1 } (Nat.succ_ne_zero j) hnumber rest (j + 1)
      hat.tail ?_)
  rw [hlen]
  have hidle : ∀ d tail, rest.dropWhile isIdentifierPart = d :: tail →
      trackNumericRun code (j + (c :: rest.takeWhile isIdentifierPart).length) (j + 1)
        mask.inNumber = some (false, false) := by
    intro d tail hd
    have hnext := hword.append
    rw [hd] at hnext
    rw [hnumber, hnext.trackNumericRun_idle]
    rfl
  have hbehind := congrArg List.length hsplit
  rw [List.length_append] at hbehind
  by_cases hraw : isRawStringPrefix (c :: rest.takeWhile isIdentifierPart) = true ∧
      (rest.dropWhile isIdentifierPart).head? = some quote
  · obtain ⟨tail, hdrop⟩ := List.head?_eq_some_iff.mp hraw.2
    have helements : elements (c :: rest) =
        .rawPrefix (c :: rest.takeWhile isIdentifierPart) :: elementsFrom true (quote :: tail) := by
      rw [elements, elementsFrom_cons, firstElement, if_pos hstarter, ← hdrop]
      dsimp only
      rw [if_pos hraw]
    have htail := hidle quote tail hdrop
    rw [hdrop] at hword hbehind
    have hless : (quote :: tail).length ≤ (c :: rest).length := by
      rw [hbehind]
      omega
    rw [helements, answer_cons, Element.touched_rawPrefix, Bool.or_false]
    exact hrun.raw hword htail hraw.1 fun k after hafter => ih k after (hafter.trans_le hless)
  · have helements : elements (c :: rest) =
        .identifier (c :: rest.takeWhile isIdentifierPart) ::
          elements (rest.dropWhile isIdentifierPart) := by
      rw [elements, elementsFrom_cons, firstElement, if_pos hstarter]
      dsimp only
      rw [if_neg hraw]
      rfl
    have hless : (rest.dropWhile isIdentifierPart).length < (c :: rest).length := by
      rw [hbehind, List.length_cons]
      omega
    rw [helements, answer_cons]
    refine hrun.close hword ?_ (ih _ _ hless hword.append)
    intro d tail hd
    have hhead := List.head?_dropWhile_not isIdentifierPart rest
    rw [hd] at hhead
    refine ⟨by simpa using hhead, hidle d tail hd, ?_⟩
    rintro ⟨hstart, rfl⟩
    exact hraw ⟨hstart, by rw [hd]; rfl⟩

end BigCodeAnalysis.Languages.CMacro
