import BigCodeAnalysis.Languages.CMacroScan
import Mathlib.Data.List.Forall2

/-! The masking of a whole text: the scanner returns, for every text and every set of macros, what
it writes for each lexical element. It goes through the elements one by one, so that what it
masks is read off each element alone. It also looks up the letters of a number, so it masks
exactly the identifiers that name a macro where none of these letters name one. -/

namespace BigCodeAnalysis.Languages.CMacro

section

variable {macros : Finset String}

theorem not_starter_of_digit {c : UInt8} (h : isAsciiDigit c = true) :
    isIdentifierStarter c = false := by
  cases hs : isIdentifierStarter c with
  | false => rfl
  | true => rw [isAsciiDigit_of_starter hs] at h; cases h

theorem part_of_digit {c : UInt8} (h : isAsciiDigit c = true) : isIdentifierPart c = true := by
  rw [isIdentifierPart, h, Bool.or_true, Bool.true_or]

section Digit

variable {c : UInt8} (h : isAsciiDigit c = true) (tail : Bytes)

include h

theorem numberRuns_digit : numberRuns [] (c :: tail) = numberRuns [] tail := by
  have hperiod : c ≠ period := ne_of_isIdentifierPart (part_of_digit h) (by decide)
  rw [numberRuns, if_neg hperiod, if_neg (by simp [not_starter_of_digit h])]

theorem maskedNumber_digit :
    maskedNumber macros [] (c :: tail) = c :: maskedNumber macros [] tail := by
  have hperiod : c ≠ period := ne_of_isIdentifierPart (part_of_digit h) (by decide)
  rw [maskedNumber, if_neg hperiod, if_neg (by simp [not_starter_of_digit h])]

end Digit

theorem scans_number {code rest : Bytes} {c : UInt8} {j : ℕ} (hat : At code j (c :: rest))
    (hdigit : isAsciiDigit c = true)
    (ih : ∀ k tail, tail.length < (c :: rest).length → At code k tail → Scans macros code k tail) :
    Scans macros code j (c :: rest) := by
  intro out touched mask hpend hnumber
  have hk := hpend.kStart_eq
  have hstarter := not_starter_of_digit hdigit
  have hpart := part_of_digit hdigit
  have hslash : c ≠ slash := ne_of_isIdentifierPart hpart (by decide)
  have hquote : c ≠ quote := ne_of_isIdentifierPart hpart (by decide)
  have hchar : c ≠ apostrophe := ne_of_isIdentifierPart hpart (by decide)
  have htrack : trackNumericRun code j mask.kStart mask.inNumber = some (false, true) := by
    rw [hnumber, hat.trackNumericRun_idle, hdigit, hk]
    rfl
  have hstep : step macros code j mask .normal =
      some (1, { mask with inNumber := true }, .normal) := by
    rw [step, hat.stepNormal_next htrack (.inl hk), hat.openNext_eq, if_neg fun h => hslash h.1,
      if_neg fun h => hslash h.1, if_neg hquote, if_neg hchar, if_neg (by simp [hstarter])]
  refine .of_step _ _ hat.lt Nat.one_pos hstep
    (Result.numeric rest c [] (out ++ [c]) touched _ (j + 1) j rfl hat.tail hat.getElem?
      ⟨(hpend.written.push hat).set _ _, hk, by simp⟩ rfl ?_)
  intro mask' hbehind
  obtain ⟨⟨i, hi, hrun, hlast⟩, hin, hends⟩ := hbehind
  have hsplit := numberTail_append c rest
  generalize htail : (numberTail c rest).1 = tail at *
  generalize hrest : (numberTail c rest).2 = rest' at *
  have hpair : numberTail c rest = (tail, rest') := by rw [← htail, ← hrest]
  have hlen := congrArg List.length hsplit
  rw [List.length_append] at hlen
  have helements : elements (c :: rest) =
      .number (c :: tail)
        (isRawStringPrefix (numberRuns [] tail).2 && rest'.head? = some quote) ::
        elementsFrom (isRawStringPrefix (numberRuns [] tail).2 && rest'.head? = some quote)
          rest' := by
    rw [elements, elementsFrom_cons, firstElement, if_neg (by simp [hstarter]), if_pos hdigit,
      hpair]
    dsimp only
    rw [numberRuns_digit hdigit]
  have hscanned : ∀ raw, out ++ (Element.number (c :: tail) raw).scanned macros =
      out ++ [c] ++ maskedNumber macros [] tail ++
        if raw then (numberRuns [] tail).2 else maskedRun macros (numberRuns [] tail).2 := by
    intro raw
    rw [Element.scanned, numberRuns_digit hdigit, maskedNumber_digit hdigit]
    simp
  have hless : rest'.length < (c :: rest).length := by
    rw [List.length_cons]
    omega
  rw [helements, answer_cons, hscanned, ← hi]
  cases hraw : (isRawStringPrefix (numberRuns [] tail).2 && rest'.head? = some quote) with
  | true =>
    obtain ⟨hstart, hhead⟩ := by simpa using hraw
    obtain ⟨after, rfl⟩ := List.head?_eq_some_iff.mp hhead
    have htrack' := (hends quote after rfl).2
    rw [← hi] at htrack'
    have htouched : (touched || (Element.number (c :: tail) true).touched macros) =
        (touched || (numberRuns [] tail).1.any (hit macros)) := by
      rw [Element.touched_number, Element.numberRuns, numberRuns_digit hdigit]
      simp
    rw [htouched, if_pos rfl]
    exact hlast.raw hrun htrack' hstart fun k t ht => ih k t (ht.trans hless)
  | false =>
    have htouched : (touched || (Element.number (c :: tail) false).touched macros) =
        (touched || (numberRuns [] tail).1.any (hit macros) ||
          hit macros (numberRuns [] tail).2) := by
      rw [Element.touched_number, Element.numberRuns, numberRuns_digit hdigit]
      simp [Bool.or_assoc]
    rw [htouched, if_neg Bool.false_ne_true]
    refine hlast.close hrun ?_ (ih _ _ hless hrun.append)
    intro d after hd
    obtain ⟨hd', htrack'⟩ := hends d after hd
    rw [← hi] at htrack'
    refine ⟨hd', htrack', ?_⟩
    rintro ⟨hstart, rfl⟩
    rw [hstart, hd] at hraw
    simp at hraw

theorem scans_cons {code rest : Bytes} {c : UInt8} {j : ℕ} (hat : At code j (c :: rest))
    (ih : ∀ k tail, tail.length < (c :: rest).length → At code k tail → Scans macros code k tail) :
    Scans macros code j (c :: rest) := by
  by_cases hstarter : isIdentifierStarter c = true
  · exact scans_word hat hstarter ih
  by_cases hdigit : isAsciiDigit c = true
  · exact scans_number hat hdigit ih
  have hopen : ∀ mask : MaskState, mask.kStart = 0 → mask.inNumber = false →
      step macros code j mask .normal = _ := fun mask hk hnumber =>
    hat.step_open hk hnumber (by simpa using hstarter) (by simpa using hdigit)
  by_cases hline : c = slash ∧ rest.head? = some slash
  · obtain ⟨rfl, hhead⟩ := hline
    obtain ⟨tail, rfl⟩ := List.head?_eq_some_iff.mp hhead
    refine Scans.inert (slash :: slash :: (lineTail tail).1) (lineTail tail).2 hat ?_ ih ?_
    · rw [firstElement, if_neg hstarter, if_neg hdigit, if_pos ⟨rfl, hhead⟩]
      rfl
    · intro mask r hk hnumber h
      refine .of_step mask .lineComment hat.lt Nat.two_pos ?_
        (Result.lineComment hk tail (j + 2) hat.tail.tail
          (h.cast (by simp only [List.length_cons]; omega)))
      rw [hopen mask hk hnumber, if_pos ⟨rfl, hhead⟩]
  by_cases hblock : c = slash ∧ rest.head? = some star
  · obtain ⟨rfl, hhead⟩ := hblock
    obtain ⟨tail, rfl⟩ := List.head?_eq_some_iff.mp hhead
    refine Scans.inert (slash :: star :: (blockTail tail).1) (blockTail tail).2 hat ?_ ih ?_
    · rw [firstElement, if_neg hstarter, if_neg hdigit, if_neg hline, if_pos ⟨rfl, hhead⟩]
      rfl
    · intro mask r hk hnumber h
      refine .of_step mask .blockComment hat.lt Nat.two_pos ?_
        (Result.blockComment hk tail (j + 2) hat.tail.tail
          (h.cast (by simp only [List.length_cons]; omega)))
      rw [hopen mask hk hnumber, if_neg hline, if_pos ⟨rfl, hhead⟩]
  by_cases hquote : c = quote
  · subst hquote
    have hplain : stringTail false rest = quotedTail quote rest := rfl
    refine Scans.inert _ _ hat (firstElement_quote false rest) ih ?_
    intro mask r hk hnumber h
    rw [hplain] at h
    refine .of_step mask .string hat.lt Nat.one_pos ?_
      (Result.quoted (.inl ⟨rfl, rfl⟩) hk rest (j + 1) hat.tail
        (h.cast (by simp only [List.length_cons]; omega)))
    rw [hopen mask hk hnumber, if_neg hline, if_neg hblock, if_pos rfl]
  by_cases hchar : c = apostrophe
  · subst hchar
    refine Scans.inert (apostrophe :: (quotedTail apostrophe rest).1)
      (quotedTail apostrophe rest).2 hat ?_ ih ?_
    · rw [firstElement, if_neg hstarter, if_neg hdigit, if_neg hline, if_neg hblock, if_neg hquote,
        if_pos rfl]
    · intro mask r hk hnumber h
      refine .of_step mask .char hat.lt Nat.one_pos ?_
        (Result.quoted (.inr ⟨rfl, rfl⟩) hk rest (j + 1) hat.tail
          (h.cast (by simp only [List.length_cons]; omega)))
      rw [hopen mask hk hnumber, if_neg hline, if_neg hblock, if_neg hquote, if_pos rfl]
  · refine Scans.inert [c] rest hat ?_ ih ?_
    · rw [firstElement, if_neg hstarter, if_neg hdigit, if_neg hline, if_neg hblock, if_neg hquote,
        if_neg hchar]
    · intro mask r hk hnumber h
      refine .of_step mask .normal hat.lt Nat.one_pos ?_ h
      rw [hopen mask hk hnumber, if_neg hline, if_neg hblock, if_neg hquote, if_neg hchar]

theorem scans {code : Bytes} (rest : Bytes) : ∀ j, At code j rest → Scans macros code j rest := by
  induction hlen : rest.length using Nat.strong_induction_on generalizing rest with
  | _ n ih =>
    intro j hat
    cases rest with
    | nil => exact scans_nil hat
    | cons c rest =>
      refine scans_cons hat fun k tail hless => ?_
      exact ih tail.length (hlen ▸ hless) tail rfl k

/-- The scanner runs through and writes the elements one by one. -/
theorem replace_eq (macros : Finset String) (code : Bytes) :
    replace macros code = some (answer macros [] false (elements code)) :=
  Result.replace_eq
    (scans code 0 (.zero code) [] false _ ⟨⟨le_rfl, by simp, by simp⟩, rfl, by simp⟩ rfl)

end

/-! ### Where numbers are left as they are -/

section

variable {macros : Finset String}

/-- The same text, with some bytes overwritten. -/
def Overwritten (out code : Bytes) : Prop := List.Forall₂ (fun o c => o = c ∨ o = dollar) out code

theorem Overwritten.refl (code : Bytes) : Overwritten code code := by
  induction code with
  | nil => exact .nil
  | cons c code ih => exact .cons (.inl rfl) ih

theorem overwritten_replicate (code : Bytes) :
    Overwritten (List.replicate code.length dollar) code := by
  induction code with
  | nil => exact .nil
  | cons c code ih => exact .cons (.inr rfl) ih

theorem Overwritten.append {out out' code code' : Bytes} (h : Overwritten out code)
    (h' : Overwritten out' code') : Overwritten (out ++ out') (code ++ code') :=
  List.rel_append h h'

theorem overwritten_maskedRun (run : Bytes) : Overwritten (maskedRun macros run) run := by
  unfold maskedRun
  split_ifs
  · exact overwritten_replicate run
  · exact .refl run

theorem overwritten_maskedNumber {last' : Bytes} (bytes : Bytes) : ∀ run,
    Overwritten last' (numberRuns run bytes).2 →
      Overwritten (maskedNumber macros run bytes ++ last') (run ++ bytes) := by
  intro run hlast
  fun_induction maskedNumber macros run bytes with
  | case1 run => simpa [numberRuns] using hlast
  | case2 run rest ih =>
    rw [numberRuns, if_pos rfl] at hlast
    have hrest := ih hlast
    simpa using (overwritten_maskedRun run).append (.cons (.inl rfl) hrest)
  | case3 run c rest hc hrun ih =>
    rw [numberRuns, if_neg hc, if_pos hrun] at hlast
    simpa using ih hlast
  | case4 run c rest hc hrun ih =>
    rw [numberRuns, if_neg hc, if_neg hrun] at hlast
    obtain rfl : run = [] := by simpa using fun h => hrun (.inl h)
    exact .cons (.inl rfl) (ih hlast)

theorem overwritten_scanned (macros : Finset String) (e : Element) : Overwritten (e.scanned macros) e.bytes := by
  cases e with
  | identifier word => exact overwritten_maskedRun word
  | rawPrefix word => exact .refl word
  | number bytes raw =>
    refine overwritten_maskedNumber bytes [] ?_
    split_ifs
    · exact .refl _
    · exact overwritten_maskedRun _
  | inert bytes => exact .refl bytes

theorem overwritten_masked (macros : Finset String) (e : Element) : Overwritten (e.masked macros) e.bytes := by
  unfold Element.masked
  split_ifs
  · exact overwritten_replicate e.bytes
  · exact .refl e.bytes

theorem Overwritten.flatMap {f g : Element → Bytes} (es : List Element)
    (h : ∀ e, Overwritten (f e) (g e)) : Overwritten (es.flatMap f) (es.flatMap g) := by
  induction es with
  | nil => exact .nil
  | cons e es ih => exact (h e).append ih

/-- Texts of equal pieces agree piece by piece. -/
theorem eq_of_flatMap_eq {f g : Element → Bytes} (es : List Element)
    (hlen : ∀ e, (f e).length = (g e).length) (h : es.flatMap f = es.flatMap g) :
    ∀ e ∈ es, f e = g e := by
  induction es with
  | nil => simp
  | cons e es ih =>
    obtain ⟨hfirst, hrest⟩ := List.append_inj h (hlen e)
    intro e' he'
    rcases List.mem_cons.mp he' with rfl | he'
    · exact hfirst
    · exact ih hrest e' he'

/-! ### Elements of a text -/

theorem flatMap_bytes (raw : Bool) (code : Bytes) :
    (elementsFrom raw code).flatMap Element.bytes = code := by
  fun_induction elementsFrom raw code with
  | case1 => rfl
  | case2 raw c rest first ih =>
    rw [List.flatMap_cons, ih]
    exact firstElement_append raw c rest

/-- An identifier is not empty and no number holds a `$`. -/
def Element.Proper : Element → Prop
  | .identifier word => word ≠ []
  | .number bytes _ => dollar ∉ bytes
  | _ => True

theorem dollar_notMem_numberTail (before : UInt8) (rest : Bytes) :
    dollar ∉ (numberTail before rest).1 := by
  induction rest generalizing before with
  | nil => simp [numberTail]
  | cons c rest ih =>
    rw [numberTail]
    split_ifs with hc
    · have hpart : isIdentifierPart dollar = false := by decide
      have hperiod : dollar ≠ period := by decide
      have hsep : dollar ≠ apostrophe := by decide
      have hne : dollar ≠ c := by
        rintro rfl
        exact absurd hc (by simp [hpart, hperiod, hsep])
      simpa [hne] using ih c
    · simp

theorem firstElement_proper (raw : Bool) (c : UInt8) (rest : Bytes) :
    (firstElement raw c rest).1.Proper := by
  unfold firstElement
  dsimp only
  split_ifs with h₁ h₂ h₃ <;> try trivial
  · exact List.cons_ne_nil _ _
  · have hne : dollar ≠ c := by
      rintro rfl
      exact absurd h₃ (by decide)
    have htail := dollar_notMem_numberTail c rest
    simpa [Element.Proper, hne] using htail

theorem proper_of_mem {raw : Bool} {code : Bytes} {e : Element} (he : e ∈ elementsFrom raw code) :
    e.Proper := by
  fun_induction elementsFrom raw code with
  | case1 => cases he
  | case2 raw c rest first ih =>
    rcases List.mem_cons.mp he with rfl | he
    · exact firstElement_proper raw c rest
    · exact ih he

/-! ### Masked runs -/

theorem length_maskedRun (run : Bytes) : (maskedRun macros run).length = run.length :=
  (overwritten_maskedRun run).length_eq

theorem maskedRun_eq_iff {run : Bytes} (h : dollar ∉ run) :
    maskedRun macros run = run ↔ hit macros run = false := by
  constructor
  · intro heq
    cases hhit : hit macros run with
    | false => rfl
    | true =>
      rw [maskedRun, if_pos hhit] at heq
      cases run with
      | nil => cases hhit
      | cons b run =>
        rw [List.length_cons, List.replicate_succ, List.cons.injEq] at heq
        exact (h (heq.1 ▸ List.mem_cons_self)).elim
  · intro hhit
    rw [maskedRun, hhit]
    rfl

theorem maskedNumber_eq_iff (macros : Finset String) (raw : Bool) (bytes : Bytes) : ∀ run, dollar ∉ run → dollar ∉ bytes →
    (maskedNumber macros run bytes ++ (if raw then (numberRuns run bytes).2 else
        maskedRun macros (numberRuns run bytes).2) = run ++ bytes ↔
      ∀ r ∈ (numberRuns run bytes).1 ++ if raw then [] else [(numberRuns run bytes).2],
        hit macros r = false) := by
  intro run hrun hbytes
  fun_induction maskedNumber macros run bytes with
  | case1 run => cases raw <;> simp [numberRuns, maskedRun_eq_iff hrun]
  | case2 run rest ih =>
    have hrest := ih (by simp) fun h => hbytes (List.mem_cons_of_mem _ h)
    have hsplit : ∀ xs : Bytes, maskedRun macros run ++ period :: xs = run ++ period :: rest ↔
        hit macros run = false ∧ xs = rest := by
      intro xs
      rw [← maskedRun_eq_iff hrun]
      constructor
      · intro h
        obtain ⟨hfirst, hcons⟩ := List.append_inj h (length_maskedRun run)
        exact ⟨hfirst, List.tail_eq_of_cons_eq hcons⟩
      · rintro ⟨hfirst, rfl⟩
        rw [hfirst]
    rw [numberRuns, if_pos rfl]
    dsimp only
    rw [List.append_assoc, List.cons_append, hsplit]
    rw [List.nil_append] at hrest
    rw [hrest, List.cons_append, List.forall_mem_cons]
  | case3 run c rest hc hext ih =>
    obtain ⟨hhead, htail⟩ := not_or.mp (mt List.mem_cons.mpr hbytes)
    have hword : dollar ∉ run ++ [c] := by simpa using ⟨hrun, hhead⟩
    have hrest := ih hword htail
    rw [List.append_assoc run, List.singleton_append] at hrest
    rw [numberRuns, if_neg hc, if_pos hext]
    exact hrest
  | case4 run c rest hc hext ih =>
    obtain ⟨-, htail⟩ := not_or.mp (mt List.mem_cons.mpr hbytes)
    obtain rfl : run = [] := by simpa using fun h => hext (.inl h)
    have hrest := ih (by simp) htail
    rw [numberRuns, if_neg hc, if_neg hext, List.cons_append, List.nil_append, ← hrest]
    simp

/-- A number is left as it is exactly where none of its runs names a macro. -/
theorem scanned_number_iff {bytes : Bytes} (raw : Bool) (h : dollar ∉ bytes) :
    (Element.number bytes raw).scanned macros = bytes ↔
      ∀ run ∈ (Element.number bytes raw).numberRuns, hit macros run = false := by
  have heq := maskedNumber_eq_iff macros raw bytes [] (by simp) h
  cases raw <;> simpa [Element.scanned, Element.numberRuns] using heq

/-! ### The result -/

theorem touched_eq_isMacro {e : Element} (h : e.Proper)
    (hruns : ∀ run ∈ e.numberRuns, hit macros run = false) :
    e.touched macros = e.isMacro macros := by
  cases e with
  | identifier word =>
    have hword : word ≠ [] := h
    simp [Element.touched, Element.isMacro, hit, hword]
  | rawPrefix word => rfl
  | number bytes raw =>
    rw [Element.touched_number]
    simpa [Element.isMacro] using hruns
  | inert bytes => rfl

theorem scanned_eq_masked_iff {e : Element} (h : e.Proper) :
    e.scanned macros = e.masked macros ↔ ∀ run ∈ e.numberRuns, hit macros run = false := by
  cases e with
  | identifier word =>
    have hword : word ≠ [] := h
    have hhit : hit macros word = isMacro macros (nameOf word) := by simp [hit, hword]
    have hscanned : (Element.identifier word).scanned macros =
        (Element.identifier word).masked macros := by
      rw [Element.scanned, maskedRun, hhit]
      rfl
    simp [hscanned, Element.numberRuns]
  | rawPrefix word => simp [Element.scanned, Element.masked, Element.isMacro, Element.numberRuns,
      Element.bytes]
  | number bytes raw => exact scanned_number_iff raw h
  | inert bytes => simp [Element.scanned, Element.masked, Element.isMacro, Element.numberRuns,
      Element.bytes]

theorem noMacroInNumber_iff {code : Bytes} : NoMacroInNumber macros code ↔
    ∀ e ∈ elements code, ∀ run ∈ e.numberRuns, hit macros run = false := by
  have hiff : ∀ run : Bytes, (run ≠ [] → isMacro macros (nameOf run) = false) ↔
      hit macros run = false := by
    intro run
    by_cases hrun : run = [] <;> simp [hit, hrun]
  simp only [NoMacroInNumber, hiff]

/-- What the result of the masking is to be: only the identifiers that name a macro are
overwritten, each byte by a `$`; nothing where there is none. -/
structure Masks (macros : Finset String) (code : Bytes) (result : Option Bytes) : Prop where
  eq_maskedText : result = maskedText macros code
  length_eq : ∀ out, result = some out → out.length = code.length
  differs : ∀ out, result = some out →
    ∀ i : ℕ, out[i]? = code[i]? ∨ (i < code.length ∧ out[i]? = some dollar)

/-- On every text the scanner returns, and what it returns differs from the text by `$` bytes
only. -/
theorem replace_overwritten (macros : Finset String) (code : Bytes) :
    ∃ result, replace macros code = some result ∧
      ∀ out, result = some out → Overwritten out code := by
  refine ⟨_, replace_eq macros code, ?_⟩
  intro out hout
  unfold answer at hout
  split_ifs at hout
  · obtain rfl := Option.some_inj.mp hout
    have hscanned := Overwritten.flatMap (elements code) (overwritten_scanned macros)
    rw [elements, flatMap_bytes false code] at hscanned
    exact hscanned

theorem touched_of_run {e : Element} {run : Bytes} (hrun : run ∈ e.numberRuns)
    (hhit : hit macros run = true) : e.touched macros = true := by
  cases e with
  | number bytes raw =>
    rw [Element.touched_number]
    exact List.any_eq_true.mpr ⟨run, hrun, hhit⟩
  | _ => cases hrun

theorem masks_of_overwritten {code : Bytes} {result : Option Bytes}
    (h : ∀ out, result = some out → Overwritten out code)
    (heq : result = maskedText macros code) : Masks macros code result where
  eq_maskedText := heq
  length_eq := fun out hout => (h out hout).length_eq
  differs := by
    intro out hout i
    have hover := h out hout
    have hlen := hover.length_eq
    by_cases hi : i < code.length
    · have hout' : i < out.length := by omega
      have hbyte := hover.get hout' hi
      rw [List.get_eq_getElem, List.get_eq_getElem] at hbyte
      rw [List.getElem?_eq_getElem hout', List.getElem?_eq_getElem hi]
      rcases hbyte with hbyte | hbyte
      · exact .inl (by rw [hbyte])
      · exact .inr ⟨hi, by rw [hbyte]⟩
    · left
      rw [List.getElem?_eq_none (by omega), List.getElem?_eq_none (by omega)]

/-- The scanner does what it is to do exactly where no letters of a number name a macro. -/
theorem replace_masks_iff (macros : Finset String) (code : Bytes) :
    (∃ result, replace macros code = some result ∧ Masks macros code result) ↔
      NoMacroInNumber macros code := by
  obtain ⟨result, hresult, hover⟩ := replace_overwritten macros code
  have hanswer := replace_eq macros code
  rw [noMacroInNumber_iff]
  constructor
  · rintro ⟨result', hresult', hmasks⟩ e he run hrun
    have heq := hmasks.eq_maskedText
    rw [Option.some_inj.mp (hresult'.symm.trans hanswer)] at heq
    cases hhit : hit macros run with
    | false => rfl
    | true =>
      have htouched : (elements code).any (Element.touched macros) = true :=
        List.any_eq_true.mpr ⟨e, he, touched_of_run hrun hhit⟩
      rw [answer, htouched, Bool.or_true, if_pos rfl, maskedText] at heq
      split_ifs at heq
      have hpieces := Option.some_inj.mp heq
      have hlen : ∀ e : Element, (e.scanned macros).length = (e.masked macros).length := fun e =>
        (overwritten_scanned macros e).length_eq.trans (overwritten_masked macros e).length_eq.symm
      have hsame := eq_of_flatMap_eq (elements code) hlen hpieces e he
      exact hhit.symm.trans ((scanned_eq_masked_iff (proper_of_mem he)).mp hsame run hrun)
  · intro h
    have heq : result = maskedText macros code := by
      have hany : (elements code).any (Element.touched macros) =
          (elements code).any (Element.isMacro macros) := by
        rw [Bool.eq_iff_iff, List.any_eq_true, List.any_eq_true]
        refine exists_congr fun e => and_congr_right fun he => ?_
        rw [touched_eq_isMacro (proper_of_mem he) (h e he)]
      rw [Option.some_inj.mp (hresult.symm.trans hanswer), answer, maskedText, Bool.false_or, hany]
      have hpieces : (elements code).flatMap (Element.scanned macros) =
          (elements code).flatMap (Element.masked macros) :=
        List.flatMap_congr fun e he => (scanned_eq_masked_iff (proper_of_mem he)).mpr (h e he)
      rw [hpieces]
      rfl
    exact ⟨result, hresult, masks_of_overwritten hover heq⟩

/-- The suffix of `10u` is masked where a macro is named `u`. -/
theorem replace_ten_u : ¬ ∃ result, replace {"u"} [49, 48, 117] = some result ∧
    Masks {"u"} [49, 48, 117] result := by
  rintro ⟨result, hresult, hmasks⟩
  have hreplace : replace {"u"} [49, 48, 117] = some (some [49, 48, 36]) := by decide +kernel
  have hfirst : firstElement false 49 [48, 117] = (.number [49, 48, 117] false, [], false) := by
    decide
  have hmasked : maskedText {"u"} [49, 48, 117] = none := by
    rw [maskedText, elements, elementsFrom_cons, hfirst, elementsFrom_nil]
    rfl
  have heq := hmasks.eq_maskedText
  rw [hmasked, ← Option.some_inj, ← hresult, hreplace] at heq
  cases heq

end

end BigCodeAnalysis.Languages.CMacro
