import BigCodeAnalysis.Languages.CMacroTokens

/-! The scanner inside literals and comments: from any of these states the program goes on
as from normal text behind the element. -/

namespace BigCodeAnalysis.Languages.CMacro

open Sequences (slice)

variable {macros : Finset String}

/-- From position `i` on the program returns `r`, with as many turns as it needs. -/
def Result (macros : Finset String) (code : Bytes) (i : ℕ) (mask : MaskState) (state : LexState)
    (r : Option (Option Bytes)) : Prop :=
  ∀ fuel, code.length ≤ i + fuel →
    (loop macros code fuel i mask state).bind (fun out => finish macros code out.1 out.2) = r

theorem Result.replace_eq {code : Bytes} {r : Option (Option Bytes)}
    (h : Result macros code 0 ⟨0, 0, false, []⟩ .normal r) : replace macros code = r :=
  h code.length (by omega)

theorem Result.of_step {code : Bytes} {i n : ℕ} {mask : MaskState} {state : LexState}
    (mask' : MaskState) (state' : LexState) {r : Option (Option Bytes)} (hi : i < code.length) (hn : 0 < n)
    (hstep : step macros code i mask state = some (n, mask', state'))
    (h : Result macros code (i + n) mask' state' r) : Result macros code i mask state r := by
  intro fuel hfuel
  cases fuel with
  | zero => omega
  | succ fuel =>
    rw [loop, if_pos hi, hstep]
    exact h fuel (by omega)

theorem Result.of_finish {code : Bytes} {i : ℕ} {mask : MaskState} {state : LexState}
    {r : Option (Option Bytes)} (hi : code.length ≤ i) (h : finish macros code mask state = r) :
    Result macros code i mask state r := by
  intro fuel _
  cases fuel with
  | zero =>
    rw [loop, if_neg (by omega)]
    exact h
  | succ fuel =>
    rw [loop, if_neg (by omega)]
    exact h

theorem Result.cast {code : Bytes} {i j : ℕ} {mask : MaskState} {state : LexState}
    {r : Option (Option Bytes)} (h : Result macros code i mask state r) (hij : i = j) :
    Result macros code j mask state r := hij ▸ h

/-- Two masks in one state that step alike, or finish alike, return the same. -/
theorem Result.congr {code : Bytes} {i : ℕ} {mask mask' : MaskState} {state : LexState}
    {r : Option (Option Bytes)}
    (hstep : i < code.length → step macros code i mask state = step macros code i mask' state)
    (hfinish : code.length ≤ i → finish macros code mask state = finish macros code mask' state)
    (h : Result macros code i mask' state r) : Result macros code i mask state r := by
  intro fuel hfuel
  rw [← h fuel hfuel]
  by_cases hi : i < code.length
  · cases fuel with
    | zero => omega
    | succ fuel => rw [loop, loop, if_pos hi, if_pos hi, hstep hi]
  · cases fuel with
    | zero =>
      rw [loop, loop, if_neg hi, if_neg hi]
      exact hfinish (by omega)
    | succ fuel =>
      rw [loop, loop, if_neg hi, if_neg hi]
      exact hfinish (by omega)

theorem finish_idle {code : Bytes} {mask : MaskState} (hk : mask.kStart = 0)
    (state state' : LexState) : finish macros code mask state = finish macros code mask state' := by
  simp [finish, hk]

/-- Without a pending run the state at the end of the text does not matter. -/
theorem Result.of_end {code : Bytes} {mask : MaskState} (hk : mask.kStart = 0)
    (state state' : LexState) {r : Option (Option Bytes)}
    (h : Result macros code code.length mask state' r) :
    Result macros code code.length mask state r := by
  refine .of_finish le_rfl ?_
  rw [finish_idle hk state state']
  have hrun := h 0 (by omega)
  rw [loop, if_neg (by omega)] at hrun
  exact hrun

/-! ### Positions -/

/-- What is left of the text at position `i`. -/
structure At (code : Bytes) (i : ℕ) (rest : Bytes) : Prop where
  le : i ≤ code.length
  drop_eq : code.drop i = rest

theorem At.zero (code : Bytes) : At code 0 code := ⟨Nat.zero_le _, rfl⟩

theorem At.length_eq {code rest : Bytes} {i : ℕ} (h : At code i rest) :
    i + rest.length = code.length := by
  have hlen := congrArg List.length h.drop_eq
  rw [List.length_drop] at hlen
  have hle := h.le
  omega

theorem At.eq_length {code : Bytes} {i : ℕ} (h : At code i []) : i = code.length := h.length_eq

theorem At.append {code xs ys : Bytes} {i : ℕ} (h : At code i (xs ++ ys)) :
    At code (i + xs.length) ys := by
  refine ⟨?_, ?_⟩
  · have hlen := h.length_eq
    rw [List.length_append] at hlen
    omega
  · rw [← List.drop_drop, h.drop_eq, List.drop_left]

theorem At.cast {code rest : Bytes} {i j : ℕ} (h : At code i rest) (hij : i = j) :
    At code j rest := hij ▸ h

theorem At.tail {code rest : Bytes} {c : UInt8} {i : ℕ} (h : At code i (c :: rest)) :
    At code (i + 1) rest := by
  have hsplit : At code i ([c] ++ rest) := h
  exact hsplit.append

theorem At.lt {code rest : Bytes} {c : UInt8} {i : ℕ} (h : At code i (c :: rest)) :
    i < code.length := by
  have hlen := h.length_eq
  rw [List.length_cons] at hlen
  omega

theorem At.getElem? {code rest : Bytes} {i : ℕ} (h : At code i rest) :
    code[i]? = rest.head? := by
  rw [List.head?_eq_getElem?, ← h.drop_eq, List.getElem?_drop, Nat.add_zero]

theorem At.next {code rest : Bytes} {c : UInt8} {i : ℕ} (h : At code i (c :: rest)) :
    code[i + 1]? = rest.head? := h.tail.getElem?

theorem At.next_lt {code rest : Bytes} {c : UInt8} {i : ℕ} (h : At code i (c :: rest)) :
    i + 1 < code.length ↔ rest ≠ [] := by
  have hlen := h.tail.length_eq
  rw [← List.length_pos_iff_ne_nil]
  omega

theorem At.slice {code xs ys : Bytes} {i : ℕ} (h : At code i (xs ++ ys)) :
    slice code i (i + xs.length) = some xs := by
  have hlen := h.length_eq
  rw [List.length_append] at hlen
  rw [Sequences.slice_eq_some (by omega) (by omega), List.drop_take, h.drop_eq]
  simp

/-! ### Quoted literals -/

theorem At.stepQuoted {code rest : Bytes} {c : UInt8} {i : ℕ} (h : At code i (c :: rest))
    (stop : UInt8) (inside : LexState) :
    stepQuoted code i stop inside =
      some (if c = backslash ∧ rest ≠ [] then (2, inside)
        else if c = stop then (1, .normal) else (1, inside)) := by
  unfold CMacro.stepQuoted
  rw [h.getElem?]
  have hlt := h.next_lt
  by_cases hesc : c = backslash ∧ rest ≠ []
  · simp [hesc, hlt]
  · by_cases hstop : c = stop
    · simp [hlt, hstop]
      grind
    · simp [hlt, hstop]
      grind

/-- The state inside a literal that ends at `stop`. -/
def Inside (stop : UInt8) (inside : LexState) : Prop :=
  (stop = quote ∧ inside = .string) ∨ (stop = apostrophe ∧ inside = .char)

theorem step_inside {stop : UInt8} {inside : LexState} (h : Inside stop inside) (code : Bytes)
    (i : ℕ) (mask : MaskState) :
    step macros code i mask inside =
      (stepQuoted code i stop inside).map fun next => (next.1, mask, next.2) := by
  obtain ⟨rfl, rfl⟩ | ⟨rfl, rfl⟩ := h <;> rfl

theorem Result.quoted {stop : UInt8} {inside : LexState} (hin : Inside stop inside)
    {code : Bytes} {mask : MaskState} (hk : mask.kStart = 0) {r : Option (Option Bytes)}
    (rest : Bytes) : ∀ i, At code i rest →
      Result macros code (i + (quotedTail stop rest).1.length) mask .normal r →
      Result macros code i mask inside r := by
  have hstop : stop ≠ backslash := by
    obtain ⟨rfl, rfl⟩ | ⟨rfl, rfl⟩ := hin <;> decide
  fun_induction quotedTail stop rest with
  | case1 =>
    intro i hi h
    obtain rfl := hi.eq_length
    exact h.of_end hk inside .normal
  | case2 =>
    intro i hi h
    refine .of_step mask inside hi.lt Nat.one_pos ?_ ?_
    · rw [step_inside hin, hi.stepQuoted]
      simp [hstop.symm]
    · obtain hend := hi.tail.eq_length
      rw [hend]
      exact Result.of_end hk inside .normal (hend ▸ h)
  | case3 escaped rest body rest' hbody ih =>
    intro i hi h
    refine .of_step mask inside hi.lt Nat.two_pos ?_ ?_
    · rw [step_inside hin, hi.stepQuoted]
      simp
    · refine ih (i + 2) hi.tail.tail ?_
      rw [hbody]
      exact h.cast (by simp only [List.length_cons]; omega)
  | case4 =>
    intro i hi h
    refine .of_step mask .normal hi.lt Nat.one_pos ?_ h
    rw [step_inside hin, hi.stepQuoted]
    simp_all
  | case5 c rest hc hne body rest' hbody ih =>
    intro i hi h
    refine .of_step mask inside hi.lt Nat.one_pos ?_ ?_
    · rw [step_inside hin, hi.stepQuoted]
      simp [hc, hne]
    · refine ih (i + 1) hi.tail ?_
      rw [hbody]
      exact h.cast (by simp only [List.length_cons]; omega)

/-! ### Comments -/

theorem At.stepLineComment {code rest : Bytes} {c : UInt8} {i : ℕ} (h : At code i (c :: rest)) :
    stepLineComment code i =
      some (if c = backslash ∧ rest.head? = some newline then (2, .lineComment)
        else if c = newline then (1, .normal) else (1, .lineComment)) := by
  have hlt := h.next_lt
  have hnext := h.next
  unfold CMacro.stepLineComment
  cases rest with
  | nil =>
    rw [h.getElem?]
    by_cases hend : c = newline <;> simp [hlt, hend]
  | cons d rest =>
    rw [h.getElem?, hnext]
    have hne : newline ≠ backslash := by decide
    by_cases hc : c = backslash
    · by_cases hd : d = newline <;> simp [hlt, hc, hd, hne.symm]
    · by_cases hend : c = newline <;> simp [hlt, hc, hend, hne]

theorem Result.lineComment {code : Bytes} {mask : MaskState} (hk : mask.kStart = 0)
    {r : Option (Option Bytes)} (rest : Bytes) : ∀ i, At code i rest →
      Result macros code (i + (lineTail rest).1.length) mask .normal r →
      Result macros code i mask .lineComment r := by
  fun_induction lineTail rest with
  | case1 =>
    intro i hi h
    obtain rfl := hi.eq_length
    exact h.of_end hk .lineComment .normal
  | case2 rest =>
    intro i hi h
    refine .of_step mask .normal hi.lt Nat.one_pos ?_ h
    simp [step, hi.stepLineComment, newline, backslash]
  | case3 =>
    intro i hi h
    refine .of_step mask .lineComment hi.lt Nat.one_pos ?_ ?_
    · simp [step, hi.stepLineComment, newline, backslash]
    · have hend := hi.tail.eq_length
      rw [hend]
      exact Result.of_end hk .lineComment .normal (hend ▸ h)
  | case4 rest body rest' hbody hne ih =>
    intro i hi h
    refine .of_step mask .lineComment hi.lt Nat.two_pos ?_ ?_
    · simp [step, hi.stepLineComment]
    · refine ih (i + 2) hi.tail.tail ?_
      rw [hbody]
      exact h.cast (by simp only [List.length_cons]; omega)
  | case5 next rest hnext body rest' hbody hne ih =>
    intro i hi h
    refine .of_step mask .lineComment hi.lt Nat.one_pos ?_ ?_
    · simp [step, hi.stepLineComment, hne, hnext]
    · refine ih (i + 1) hi.tail ?_
      rw [hbody]
      exact h.cast (by simp only [List.length_cons]; omega)
  | case6 c rest hne hback body rest' hbody ih =>
    intro i hi h
    refine .of_step mask .lineComment hi.lt Nat.one_pos ?_ ?_
    · simp [step, hi.stepLineComment, hne, hback]
    · refine ih (i + 1) hi.tail ?_
      rw [hbody]
      exact h.cast (by simp only [List.length_cons]; omega)

theorem At.stepBlockComment {code rest : Bytes} {c : UInt8} {i : ℕ} (h : At code i (c :: rest)) :
    stepBlockComment code i =
      some (if c = star ∧ rest.head? = some slash then (2, .normal) else (1, .blockComment)) := by
  have hlt := h.next_lt
  have hnext := h.next
  unfold CMacro.stepBlockComment
  cases rest with
  | nil => simp [h.getElem?, hlt]
  | cons d rest =>
    rw [h.getElem?, hnext]
    by_cases hc : c = star
    · by_cases hd : d = slash <;> simp [hlt, hc, hd]
    · simp [hc]

theorem Result.blockComment {code : Bytes} {mask : MaskState} (hk : mask.kStart = 0)
    {r : Option (Option Bytes)} (rest : Bytes) : ∀ i, At code i rest →
      Result macros code (i + (blockTail rest).1.length) mask .normal r →
      Result macros code i mask .blockComment r := by
  induction rest with
  | nil =>
    intro i hi h
    obtain rfl := hi.eq_length
    exact h.of_end hk .blockComment .normal
  | cons c rest ih =>
    intro i hi h
    have hstep := hi.stepBlockComment
    rw [blockTail] at h
    by_cases hclose : c = star ∧ rest.head? = some slash
    · rw [if_pos hclose] at h hstep
      refine .of_step mask .normal hi.lt Nat.two_pos ?_ h
      simp [step, hstep]
    · rw [if_neg hclose] at h hstep
      refine .of_step mask .blockComment hi.lt Nat.one_pos ?_ ?_
      · simp [step, hstep]
      · refine ih (i + 1) hi.tail ?_
        exact h.cast (by simp only [List.length_cons]; omega)

/-! ### Raw strings -/

theorem At.closing {code rest : Bytes} {c : UInt8} {i : ℕ} (h : At code i (c :: rest))
    (delim : Bytes) :
    code[i + 1 + delim.length]? = some quote ∧
        Sequences.slice code (i + 1) (i + 1 + delim.length) = some delim ↔
      delim ++ [quote] <+: rest := by
  constructor
  · rintro ⟨hquote, hslice⟩
    have hdrop := h.tail.drop_eq
    unfold Sequences.slice at hslice
    split at hslice
    · next hle =>
      rw [List.drop_take, hdrop, Nat.add_sub_cancel_left] at hslice
      obtain hdelim := Option.some_inj.mp hslice
      have hat : At code (i + 1) (delim ++ rest.drop delim.length) := by
        refine ⟨h.tail.le, ?_⟩
        rw [hdrop]
        conv_lhs => rw [← List.take_append_drop delim.length rest, hdelim]
      have hhead := hat.append.getElem?
      rw [hquote] at hhead
      refine ⟨(rest.drop delim.length).tail, ?_⟩
      rw [List.append_assoc, List.singleton_append, List.cons_head?_tail hhead.symm]
      conv_rhs => rw [← List.take_append_drop delim.length rest, hdelim]
    · cases hslice
  · rintro ⟨after, rfl⟩
    have hat := h.tail
    rw [List.append_assoc, List.singleton_append] at hat
    exact ⟨hat.append.getElem?, hat.slice⟩

theorem At.stepRawString {code rest delim after : Bytes} {c : UInt8} {i delimStart : ℕ}
    (h : At code i (c :: rest)) (hdelim : At code delimStart (delim ++ after)) :
    stepRawString code i delimStart delim.length =
      some (if c = closeParen ∧ delim ++ [quote] <+: rest then (delim.length + 2, .normal)
        else (1, .rawString delimStart delim.length)) := by
  have hclosing := h.closing delim
  unfold CMacro.stepRawString getRange
  rw [h.getElem?, hdelim.slice]
  by_cases hc : c = closeParen
  · by_cases hpre : delim ++ [quote] <+: rest
    · have hboth := hclosing.mpr hpre
      simp [hc, hpre, hboth]
      omega
    · have hboth := mt hclosing.mp hpre
      simp [hc, hpre]
      exact fun hquote hslice => (hboth ⟨hquote, hslice⟩).elim
  · simp [hc]

theorem Result.rawString {code delim after : Bytes} {delimStart : ℕ}
    (hdelim : At code delimStart (delim ++ after)) {mask : MaskState} (hk : mask.kStart = 0)
    {r : Option (Option Bytes)} (rest : Bytes) : ∀ i, At code i rest →
      Result macros code (i + (rawTail delim rest).1.length) mask .normal r →
      Result macros code i mask (.rawString delimStart delim.length) r := by
  induction rest with
  | nil =>
    intro i hi h
    obtain rfl := hi.eq_length
    exact h.of_end hk _ .normal
  | cons c rest ih =>
    intro i hi h
    have hstep := hi.stepRawString hdelim
    rw [rawTail] at h
    by_cases hclose : c = closeParen ∧ delim ++ [quote] <+: rest
    · rw [if_pos hclose] at h hstep
      refine .of_step mask .normal hi.lt (Nat.succ_pos (delim.length + 1)) ?_
        (h.cast ?_)
      · simp [step, hstep]
      · simp
    · rw [if_neg hclose] at h hstep
      refine .of_step mask (.rawString delimStart delim.length) hi.lt Nat.one_pos ?_ ?_
      · simp [step, hstep]
      · refine ih (i + 1) hi.tail ?_
        exact h.cast (by simp only [List.length_cons]; omega)

theorem At.delimEnd {code : Bytes} (delimStart : ℕ) (rest : Bytes) : ∀ k fuel stop,
    At code stop rest → stop = delimStart + k → k ≤ cppRawStringDelimMax →
    k + fuel = cppRawStringDelimMax + 2 →
      delimEnd code delimStart fuel stop =
        some (if k + (rest.takeWhile (· ≠ openParen)).length ≤ cppRawStringDelimMax then
          some (stop + (rest.takeWhile (· ≠ openParen)).length) else none) := by
  induction rest with
  | nil =>
    rintro k (_ | fuel) stop hat rfl hk hfuel
    · omega
    · have hend := hat.eq_length
      simp [CMacro.delimEnd, hend, hk]
  | cons c rest ih =>
    rintro k (_ | fuel) stop hat rfl hk hfuel
    · omega
    rw [CMacro.delimEnd, if_pos hat.lt, hat.getElem?]
    simp only [List.head?_cons, Option.bind_eq_bind, Option.bind_some]
    by_cases hc : c = openParen
    · simp [hc, hk]
    · rw [if_neg hc, List.takeWhile_cons_of_pos (by simpa using hc), List.length_cons]
      by_cases hfull : cppRawStringDelimMax ≤ delimStart + k - delimStart
      · rw [if_pos hfull, if_neg (by omega)]
        rfl
      · rw [if_neg hfull, ih (k + 1) fuel _ hat.tail (by omega) (by omega) (by omega)]
        generalize (rest.takeWhile (· ≠ openParen)).length = len
        have hcount : k + 1 + len = k + (len + 1) := by omega
        have hstop : delimStart + k + 1 + len = delimStart + k + (len + 1) := by omega
        rw [hcount, hstop]

theorem At.enterRawString {code rest : Bytes} {i : ℕ} (h : At code i (quote :: rest)) :
    enterRawString code i = some (match rawDelim rest with
      | some delim => (delim.length + 2, .rawString (i + 1) delim.length)
      | none => (1, .string)) := by
  have hend := At.delimEnd (i + 1) rest 0 (cppRawStringDelimMax + 2) (i + 1) h.tail
    rfl (Nat.zero_le _) (Nat.zero_add _)
  have hlen := h.tail.length_eq
  unfold CMacro.enterRawString rawDelim
  dsimp only
  rw [hend, Nat.zero_add]
  generalize rest.takeWhile (· ≠ openParen) = delim
  by_cases hshort : delim.length ≤ cppRawStringDelimMax
  · by_cases hlt : delim.length < rest.length
    · have hpos : ¬ code.length ≤ i + 1 + delim.length := by omega
      have hstop : i + 1 + delim.length - (i + 1) = delim.length := by omega
      have hn : i + 1 + delim.length - i + 1 = delim.length + 2 := by omega
      simp [hshort, hlt, hpos, hstop, hn]
    · have hpos : code.length ≤ i + 1 + delim.length := by omega
      simp [hshort, hlt, hpos]
  · simp [hshort]

/-- A step that opens a string behind a raw-string prefix. -/
theorem Result.prefixed {code rest : Bytes} {i : ℕ} (hi : At code i (quote :: rest))
    {mask mask' : MaskState} (hk : mask'.kStart = 0) {r : Option (Option Bytes)}
    (hstep : step macros code i mask .normal =
      (enterRawString code i).map fun next => (next.1, mask', next.2))
    (h : Result macros code (i + (quote :: (stringTail true rest).1).length) mask' .normal r) :
    Result macros code i mask .normal r := by
  rw [hi.enterRawString, Option.map_some] at hstep
  unfold stringTail at h
  rw [if_pos rfl] at h
  cases hraw : rawDelim rest with
  | none =>
    rw [hraw] at h hstep
    refine .of_step _ _ hi.lt Nat.one_pos hstep (Result.quoted (.inl ⟨rfl, rfl⟩) hk rest _ hi.tail ?_)
    exact h.cast (by simp only [List.length_cons]; omega)
  | some delim =>
    rw [hraw] at h hstep
    obtain ⟨-, hrest, -⟩ := rawDelim_eq_some hraw
    have hdelim := hi.tail
    rw [hrest] at hdelim
    have hbody := hdelim.append.tail
    refine .of_step _ _ hi.lt (Nat.succ_pos _) hstep (Result.rawString hdelim hk _ _
      (hbody.cast (by omega)) ?_)
    exact h.cast (by simp only [List.length_cons, List.length_append]; omega)

end BigCodeAnalysis.Languages.CMacro
