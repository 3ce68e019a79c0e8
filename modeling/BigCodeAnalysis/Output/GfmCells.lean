import BigCodeAnalysis.Output.Gfm

/-! What a reader finds in the cells of a written row, and when it shows a text as it was. -/

namespace BigCodeAnalysis.Output.Gfm

/-! ### Doubled backslashes -/

def doubleChar (c : Char) : List Char := if c = '\\' then ['\\', '\\'] else [c]

def double (text : List Char) : List Char := text.flatMap doubleChar

theorem double_cons (c : Char) (text : List Char) : double (c :: text) = doubleChar c ++ double text :=
  List.flatMap_cons

theorem double_cons_of_ne {c : Char} (h : c ≠ '\\') (text : List Char) :
    double (c :: text) = c :: double text := by
  rw [double_cons, doubleChar, if_neg h, List.singleton_append]

theorem double_append (a b : List Char) : double (a ++ b) = double a ++ double b :=
  List.flatMap_append

theorem double_replicate_backtick (n : ℕ) :
    double (List.replicate n backtick) = List.replicate n backtick := by
  induction n with
  | zero => rfl
  | succ n ih => rw [List.replicate_succ, double_cons_of_ne (by decide), ih]

theorem marks_double (text : List Char) : marks (double text) = marks text := by
  induction text with
  | nil => rfl
  | cons c text ih =>
    by_cases hc : c = '\\'
    · rw [double_cons, doubleChar, if_pos hc, marks_append, marks_cons c, ih, hc]
      rfl
    · rw [double_cons_of_ne hc, marks_cons c (double text), marks_cons c text, ih]

theorem length_le_length_double (text : List Char) : text.length ≤ (double text).length := by
  induction text with
  | nil => exact le_rfl
  | cons c text ih =>
    rw [double_cons, doubleChar, List.length_append, List.length_cons]
    split_ifs <;> simp only [List.length_cons, List.length_nil] <;> omega

/-- The lengths of the runs of backticks of a text, of which `run` have just been read. -/
def runsFrom (run : ℕ) : List Char → List ℕ
  | [] => if run = 0 then [] else [run]
  | c :: rest =>
    if c = backtick then runsFrom (run + 1) rest
    else if run = 0 then runsFrom 0 rest
    else run :: runsFrom 0 rest

def runs (text : List Char) : List ℕ := runsFrom 0 text

theorem runsFrom_replicate (n run : ℕ) (text : List Char) :
    runsFrom run (List.replicate n backtick ++ text) = runsFrom (run + n) text := by
  induction n generalizing run with
  | zero => rfl
  | succ n ih =>
    rw [List.replicate_succ, List.cons_append, runsFrom, if_pos rfl, ih, Nat.add_right_comm,
      Nat.add_assoc]

theorem runsFrom_succ {run : ℕ} {text : List Char} (h : text.head? ≠ some backtick) :
    runsFrom (run + 1) text = (run + 1) :: runs text := by
  cases text with
  | nil => rfl
  | cons c text =>
    have hc : c ≠ backtick := fun hc => h (congrArg some hc)
    rw [runs, runsFrom, if_neg hc, if_neg (Nat.succ_ne_zero run), runsFrom, if_neg hc, if_pos rfl]

theorem runs_cons_of_ne {c : Char} (h : c ≠ backtick) (text : List Char) :
    runs (c :: text) = runs text := by
  rw [runs, runsFrom, if_neg h, if_pos rfl, runs]

theorem runsFrom_double (run : ℕ) (text : List Char) :
    runsFrom run (double text) = runsFrom run text := by
  induction text generalizing run with
  | nil => rfl
  | cons c text ih =>
    by_cases hc : c = '\\'
    · have hne : ¬ '\\' = backtick := by decide
      rw [double_cons, doubleChar, if_pos hc, hc]
      simp only [List.cons_append, List.nil_append, runsFrom, if_neg hne, ih, if_true]
    · rw [double_cons_of_ne hc]
      simp only [runsFrom, ih]

theorem runs_double (text : List Char) : runs (double text) = runs text := runsFrom_double 0 text

/-- A run of backticks opens a span exactly if a run of its length follows. -/
theorem closeFrom_eq_none {n run : ℕ} {inside text : List Char} (h : n ≠ 0) :
    closeFrom n inside run text = none ↔ n ∉ runsFrom run text := by
  induction text generalizing inside run with
  | nil =>
    rw [closeFrom, runsFrom]
    by_cases hrun : run = n
    · rw [if_pos hrun, if_neg (hrun.trans_ne h)]
      simp [hrun]
    · rw [if_neg hrun]
      split_ifs <;> simp [Ne.symm hrun]
  | cons c text ih =>
    rw [closeFrom, runsFrom]
    by_cases hc : c = backtick
    · rw [if_pos hc, if_pos hc, ih]
    · rw [if_neg hc, if_neg hc]
      by_cases hrun : run = n
      · rw [if_pos hrun, if_neg (hrun.trans_ne h)]
        simp [hrun]
      · rw [if_neg hrun, ih]
        split_ifs
        · rfl
        · rw [List.mem_cons, not_or]
          exact (and_iff_right (Ne.symm hrun)).symm

/-- Text without markup once its backslashes are doubled: no two runs of backticks that pair up,
and no angle that opens raw HTML. -/
structure Inert (text : List Char) : Prop where
  runs : (runs text).Nodup
  raw : ∀ rest, '<' :: rest <:+ text → rawHtml (double rest) = none

theorem inert_nil : Inert [] where
  runs := List.nodup_nil
  raw rest h := by
    have hlong := h.length_le
    simp at hlong

theorem inert_cons_of_ne {c : Char} {text : List Char} (htick : c ≠ backtick) (hangle : c ≠ '<') :
    Inert (c :: text) ↔ Inert text := by
  have hsuffix (rest : List Char) : '<' :: rest <:+ c :: text ↔ '<' :: rest <:+ text := by
    rw [List.suffix_cons_iff, or_iff_right]
    exact fun h => hangle (List.cons.inj h).1.symm
  constructor
  · rintro ⟨hruns, hraw⟩
    exact ⟨runs_cons_of_ne htick text ▸ hruns, fun rest h => hraw rest ((hsuffix rest).mpr h)⟩
  · rintro ⟨hruns, hraw⟩
    exact ⟨(runs_cons_of_ne htick text).symm ▸ hruns,
      fun rest h => hraw rest ((hsuffix rest).mp h)⟩

theorem inert_cons_angle {text : List Char} :
    Inert ('<' :: text) ↔ rawHtml (double text) = none ∧ Inert text := by
  have hruns : runs ('<' :: text) = runs text := runs_cons_of_ne (by decide) text
  constructor
  · rintro ⟨hnodup, hraw⟩
    exact ⟨hraw text List.suffix_rfl, hruns ▸ hnodup,
      fun rest h => hraw rest (h.trans (List.suffix_cons _ _))⟩
  · rintro ⟨hfirst, hnodup, hraw⟩
    refine ⟨hruns.symm ▸ hnodup, fun rest h => ?_⟩
    rcases List.suffix_cons_iff.mp h with heq | h
    · rw [(List.cons.inj heq).2]
      exact hfirst
    · exact hraw rest h

theorem suffix_replicate_append {c : Char} (hc : c ≠ backtick) {rest text : List Char} (n : ℕ) :
    c :: rest <:+ List.replicate n backtick ++ text ↔ c :: rest <:+ text := by
  induction n with
  | zero => rfl
  | succ n ih =>
    rw [List.replicate_succ, List.cons_append, List.suffix_cons_iff, ih, or_iff_right]
    exact fun h => hc (List.cons.inj h).1

theorem inert_run {text : List Char} (n : ℕ) (h : text.head? ≠ some backtick) :
    Inert (List.replicate (n + 1) backtick ++ text) ↔ n + 1 ∉ runs text ∧ Inert text := by
  have hruns : runs (List.replicate (n + 1) backtick ++ text) = (n + 1) :: runs text := by
    rw [runs, runsFrom_replicate, Nat.zero_add, runsFrom_succ h]
  have hsuffix (rest : List Char) : '<' :: rest <:+ List.replicate (n + 1) backtick ++ text ↔
      '<' :: rest <:+ text :=
    suffix_replicate_append (by decide) (n + 1)
  constructor
  · rintro ⟨hnodup, hraw⟩
    rw [hruns, List.nodup_cons] at hnodup
    exact ⟨hnodup.1, hnodup.2, fun rest hrest => hraw rest ((hsuffix rest).mpr hrest)⟩
  · rintro ⟨hfirst, hnodup, hraw⟩
    refine ⟨?_, fun rest hrest => hraw rest ((hsuffix rest).mp hrest)⟩
    rw [hruns, List.nodup_cons]
    exact ⟨hfirst, hnodup⟩

/-! ### What doubled text shows -/

theorem displayFrom_nil (fuel : ℕ) : displayFrom fuel [] = [] := by
  cases fuel with
  | zero => rfl
  | succ fuel => rw [displayFrom, if_pos rfl]

theorem displayFrom_cons (fuel : ℕ) (c : Char) (text : List Char) :
    displayFrom (fuel + 1) (c :: text) =
      (inline (c :: text)).1 ++ displayFrom fuel (inline (c :: text)).2 := by
  rw [displayFrom, if_neg (List.cons_ne_nil c text)]

theorem codeSpan_replicate {text : List Char} (n : ℕ) (h : text.head? ≠ some backtick) :
    codeSpan (List.replicate n backtick ++ text) =
      match closeFrom (n + 1) [] 0 text with
      | some (inside, behind) => (stripSpan inside, behind)
      | none => (List.replicate (n + 1) backtick, text) := by
  have htake : (List.replicate n backtick ++ text).takeWhile (· = backtick) =
      List.replicate n backtick := by
    rw [List.takeWhile_append_of_pos fun c hc => decide_eq_true (List.eq_of_mem_replicate hc)]
    cases text with
    | nil => rw [List.takeWhile_nil, List.append_nil]
    | cons c text =>
      have hc : ¬decide (c = backtick) = true := by simpa using h
      rw [List.takeWhile_cons, if_neg hc, List.append_nil]
  rw [codeSpan]
  simp only [htake, List.length_replicate, List.drop_left' List.length_replicate]
  rfl


/-- Markup that is read is missed in what is shown. -/
theorem displayFrom_ne {fuel : ℕ} {c : Char} {text source : List Char}
    (hsource : marks source = marks (c :: text))
    (h : marks (inline (c :: text)).1 + marks (inline (c :: text)).2 < marks (c :: text)) :
    displayFrom (fuel + 1) (c :: text) ≠ source := by
  intro heq
  have hle := marks_displayFrom fuel (inline (c :: text)).2
  rw [displayFrom_cons] at heq
  rw [← heq, marks_append] at hsource
  omega

theorem displayFrom_double_cons {c : Char} (htick : c ≠ backtick) (hangle : c ≠ '<')
    (fuel : ℕ) (text : List Char) :
    displayFrom (fuel + 1) (double (c :: text)) = c :: displayFrom fuel (double text) := by
  by_cases hslash : c = '\\'
  · subst hslash
    rw [double_cons, doubleChar, if_pos rfl]
    exact displayFrom_cons fuel _ _
  · rw [double_cons_of_ne hslash, displayFrom_cons, inline, if_neg hslash, if_neg htick,
      if_neg hangle]
    rfl

theorem displayFrom_double_angle (fuel : ℕ) {text : List Char} (h : rawHtml (double text) = none) :
    displayFrom (fuel + 1) (double ('<' :: text)) = '<' :: displayFrom fuel (double text) := by
  have hinline : inline ('<' :: double text) = inlineHtml (double text) := rfl
  rw [double_cons_of_ne (by decide), displayFrom_cons, hinline, inlineHtml, h]
  rfl

theorem displayFrom_double_html (fuel : ℕ) {text behind : List Char}
    (h : rawHtml (double text) = some behind) :
    displayFrom (fuel + 1) (double ('<' :: text)) ≠ '<' :: text := by
  have hinline : inline ('<' :: double text) = inlineHtml (double text) := rfl
  have hle := marks_rawHtml h
  have hone : marks ['<'] = 1 := by decide
  have hnil : marks [] = 0 := rfl
  rw [double_cons_of_ne (by decide)]
  refine displayFrom_ne ?_ ?_
  · rw [marks_cons, marks_cons _ (double text), marks_double]
  · rw [hinline, inlineHtml, h, marks_cons]
    simp only
    omega

theorem double_run (n : ℕ) (text : List Char) :
    double (List.replicate (n + 1) backtick ++ text) =
      backtick :: (List.replicate n backtick ++ double text) := by
  rw [double_append, double_replicate_backtick, List.replicate_succ, List.cons_append]

theorem head?_double {text : List Char} (h : text.head? ≠ some backtick) :
    (double text).head? ≠ some backtick := by
  cases text with
  | nil => exact h
  | cons c text =>
    by_cases hc : c = '\\'
    · rw [double_cons, doubleChar, if_pos hc]
      exact fun heq => absurd (Option.some.inj heq) (by decide)
    · rw [double_cons_of_ne hc]
      exact h

theorem displayFrom_double_run (fuel : ℕ) {n : ℕ} {text : List Char}
    (hhead : text.head? ≠ some backtick) (h : closeFrom (n + 1) [] 0 (double text) = none) :
    displayFrom (fuel + 1) (double (List.replicate (n + 1) backtick ++ text)) =
      List.replicate (n + 1) backtick ++ displayFrom fuel (double text) := by
  have hinline (rest : List Char) : inline (backtick :: rest) = codeSpan rest := rfl
  rw [double_run, displayFrom_cons, hinline, codeSpan_replicate n (head?_double hhead), h]

theorem displayFrom_double_span (fuel : ℕ) {n : ℕ} {text : List Char}
    {found : List Char × List Char} (hhead : text.head? ≠ some backtick)
    (h : closeFrom (n + 1) [] 0 (double text) = some found) :
    displayFrom (fuel + 1) (double (List.replicate (n + 1) backtick ++ text)) ≠
      List.replicate (n + 1) backtick ++ text := by
  have hinline (rest : List Char) : inline (backtick :: rest) = codeSpan rest := rfl
  have hlt : marks (stripSpan found.1) + marks found.2 < marks (double text) := marks_span h
  rw [double_run]
  refine displayFrom_ne ?_ ?_
  · rw [← double_run, marks_double]
  · rw [hinline, codeSpan_replicate n (head?_double hhead), h, marks_cons, marks_append]
    simp only
    omega

/-- A text that begins with a backtick, as its first run and what is behind it. -/
theorem exists_run (text : List Char) : ∃ n behind, behind.head? ≠ some backtick ∧
    backtick :: text = List.replicate (n + 1) backtick ++ behind := by
  induction text with
  | nil => exact ⟨0, [], by decide, rfl⟩
  | cons c text ih =>
    by_cases hc : c = backtick
    · obtain ⟨n, behind, hhead, heq⟩ := ih
      refine ⟨n + 1, behind, hhead, ?_⟩
      rw [hc, heq, ← List.cons_append, ← List.replicate_succ]
    · exact ⟨0, c :: text, fun h => hc (Option.some.inj h), rfl⟩

/-- Text with its backslashes doubled shows itself exactly if it has no markup. -/
theorem displayFrom_double (fuel : ℕ) (text : List Char) (h : text.length ≤ fuel) :
    displayFrom fuel (double text) = text ↔ Inert text := by
  induction fuel generalizing text with
  | zero =>
    obtain rfl := List.length_eq_zero_iff.mp (Nat.le_zero.mp h)
    exact iff_of_true rfl inert_nil
  | succ fuel ih =>
    cases text with
    | nil => exact iff_of_true (displayFrom_nil _) inert_nil
    | cons c text =>
      have hshort : text.length ≤ fuel := Nat.succ_le_succ_iff.mp h
      by_cases htick : c = backtick
      · obtain ⟨n, behind, hhead, heq⟩ := exists_run text
        have hbehind : behind.length ≤ fuel := by
          have hlong := congrArg List.length heq
          rw [List.length_cons, List.length_append, List.length_replicate] at hlong
          omega
        rw [htick, heq, inert_run n hhead, ← runs_double]
        cases hclose : closeFrom (n + 1) [] 0 (double behind) with
        | none =>
          rw [displayFrom_double_run fuel hhead hclose, List.append_cancel_left_eq,
            ih behind hbehind]
          exact (and_iff_right ((closeFrom_eq_none n.succ_ne_zero).mp hclose)).symm
        | some found =>
          refine iff_of_false (displayFrom_double_span fuel hhead hclose) fun hinert => ?_
          rw [(closeFrom_eq_none n.succ_ne_zero).mpr hinert.1] at hclose
          cases hclose
      · by_cases hangle : c = '<'
        · subst hangle
          rw [inert_cons_angle]
          cases hraw : rawHtml (double text) with
          | none =>
            rw [displayFrom_double_angle fuel hraw, List.cons.injEq, ih text hshort]
            exact and_congr_left fun _ => iff_of_true rfl rfl
          | some behind =>
            exact iff_of_false (displayFrom_double_html fuel hraw) fun hinert => nomatch hinert.1
        · rw [displayFrom_double_cons htick hangle, List.cons.injEq, ih text hshort,
            inert_cons_of_ne htick hangle]
          exact and_iff_right rfl

/-! ### Cells -/

theorem dropWhile_double (text : List Char) :
    (double text).dropWhile isBlank = double (text.dropWhile isBlank) := by
  induction text with
  | nil => rfl
  | cons c text ih =>
    by_cases hblank : isBlank c = true
    · have hc : c ≠ '\\' := fun hc => absurd (hc ▸ hblank) (by decide)
      rw [double_cons_of_ne hc, List.dropWhile_cons_of_pos hblank,
        List.dropWhile_cons_of_pos hblank, ih]
    · rw [List.dropWhile_cons_of_neg hblank, double_cons, doubleChar]
      split_ifs
      · exact List.dropWhile_cons_of_neg (by decide)
      · exact List.dropWhile_cons_of_neg hblank

theorem double_reverse (text : List Char) : (double text).reverse = double text.reverse := by
  induction text with
  | nil => rfl
  | cons c text ih =>
    rw [double_cons, List.reverse_append, ih, List.reverse_cons, double_append]
    congr 1
    rw [doubleChar]
    split_ifs with hc
    · rw [hc]
      rfl
    · exact (double_cons_of_ne hc []).symm

theorem trim_double (text : List Char) : trim (double text) = double (trim text) := by
  rw [trim, trim, List.rdropWhile, List.rdropWhile, dropWhile_double, double_reverse,
    dropWhile_double, double_reverse]

theorem marks_dropWhile (text : List Char) :
    marks (text.dropWhile isBlank) + text.length =
      marks text + (text.dropWhile isBlank).length := by
  induction text with
  | nil => rfl
  | cons c text ih =>
    by_cases hblank : isBlank c = true
    · have hone : marks [c] = 1 := by
        rw [marks, List.countP_singleton, isMark, hblank]
        rfl
      rw [List.dropWhile_cons_of_pos hblank, List.length_cons, marks_cons c text, hone]
      omega
    · rw [List.dropWhile_cons_of_neg hblank]

theorem marks_reverse (text : List Char) : marks text.reverse = marks text :=
  List.countP_reverse

/-- Trimmed blanks are missing marks. -/
theorem marks_trim (text : List Char) :
    marks (trim text) + text.length = marks text + (trim text).length := by
  have hfirst := marks_dropWhile text
  have hlast := marks_dropWhile (text.dropWhile isBlank).reverse
  rw [trim, List.rdropWhile, marks_reverse, List.length_reverse]
  rw [marks_reverse, List.length_reverse] at hlast
  omega

theorem trim_sublist (text : List Char) : (trim text).Sublist text :=
  (List.rdropWhile_prefix isBlank _).sublist.trans (List.dropWhile_sublist _)

/-- A cell with its backslashes doubled shows the text exactly if that has no blanks at its ends
and no markup. -/
theorem display_double (text : List Char) :
    display (trim (double text)) = text ↔ trim text = text ∧ Inert text := by
  by_cases htrim : trim text = text
  · rw [trim_double, htrim, and_iff_right rfl, display]
    exact displayFrom_double _ text (length_le_length_double text)
  · refine iff_of_false (fun heq => htrim ?_) fun h => htrim h.1
    have hle := marks_display (trim (double text))
    rw [heq, trim_double, marks_double] at hle
    have hmarks := marks_trim text
    have hlong := (trim_sublist text).length_le
    exact (trim_sublist text).eq_of_length (by omega)

/-- What a code span shows as it stands: something, and not with a space at both ends. -/
def SpanExact (text : List Char) : Prop :=
  text ≠ [] ∧ ¬(text.head? = some ' ' ∧ text.getLast? = some ' ' ∧ text.any (· ≠ ' '))

instance (text : List Char) : Decidable (SpanExact text) :=
  inferInstanceAs (Decidable (_ ∧ _))

theorem closeFrom_one {text : List Char} (h : backtick ∉ text) (inside : List Char) :
    closeFrom 1 inside 0 (text ++ [backtick]) = some (inside ++ text, []) := by
  induction text generalizing inside with
  | nil => simp [closeFrom]
  | cons c text ih =>
    rw [List.mem_cons, not_or] at h
    rw [List.cons_append, closeFrom, if_neg (Ne.symm h.1), if_neg Nat.zero_ne_one, ih h.2]
    simp

theorem stripSpan_eq_self {text : List Char} (hne : text ≠ []) :
    stripSpan text = text ↔ SpanExact text := by
  rw [stripSpan, SpanExact, and_iff_right hne]
  split_ifs with hspaces
  · refine iff_of_false (fun heq => ?_) (not_not_intro hspaces)
    have hlength := congrArg List.length heq
    rw [List.length_dropLast, List.length_tail] at hlength
    have hpos := List.length_pos_iff.mpr hne
    omega
  · exact iff_of_true rfl hspaces

theorem trim_span (text : List Char) :
    trim (backtick :: (text ++ [backtick])) = backtick :: (text ++ [backtick]) := by
  have htick : ¬isBlank backtick = true := by decide
  rw [trim, List.dropWhile_cons_of_neg htick, ← List.cons_append,
    List.rdropWhile_concat_neg _ _ _ htick]

/-- A code span around a text without backticks. -/
theorem display_span {text : List Char} (h : backtick ∉ text) :
    display (trim (backtick :: (text ++ [backtick]))) = text ↔ SpanExact text := by
  rw [trim_span, display, List.length_cons, displayFrom_cons]
  have hinline : inline (backtick :: (text ++ [backtick])) = codeSpan (text ++ [backtick]) := rfl
  by_cases hne : text = []
  · subst hne
    exact iff_of_false (by decide) fun hexact => hexact.1 rfl
  · have hhead : (text ++ [backtick]).head? ≠ some backtick := by
      rw [List.head?_append_of_ne_nil _ hne]
      exact fun heq => h (List.mem_of_mem_head? heq)
    have hspan := codeSpan_replicate 0 hhead
    rw [List.replicate_zero, List.nil_append, Nat.zero_add, closeFrom_one h] at hspan
    rw [hinline, hspan, displayFrom_nil, List.append_nil, List.nil_append]
    exact stripSpan_eq_self hne

/-! ### Rows -/

def guardChar (c : Char) : List Char := if c = '|' then ['\\', '|'] else [c]

/-- The text of a cell, with a backslash before each pipe. -/
def guardPipes (text : List Char) : List Char := text.flatMap guardChar

theorem guardPipes_cons (c : Char) (text : List Char) :
    guardPipes (c :: text) = guardChar c ++ guardPipes text :=
  List.flatMap_cons

theorem head?_guardPipes {text rest : List Char} (h : rest.head? ≠ some '|') :
    (guardPipes text ++ rest).head? ≠ some '|' := by
  cases text with
  | nil => exact h
  | cons c text =>
    rw [guardPipes_cons, guardChar]
    split_ifs with hc
    · exact fun heq => absurd (Option.some.inj heq) (by decide)
    · exact fun heq => hc (Option.some.inj heq)

theorem splitFrom_cons {c : Char} {rest : List Char} (hc : c ≠ '|') (hrest : rest.head? ≠ some '|')
    (cell : List Char) : splitFrom cell (c :: rest) = splitFrom (cell ++ [c]) rest := by
  refine splitFrom.eq_4 cell c rest (fun behind _ hbehind => ?_) hc
  rw [hbehind] at hrest
  exact hrest rfl

theorem splitFrom_guardPipes (text cell rest : List Char) :
    splitFrom cell (guardPipes text ++ ' ' :: '|' :: rest) =
      (cell ++ (text ++ [' '])) :: splitFrom [] rest := by
  have hspace : (' ' :: '|' :: rest).head? ≠ some '|' :=
    fun h => absurd (Option.some.inj h) (by decide)
  induction text generalizing cell with
  | nil => rfl
  | cons c text ih =>
    rw [guardPipes_cons, List.append_assoc, guardChar]
    split_ifs with hc
    · rw [hc]
      show splitFrom (cell ++ ['|']) (guardPipes text ++ ' ' :: '|' :: rest) = _
      rw [ih, List.append_assoc]
      rfl
    · rw [List.singleton_append, splitFrom_cons hc (head?_guardPipes hspace), ih,
        List.append_assoc]
      rfl

/-- A text with the spaces around it, one at least on either side. -/
structure PaddedCell where
  text : List Char
  before : ℕ
  behind : ℕ

namespace PaddedCell

def written (cell : PaddedCell) : List Char :=
  List.replicate (cell.before + 1) ' ' ++ guardPipes cell.text ++
    List.replicate (cell.behind + 1) ' '

def content (cell : PaddedCell) : List Char :=
  List.replicate (cell.before + 1) ' ' ++ cell.text ++ List.replicate (cell.behind + 1) ' '

end PaddedCell

def rowLine (cells : List PaddedCell) : List Char :=
  '|' :: cells.flatMap fun cell => cell.written ++ ['|']

theorem guardPipes_append (a b : List Char) : guardPipes (a ++ b) = guardPipes a ++ guardPipes b :=
  List.flatMap_append

theorem guardPipes_replicate (n : ℕ) : guardPipes (List.replicate n ' ') = List.replicate n ' ' := by
  induction n with
  | zero => rfl
  | succ n ih =>
    rw [List.replicate_succ, guardPipes_cons, ih]
    rfl

theorem splitFrom_written (cell : PaddedCell) (rest : List Char) :
    splitFrom [] (cell.written ++ '|' :: rest) = cell.content :: splitFrom [] rest := by
  have hwritten : cell.written ++ '|' :: rest =
      guardPipes (List.replicate (cell.before + 1) ' ' ++ cell.text ++
        List.replicate cell.behind ' ') ++ ' ' :: '|' :: rest := by
    rw [PaddedCell.written, guardPipes_append, guardPipes_append, guardPipes_replicate,
      guardPipes_replicate, List.replicate_succ' (n := cell.behind)]
    simp only [List.append_assoc, List.singleton_append]
  rw [hwritten, splitFrom_guardPipes, PaddedCell.content, List.replicate_succ' (n := cell.behind)]
  simp only [List.append_assoc, List.nil_append]

theorem splitFrom_cells (cells : List PaddedCell) :
    splitFrom [] (cells.flatMap fun cell => cell.written ++ ['|']) =
      cells.map PaddedCell.content ++ [[]] := by
  induction cells with
  | nil => rfl
  | cons cell cells ih =>
    rw [List.flatMap_cons, List.append_assoc, List.singleton_append, splitFrom_written, ih]
    rfl

theorem dropWhile_of_not_blank {text : List Char} (h : ∀ c ∈ text, isBlank c = false) :
    text.dropWhile isBlank = text := by
  cases text with
  | nil => rfl
  | cons c text =>
    exact List.dropWhile_cons_of_neg (Bool.eq_false_iff.mp (h c List.mem_cons_self))

theorem trim_of_not_blank {text : List Char} (h : ∀ c ∈ text, isBlank c = false) :
    trim text = text := by
  rw [trim, dropWhile_of_not_blank h, List.rdropWhile,
    dropWhile_of_not_blank fun c hc => h c (List.mem_reverse.mp hc), List.reverse_reverse]

theorem isDelimiter_replicate (n : ℕ) : isDelimiter (List.replicate (n + 1) '-') = true := by
  have hhead : (List.replicate (n + 1) '-').head? ≠ some ':' :=
    fun h => absurd (Option.some.inj h) (by decide)
  have hlast : (List.replicate (n + 1) '-').getLast? ≠ some ':' := by
    rw [List.replicate_succ', List.getLast?_concat]
    exact fun h => absurd (Option.some.inj h) (by decide)
  rw [isDelimiter, if_neg hhead]
  simp only [if_neg hlast]
  simp

theorem isDelimiter_replicate_colon (n : ℕ) :
    isDelimiter (List.replicate (n + 1) '-' ++ [':']) = true := by
  have hhead : (List.replicate (n + 1) '-' ++ [':']).head? ≠ some ':' :=
    fun h => absurd (Option.some.inj h) (by decide)
  rw [isDelimiter, if_neg hhead]
  simp only [List.getLast?_concat, if_true, List.dropLast_concat]
  simp

theorem dropWhile_replicate_append (n : ℕ) (text : List Char) :
    (List.replicate n ' ' ++ text).dropWhile isBlank = text.dropWhile isBlank := by
  refine List.dropWhile_append_of_pos fun c hc => ?_
  rw [List.eq_of_mem_replicate hc]
  rfl

theorem trim_append_replicate (text : List Char) (n : ℕ) :
    trim (text ++ List.replicate n ' ') = trim text := by
  rw [trim, trim, List.dropWhile_append]
  split_ifs with hempty
  · have hnil := dropWhile_replicate_append n []
    rw [List.append_nil] at hnil
    rw [List.isEmpty_iff.mp hempty, hnil]
    rfl
  · rw [List.rdropWhile, List.reverse_append, List.reverse_replicate, dropWhile_replicate_append]
    rfl

theorem trim_content (cell : PaddedCell) : trim cell.content = trim cell.text := by
  rw [PaddedCell.content, trim_append_replicate, trim, dropWhile_replicate_append]
  rfl

theorem dropBlankHead_nil (cells : List (List Char)) : dropBlankHead ([] :: cells) = cells := rfl

/-- A reader finds the texts of a row, however they are padded. -/
theorem readCells_rowLine (cells : List PaddedCell) :
    readCells (rowLine cells) = cells.map fun cell => trim cell.text := by
  have hsplit : splitFrom [] (rowLine cells) = [] :: (cells.map PaddedCell.content ++ [[]]) := by
    rw [← splitFrom_cells]
    rfl
  rw [readCells, hsplit, dropBlankHead_nil, List.reverse_append, List.reverse_singleton,
    List.singleton_append, dropBlankHead_nil, List.reverse_reverse, List.map_map]
  exact List.map_congr_left fun cell _ => trim_content cell

end BigCodeAnalysis.Output.Gfm
