import BigCodeAnalysis.Suppression.Marker

/-! The grammar of suppression comments. A comment is introduced by its openers and the native
prefix; behind the verb stands nothing but closers, or a list that ends at the first closing
parenthesis. Everything else behind the prefix is reported. -/

namespace BigCodeAnalysis.Suppression

open Sequences Spaces

/-! ### Cutting off the delimiters -/

theorem isOpener_of_isWhitespace (c : Char) (h : isWhitespace c = true) : isOpener c = true := by
  simp [isOpener, h]

theorem isCloser_of_isWhitespace (c : Char) (h : isWhitespace c = true) : isCloser c = true := by
  simp [isCloser, h]

theorem isOpener_or_of_isHash (c : Char) (h : isHash c = true) :
    isOpener c = true ∨ c = '#' := by
  rcases Bool.or_eq_true_iff.mp h with hhash | hblank
  · exact .inr (of_decide_eq_true hhash)
  · exact .inl (isOpener_of_isWhitespace c hblank)

theorem around_trim (text : List Char) : Around isOpener isCloser (trim text) text :=
  (around_strip text).mono isOpener_of_isWhitespace isCloser_of_isWhitespace

theorem around_stripBlockDelims (text : List Char) :
    Around isOpener isCloser (stripBlockDelims text) text := by
  have hstart : ∀ s : List Char,
      Around isOpener isCloser ((stripStart "/*".toList s).getD s) s := by
    intro s
    cases h : stripStart "/*".toList s with
    | none => exact .refl s
    | some rest =>
      refine ⟨"/*".toList, [], List.all_eq_true.mp (by decide), nofun, ?_⟩
      rw [List.append_nil]
      exact stripStart_eq_some.mp h
  have hstop : ∀ s : List Char,
      Around isOpener isCloser ((stripEnd "*/".toList s).getD s) s := by
    intro s
    cases h : stripEnd "*/".toList s with
    | none => exact .refl s
    | some rest =>
      exact ⟨[], "*/".toList, nofun, List.all_eq_true.mp (by decide), stripEnd_eq_some.mp h⟩
  exact (hstop _).trans (hstart text)

/-- A stripped text has no white space at its ends either. -/
theorem Stripped.trim_eq {text : List Char} (h : Stripped isOpener isCloser text) :
    trim text = text := by
  refine Stripped.strip_eq ⟨fun c hc => ?_, fun c hc => ?_⟩
  · have hopener := h.1 c hc
    by_contra hblank
    rw [isOpener_of_isWhitespace c (by simpa using hblank)] at hopener
    cases hopener
  · have hcloser := h.2 c hc
    by_contra hblank
    rw [isCloser_of_isWhitespace c (by simpa using hblank)] at hcloser
    cases hcloser

/-- Cutting off the delimiters in several goes is stripping openers and closers. -/
theorem noOpener_eq (text : List Char) : noOpener text = strip isOpener isCloser text := by
  have haround : Around isOpener isCloser (trim (stripBlockDelims (trim text))) text :=
    ((around_trim _).trans (around_stripBlockDelims _)).trans (around_trim text)
  rw [noOpener, haround.strip_eq]
  exact Stripped.trim_eq (stripped_strip _)

/-! ### The native prefix -/

/-- Comment openers, any number of `#`, and the native prefix in front of `rest`. -/
def Introduced (text rest : List Char) : Prop :=
  ∃ pre hashes, (∀ c ∈ pre, isOpener c = true) ∧ (∀ c ∈ hashes, isHash c = true) ∧
    text = pre ++ hashes ++ "bca:".toList ++ rest

theorem mem_dropWhile {p q : Char → Bool} {l : List Char} (h : ∀ c ∈ l, q c = true) :
    ∀ c ∈ l.dropWhile p, q c = true :=
  fun c hc => h c ((List.dropWhile_suffix p).mem hc)

/-- No directive of the other dialect starts with `#` and the letter `b`. -/
theorem parseLizard_hashes {hashes : List Char} (h : ∀ c ∈ hashes, isHash c = true)
    (rest : List Char) : parseLizard (hashes ++ 'b' :: rest) = none := by
  unfold parseLizard
  cases hashes with
  | nil => rfl
  | cons c hashes =>
    cases hstart : stripStart ['#'] (c :: hashes ++ 'b' :: rest) with
    | none => rfl
    | some tail =>
      have htail : hashes ++ 'b' :: rest = tail := by
        have heq := stripStart_eq_some.mp hstart
        rw [List.cons_append, List.singleton_append] at heq
        exact (List.cons.inj heq).2
      rw [Option.bind_some, ← htail, dropWhile_append_cons _ _ (by decide)]
      have hlizard : stripStart "lizard".toList
          (hashes.dropWhile isWhitespace ++ 'b' :: rest) = none := by
        refine stripStart_eq_none.mpr fun hstart => ?_
        have hrest : ∀ c ∈ hashes.dropWhile isWhitespace, isHash c = true :=
          mem_dropWhile fun c hc => h c (List.mem_cons_of_mem _ hc)
        obtain ⟨more, hmore⟩ := hstart
        cases hdrop : hashes.dropWhile isWhitespace with
        | nil =>
          rw [hdrop] at hmore
          exact absurd (List.cons.inj hmore).1 (by decide)
        | cons d ds =>
          rw [hdrop] at hmore hrest
          have hd := hrest d List.mem_cons_self
          rw [← (List.cons.inj hmore).1] at hd
          exact absurd hd (by decide)
      rw [hlizard]
      rfl

theorem parseLizard_candidate {hashes : List Char} (h : ∀ c ∈ hashes, isHash c = true)
    (rest : List Char) : parseLizard (lizardCandidate (hashes ++ 'b' :: rest)) = none := by
  unfold lizardCandidate
  split_ifs
  · exact parseLizard_hashes h rest
  · cases hstart : stripStart ['#'] (hashes ++ 'b' :: rest) with
    | none => exact parseLizard_hashes h rest
    | some tail =>
      have heq := stripStart_eq_some.mp hstart
      rw [Option.map_some, Option.getD_some]
      cases hashes with
      | nil => exact absurd (List.cons.inj heq).1 (by decide)
      | cons c hashes =>
        rw [List.cons_append, List.singleton_append] at heq
        rw [← (List.cons.inj heq).2, dropWhile_append_cons _ _ (by decide)]
        exact parseLizard_hashes
          (mem_dropWhile fun c hc => h c (List.mem_cons_of_mem _ hc)) rest

/-- An introduced comment is read without its delimiters. -/
theorem Introduced.parseMarker_eq {text rest : List Char} (h : Introduced text rest) :
    parseMarker text = parseNative ("bca:".toList ++ rest.rdropWhile isCloser) := by
  obtain ⟨pre, hashes, hpre, hhashes, rfl⟩ := h
  set text := pre ++ hashes ++ "bca:".toList ++ rest with htext
  have hcons : "bca:".toList = 'b' :: "ca:".toList := rfl
  have hstrip : noOpener text = hashes.dropWhile isOpener ++ 'b' ::
      ("ca:".toList ++ rest.rdropWhile isCloser) := by
    have haround : Around isOpener isCloser (hashes ++ "bca:".toList ++ rest) text := by
      refine ⟨pre, [], hpre, nofun, ?_⟩
      simp only [htext, List.append_assoc, List.append_nil]
    rw [noOpener_eq, haround.strip_eq, hcons]
    have hsplit : hashes ++ 'b' :: "ca:".toList ++ rest =
        hashes ++ 'b' :: ['c', 'a'] ++ ':' :: rest := by
      simp
    have hopen : strip isOpener isCloser (hashes ++ 'b' :: "ca:".toList ++ rest) =
        (hashes.dropWhile isOpener ++ 'b' :: ("ca:".toList ++ rest)).rdropWhile isCloser := by
      unfold strip
      rw [List.append_assoc, List.cons_append, dropWhile_append_cons _ _ (by decide)]
    have hclose : hashes.dropWhile isOpener ++ 'b' :: ("ca:".toList ++ rest) =
        (hashes.dropWhile isOpener ++ ['b', 'c', 'a']) ++ ':' :: rest := by
      simp
    rw [hopen, hclose, rdropWhile_append_cons _ _ (by decide)]
    simp
  have hrest : ∀ c ∈ hashes.dropWhile isOpener, isHash c = true := mem_dropWhile hhashes
  have hfound : findSub "bca:".toList text ≠ none := by
    refine fun hnone => findSub_eq_none.mp hnone ⟨pre ++ hashes, rest, htext.symm⟩
  unfold parseMarker
  rw [if_neg fun hnone => hfound (Option.isNone_iff_eq_none.mp hnone.1), hstrip,
    parseLizard_candidate hrest]
  have hbody : ((hashes.dropWhile isOpener ++ 'b' ::
      ("ca:".toList ++ rest.rdropWhile isCloser)).dropWhile isHash) =
        "bca:".toList ++ rest.rdropWhile isCloser := by
    rw [dropWhile_append_cons _ _ (by decide), List.dropWhile_eq_nil_iff.mpr hrest,
      List.nil_append, hcons, List.cons_append]
  have htrim : trim ("bca:".toList ++ rest.rdropWhile isCloser) =
      "bca:".toList ++ rest.rdropWhile isCloser := by
    refine Stripped.strip_eq ⟨fun c hc => ?_, fun c hc => ?_⟩
    · obtain rfl : 'b' = c := Option.some.inj hc
      decide
    · rw [List.getLast?_append] at hc
      rcases Option.or_eq_some_iff.mp hc with hlast | ⟨-, hlast⟩
      · obtain ⟨hne, rfl⟩ := List.mem_getLast?_eq_getLast hlast
        have hnot := List.rdropWhile_last_not isCloser rest hne
        by_contra hblank
        exact hnot (isCloser_of_isWhitespace _ (by simpa using hblank))
      · obtain rfl : ':' = c := Option.some.inj hlast
        decide
  rw [hbody, htrim]

/-! ### Behind the prefix -/

theorem not_isVerbChar (c : Char) (h : isWhitespace c = true) : isVerbChar c = false := by
  have hminus : ¬ c = '-' := by
    rintro rfl
    exact absurd h (by decide)
  have hnat : c.toNat = c.val.toNat := rfl
  simp only [isWhitespace, Bool.or_eq_true, Bool.and_eq_true, decide_eq_true_eq, hnat] at h
  have hletter : c.isAlpha = (decide ('A'.val ≤ c.val ∧ c.val ≤ 'Z'.val) ||
      decide ('a'.val ≤ c.val) && decide (c.val ≤ 'z'.val)) := rfl
  simp only [isVerbChar, hletter, hminus, decide_false, Bool.or_false, Bool.or_eq_false_iff,
    Bool.and_eq_false_iff, decide_eq_false_iff_not, UInt32.le_iff_toNat_le]
  have hA : ('A'.val).toNat = 65 := rfl
  have hZ : ('Z'.val).toNat = 90 := rfl
  have ha : ('a'.val).toNat = 97 := rfl
  have hz : ('z'.val).toNat = 122 := rfl
  omega

def verbOf : SuppressionKind → List Char
  | .function => "suppress".toList
  | .file => "suppress-file".toList

theorem verbOf_chars (kind : SuppressionKind) : ∀ c ∈ verbOf kind, isVerbChar c = true := by
  apply List.all_eq_true.mp
  cases kind <;> decide

/-- A verb is read up to the first character that cannot belong to one. -/
theorem parseNative_verb {blank after : List Char} (kind : SuppressionKind)
    (hblank : ∀ c ∈ blank, isWhitespace c = true) (hafter : ∀ c ∈ after.head?, isVerbChar c = false) :
    parseNative ("bca:".toList ++ (blank ++ verbOf kind ++ after)) =
      parseScope ("bca:".toList ++ (blank ++ verbOf kind ++ after)) kind after := by
  have hstart : (blank ++ verbOf kind ++ after).dropWhile isWhitespace = verbOf kind ++ after := by
    rw [List.append_assoc, List.dropWhile_append_of_pos hblank]
    cases kind <;> exact List.dropWhile_cons_of_neg (by decide)
  have htake : after.takeWhile isVerbChar = [] ∧ after.dropWhile isVerbChar = after := by
    cases after with
    | nil => exact ⟨rfl, rfl⟩
    | cons c after =>
      have hc := hafter c rfl
      exact ⟨List.takeWhile_cons_of_neg (by simp [hc]), List.dropWhile_cons_of_neg (by simp [hc])⟩
  have hverb : (verbOf kind ++ after).takeWhile isVerbChar = verbOf kind ∧
      (verbOf kind ++ after).dropWhile isVerbChar = after := by
    rw [List.takeWhile_append_of_pos (verbOf_chars kind),
      List.dropWhile_append_of_pos (verbOf_chars kind), htake.1, htake.2, List.append_nil]
    exact ⟨rfl, rfl⟩
  have hne : verbOf kind ++ after ≠ [] := by
    cases kind <;> exact List.cons_ne_nil _ _
  unfold parseNative
  rw [stripStart_eq_some.mpr rfl]
  dsimp only
  rw [hstart, if_neg hne, hverb.1, hverb.2]
  cases kind with
  | function => exact if_pos rfl
  | file => exact (if_neg (by decide)).trans (if_pos rfl)

theorem parseScope_open (body : List Char) (kind : SuppressionKind) {after list : List Char}
    (h : after.dropWhile isWhitespace = '(' :: list) : parseScope body kind after =
      if list.contains ')' then
        .partly ⟨kind, .some (parseMetricList (list.takeWhile fun c => c ≠ ')')).1, .native⟩
          (parseMetricList (list.takeWhile fun c => c ≠ ')')).2
      else .rejected (.malformedBody body) := by
  unfold parseScope
  rw [h]
  rfl

/-- A scan is empty or gives a directive or a diagnostic. -/
def MarkerScan.Answers (scan : MarkerScan) : Prop :=
  scan.suppression.isSome = true ∨ scan.diagnostics ≠ []

theorem parseScope_answers (body : List Char) (kind : SuppressionKind) (after : List Char) :
    (parseScope body kind after).Answers := by
  unfold parseScope
  split
  · exact .inl rfl
  · split_ifs
    · exact .inl rfl
    · exact .inr (List.cons_ne_nil _ _)
  · exact .inr (List.cons_ne_nil _ _)

theorem parseNative_answers {rest : List Char} (h : rest.dropWhile isWhitespace ≠ []) :
    (parseNative ("bca:".toList ++ rest)).Answers := by
  unfold parseNative
  rw [stripStart_eq_some.mpr rfl]
  dsimp only
  rw [if_neg h]
  split_ifs
  · exact parseScope_answers _ _ _
  · exact parseScope_answers _ _ _
  · exact .inr (List.cons_ne_nil _ _)
  · exact .inr (List.cons_ne_nil _ _)

/-- A text behind the prefix that is more than white space and closers is answered. -/
theorem Introduced.answers {text rest : List Char} (h : Introduced text rest)
    (hrest : ∃ c ∈ rest, isCloser c = false) : (parseMarker text).Answers := by
  rw [h.parseMarker_eq]
  refine parseNative_answers fun hempty => ?_
  have hne : rest.rdropWhile isCloser ≠ [] := by
    intro hnil
    obtain ⟨c, hc, hcloser⟩ := hrest
    rw [List.rdropWhile_eq_nil_iff.mp hnil c hc] at hcloser
    cases hcloser
  have hnot := List.rdropWhile_last_not isCloser rest hne
  exact hnot (isCloser_of_isWhitespace _
    (List.dropWhile_eq_nil_iff.mp hempty _ (List.getLast_mem hne)))

/-- A list silences its usable names and reports the distinct others. -/
theorem Introduced.list {text blank blank' inside tail : List Char} (kind : SuppressionKind)
    (h : Introduced text (blank ++ verbOf kind ++ (blank' ++ '(' :: (inside ++ ')' :: tail))))
    (hblank : ∀ c ∈ blank, isWhitespace c = true) (hblank' : ∀ c ∈ blank', isWhitespace c = true)
    (hinside : ')' ∉ inside) :
    parseMarker text = ⟨some ⟨kind,
        .some ((names (inside.splitOn ',')).filterMap usable).toFinset, .native⟩,
      diagnosticsOf (unusableNames (names (inside.splitOn ',')))⟩ := by
  have hclose : (blank ++ verbOf kind ++ (blank' ++ '(' :: (inside ++ ')' :: tail))).rdropWhile
      isCloser = blank ++ verbOf kind ++ (blank' ++ '(' :: (inside ++ ')' ::
        tail.rdropWhile isCloser)) := by
    have hsplit : ∀ t, blank ++ verbOf kind ++ (blank' ++ '(' :: (inside ++ ')' :: t)) =
        (blank ++ verbOf kind ++ blank' ++ '(' :: inside) ++ ')' :: t := by
      intro t
      simp only [List.append_assoc, List.cons_append]
    rw [hsplit, rdropWhile_append_cons _ _ (by decide), ← hsplit]
  have hhead : ∀ c ∈ (blank' ++ '(' :: (inside ++ ')' :: tail.rdropWhile isCloser)).head?,
      isVerbChar c = false := by
    intro c hc
    cases blank' with
    | nil =>
      obtain rfl : '(' = c := Option.some.inj hc
      decide
    | cons d blank' =>
      obtain rfl : d = c := Option.some.inj hc
      exact not_isVerbChar d (hblank' d List.mem_cons_self)
  have hlist : (inside ++ ')' :: tail.rdropWhile isCloser).takeWhile (fun c => c ≠ ')') = inside := by
    rw [List.takeWhile_append_of_pos fun c hc => by
      simpa using fun heq : c = ')' => hinside (heq ▸ hc)]
    simp
  have hopen : (blank' ++ '(' :: (inside ++ ')' :: tail.rdropWhile isCloser)).dropWhile
      isWhitespace = '(' :: (inside ++ ')' :: tail.rdropWhile isCloser) := by
    rw [dropWhile_append_cons _ _ (by decide), List.dropWhile_eq_nil_iff.mpr hblank',
      List.nil_append]
  rw [h.parseMarker_eq, hclose, parseNative_verb kind hblank hhead, parseScope_open _ _ hopen,
    if_pos (by simp), hlist, parseMetricList_eq]
  rfl

/-! ### Directives for all metrics -/

def phraseOf : SuppressionKind → List Char
  | .function => "forgives".toList
  | .file => "forgive global".toList

/-- The comment has a bare verb with nothing but white space and closers behind it. -/
def BareVerb (text : List Char) (s : Spaces.Suppression) : Prop :=
  ∃ blank trailing, (∀ c ∈ blank, isWhitespace c = true) ∧ (∀ c ∈ trailing, isCloser c = true) ∧
    match s.source with
    | .native => Introduced text (blank ++ verbOf s.kind ++ trailing)
    | .lizard => ∃ lead, (∀ c ∈ lead, isOpener c = true ∨ c = '#') ∧
        text = lead ++ "lizard".toList ++ blank ++ phraseOf s.kind ++ trailing

/-- White space around what `trim` leaves. -/
theorem trim_split (text : List Char) : ∃ lead trail, (∀ c ∈ lead, isWhitespace c = true) ∧
    (∀ c ∈ trail, isWhitespace c = true) ∧ text = lead ++ trim text ++ trail :=
  around_strip text

theorem parseLizard_shape {trimmed : List Char} {s : Spaces.Suppression}
    (h : parseLizard trimmed = some s) : s.source = .lizard ∧
      ∃ blank blank' trailing, (∀ c ∈ blank, isWhitespace c = true) ∧
        (∀ c ∈ blank', isWhitespace c = true) ∧ (∀ c ∈ trailing, isWhitespace c = true) ∧
        trimmed = '#' :: blank ++ "lizard".toList ++ blank' ++ phraseOf s.kind ++ trailing := by
  unfold parseLizard at h
  obtain ⟨rest, hrest, h⟩ := Option.bind_eq_some_iff.mp h
  obtain ⟨tail, htail, hrest⟩ := Option.bind_eq_some_iff.mp hrest
  have hhash := stripStart_eq_some.mp htail
  have hlizard := stripStart_eq_some.mp hrest
  obtain ⟨lead, trail, hlead, htrail, hsplit⟩ := trim_split rest
  have htext : ∀ phrase, trim rest = phrase → trimmed =
      '#' :: tail.takeWhile isWhitespace ++ "lizard".toList ++ lead ++ phrase ++ trail := by
    intro phrase hphrase
    rw [hphrase] at hsplit
    have hdrop : tail = tail.takeWhile isWhitespace ++
        ("lizard".toList ++ (lead ++ phrase ++ trail)) := by
      rw [← hsplit, ← hlizard, List.takeWhile_append_dropWhile]
    calc trimmed = '#' :: tail := hhash
      _ = '#' :: (tail.takeWhile isWhitespace ++
          ("lizard".toList ++ (lead ++ phrase ++ trail))) := congrArg (List.cons '#') hdrop
      _ = _ := by simp only [List.cons_append, List.append_assoc]
  have hblank : ∀ c ∈ tail.takeWhile isWhitespace, isWhitespace c = true :=
    fun c hc => List.mem_takeWhile_imp hc
  dsimp only at h
  split_ifs at h with hforgives hglobal
  · obtain rfl := Option.some.inj h
    exact ⟨rfl, _, lead, trail, hblank, hlead, htrail, htext _ hforgives⟩
  · obtain rfl := Option.some.inj h
    exact ⟨rfl, _, lead, trail, hblank, hlead, htrail, htext _ hglobal⟩

/-- Only `#` and white space are cut off in front of a candidate. -/
theorem lizardCandidate_split (text : List Char) :
    ∃ lead, (∀ c ∈ lead, isHash c = true) ∧ text = lead ++ lizardCandidate text := by
  unfold lizardCandidate
  split_ifs
  · exact ⟨[], nofun, rfl⟩
  · cases hstart : stripStart ['#'] text with
    | none => exact ⟨[], nofun, rfl⟩
    | some rest =>
      refine ⟨'#' :: rest.takeWhile isWhitespace, List.forall_mem_cons.mpr ⟨by decide,
        fun c hc => ?_⟩, ?_⟩
      · simp [isHash, List.mem_takeWhile_imp hc]
      · rw [Option.map_some, Option.getD_some, List.cons_append,
          List.takeWhile_append_dropWhile]
        exact stripStart_eq_some.mp hstart

/-- A native directive for all metrics has nothing but white space behind its verb. -/
theorem parseScope_all {body after : List Char} {kind : SuppressionKind} {s : Spaces.Suppression}
    (h : (parseScope body kind after).suppression = some s) (hall : s.scope = .all) :
    s = ⟨kind, .all, .native⟩ ∧ ∀ c ∈ after, isWhitespace c = true := by
  unfold parseScope at h
  split at h
  · rename_i hempty
    obtain rfl := Option.some.inj h
    exact ⟨rfl, List.dropWhile_eq_nil_iff.mp hempty⟩
  · split_ifs at h
    · obtain rfl := Option.some.inj h
      cases hall
    · cases h
  · cases h

theorem parseNative_all {body : List Char} {s : Spaces.Suppression}
    (h : (parseNative body).suppression = some s) (hall : s.scope = .all) :
    s.source = .native ∧ ∃ blank trailing, (∀ c ∈ blank, isWhitespace c = true) ∧
      (∀ c ∈ trailing, isWhitespace c = true) ∧
      body = "bca:".toList ++ (blank ++ verbOf s.kind ++ trailing) := by
  unfold parseNative at h
  cases hstart : stripStart "bca:".toList body with
  | none =>
    rw [hstart] at h
    cases h
  | some rest =>
    rw [hstart] at h
    dsimp only at h
    have hbody := stripStart_eq_some.mp hstart
    have hblank : ∀ c ∈ rest.takeWhile isWhitespace, isWhitespace c = true :=
      fun c hc => List.mem_takeWhile_imp hc
    have hrest : ∀ verb, (rest.dropWhile isWhitespace).takeWhile isVerbChar = verb →
        body = "bca:".toList ++ (rest.takeWhile isWhitespace ++ verb ++
          (rest.dropWhile isWhitespace).dropWhile isVerbChar) := by
      intro verb hverb
      rw [← hverb, List.append_assoc, List.takeWhile_append_dropWhile,
        List.takeWhile_append_dropWhile]
      exact hbody
    split_ifs at h with hempty hfunction hfile hnone
    · cases h
    · obtain ⟨rfl, htrailing⟩ := parseScope_all h hall
      exact ⟨rfl, _, _, hblank, htrailing, hrest _ hfunction⟩
    · obtain ⟨rfl, htrailing⟩ := parseScope_all h hall
      exact ⟨rfl, _, _, hblank, htrailing, hrest _ hfile⟩
    · cases h
    · cases h

/-- A directive for all metrics comes from a bare verb. -/
theorem bareVerb_of_all {text : List Char} {s : Spaces.Suppression}
    (h : (parseMarker text).suppression = some s) (hall : s.scope = .all) : BareVerb text s := by
  obtain ⟨lead, trail, hlead, htrail, htext⟩ := around_strip (p := isOpener) (q := isCloser) text
  rw [← noOpener_eq] at htext
  unfold parseMarker at h
  split_ifs at h
  · cases h
  · cases hlizard : parseLizard (lizardCandidate (noOpener text)) with
    | some found =>
      rw [hlizard] at h
      obtain rfl := Option.some.inj h
      obtain ⟨hsource, blank, blank', trailing, hblank, hblank', htrailing, hshape⟩ :=
        parseLizard_shape hlizard
      obtain ⟨cut, hcut, hcandidate⟩ := lizardCandidate_split (noOpener text)
      refine ⟨blank', trailing ++ trail, hblank', fun c hc => ?_, ?_⟩
      · exact (List.mem_append.mp hc).elim
          (fun hc => isCloser_of_isWhitespace c (htrailing c hc)) (htrail c)
      · rw [hsource]
        refine ⟨lead ++ cut ++ '#' :: blank, fun c hc => ?_, ?_⟩
        · rcases List.mem_append.mp hc with hc | hc
          · rcases List.mem_append.mp hc with hc | hc
            · exact .inl (hlead c hc)
            · exact isOpener_or_of_isHash c (hcut c hc)
          · rcases List.mem_cons.mp hc with rfl | hc
            · exact .inr rfl
            · exact .inl (isOpener_of_isWhitespace c (hblank c hc))
        · calc text = lead ++ noOpener text ++ trail := htext
            _ = lead ++ (cut ++ lizardCandidate (noOpener text)) ++ trail := by
              rw [← hcandidate]
            _ = _ := by
              rw [hshape]
              simp only [List.append_assoc, List.cons_append]
    | none =>
      rw [hlizard] at h
      obtain ⟨hsource, blank, trailing, hblank, htrailing, hbody⟩ := parseNative_all h hall
      obtain ⟨start, stop, hstart, hstop, hsplit⟩ := trim_split ((noOpener text).dropWhile isHash)
      refine ⟨blank, trailing ++ stop ++ trail, hblank, fun c hc => ?_, ?_⟩
      · rcases List.mem_append.mp hc with hc | hc
        · exact isCloser_of_isWhitespace c ((List.mem_append.mp hc).elim (htrailing c) (hstop c))
        · exact htrail c hc
      · rw [hsource]
        refine ⟨lead, (noOpener text).takeWhile isHash ++ start, hlead, fun c hc => ?_, ?_⟩
        · rcases List.mem_append.mp hc with hc | hc
          · exact List.mem_takeWhile_imp hc
          · simp [isHash, hstart c hc]
        · calc text = lead ++ noOpener text ++ trail := htext
            _ = lead ++ ((noOpener text).takeWhile isHash ++
                (start ++ trim ((noOpener text).dropWhile isHash) ++ stop)) ++ trail := by
              rw [← hsplit, List.takeWhile_append_dropWhile]
            _ = _ := by
              rw [hbody]
              simp only [List.append_assoc]

/-- What a comment gives: a directive for all metrics only from a bare verb; from a list the
set of its usable names with one diagnostic for each distinct other name, up to the cap; and
some answer to every text behind the native prefix that is more than closers. -/
theorem parseMarker_grammar (text : List Char) :
    (∀ s, (parseMarker text).suppression = some s → s.scope = .all → BareVerb text s) ∧
    (∀ kind blank blank' inside tail,
      Introduced text (blank ++ verbOf kind ++ (blank' ++ '(' :: (inside ++ ')' :: tail))) →
      (∀ c ∈ blank, isWhitespace c = true) → (∀ c ∈ blank', isWhitespace c = true) →
      ')' ∉ inside → parseMarker text = ⟨some ⟨kind,
          .some ((names (inside.splitOn ',')).filterMap usable).toFinset, .native⟩,
        diagnosticsOf (unusableNames (names (inside.splitOn ',')))⟩) ∧
    ∀ rest, Introduced text rest → (∃ c ∈ rest, isCloser c = false) →
      (parseMarker text).Answers :=
  ⟨fun _ => bareVerb_of_all, fun kind _ _ _ _ h hblank hblank' hinside =>
    h.list kind hblank hblank' hinside, fun _ h hrest => h.answers hrest⟩

/-- A slash is no closer by itself, but it is cut off behind a verb and behind the prefix. -/
theorem parseMarker_slash :
    parseMarker "// bca: suppress /".toList = ⟨some ⟨.function, .all, .native⟩, []⟩ ∧
      parseMarker "// bca: /".toList = .notAMarker := by
  decide

end BigCodeAnalysis.Suppression
