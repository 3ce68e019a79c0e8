import BigCodeAnalysis.Baseline.BodyHash
import BigCodeAnalysis.Sequences.Utf8Code

/-! A rename under the body hash. A renamed text has the same words and white space but for the
name, so its hash is the same just where both names are elided from whole words and from nothing
else. -/

namespace BigCodeAnalysis.Baseline.BodyHash

open Comments (Bytes lineFeed carriageReturn)
open Sequences

def utf8 (text : List Char) : Bytes := text.flatMap String.utf8EncodeChar

/-- The identifier characters of a language, in any script. The ASCII ones among them are the
letters, the digits and the underscore. -/
structure Script where
  isIdent : Char → Bool
  ascii : ∀ c : Char, c.toNat < 128 → isIdent c = BodyHash.isIdent (UInt8.ofNat c.toNat)

variable (script : Script) (name new : List Char)

def renameToken (t : List Char) : List Char := if t = name then new else t

/-- Every whole-word occurrence of the name becomes the new one. -/
def rename (line : List Char) : List Char :=
  ((tokens script.isIdent line).map (renameToken name new)).flatten

/-- Space, tab, line feed and form feed. -/
def isBlankToken (t : List Char) : Bool :=
  t = [' '] || t = ['\t'] || t = ['\n'] || t = [Char.ofNat 12]

/-- The tokens of a line, its white space evened out. -/
def evened : Bool → Bool → List (List Char) → List (List Char)
  | _, _, [] => []
  | started, pending, t :: ts =>
    if t = ['\r'] then evened started pending ts
    else if isBlankToken t then evened started true ts
    else (if started && pending then [[' ']] else []) ++ t :: evened true false ts

def lineTokens (line : List Char) : List (List Char) :=
  let ts := evened false false (tokens script.isIdent line)
  if ts = [] then [] else ts ++ [['\n']]

def bodyTokens (lines : List (List Char)) : List (List Char) :=
  lines.flatMap (lineTokens script)

/-! ### Words and their bytes -/

section Bytes

variable {script} {name new}

theorem utf8_injective {s t : List Char} (h : utf8 s = utf8 t) : s = t :=
  prefixCode_utf8.flatMap_injective (fun _ _ => trivial) (fun _ _ => trivial) h

theorem utf8_append (s t : List Char) : utf8 (s ++ t) = utf8 s ++ utf8 t := List.flatMap_append

theorem utf8_flatten (ts : List (List Char)) : utf8 ts.flatten = ts.flatMap utf8 := by
  induction ts with
  | nil => rfl
  | cons t ts ih => rw [List.flatten_cons, utf8_append, ih, List.flatMap_cons]

/-- An identifier byte comes from the identifier character it is. -/
theorem isIdent_of_mem_utf8 {c : Char} {b : UInt8} (hb : b ∈ String.utf8EncodeChar c)
    (h : isIdent b = true) : script.isIdent c = true := by
  have hlt : b.toNat < 128 :=
    forall_byte (p := fun b => isIdent b = true → b.toNat < 128) (by decide +kernel) b h
  have hc := toNat_eq_of_mem hlt hb
  rw [script.ascii c (by omega), hc, UInt8.ofNat_toNat, h]

/-- An ASCII character that is no identifier byte stands in no identifier. -/
theorem notMem_of_isWord {t : List Char} (ht : IsWord script.isIdent t) {b : UInt8}
    (hb : b.toNat < 128) (hident : isIdent b = false) : b ∉ utf8 t := by
  intro hmem
  obtain ⟨c, hc, hbc⟩ := List.mem_flatMap.mp hmem
  have hnat := toNat_eq_of_mem hb hbc
  have htrue := ht.2 c hc
  rw [script.ascii c (by omega), hnat, UInt8.ofNat_toNat, hident] at htrue
  cases htrue

theorem utf8_ne_nil {t : List Char} (h : t ≠ []) : utf8 t ≠ [] := by
  obtain ⟨c, t, rfl⟩ := List.exists_cons_of_ne_nil h
  rw [utf8, List.flatMap_cons]
  exact List.append_ne_nil_of_left_ne_nil String.utf8EncodeChar_ne_nil _

/-! ### The normalised tokens -/

theorem foldl_push_plain {bytes : Bytes} (hne : bytes ≠ [])
    (h : ∀ b ∈ bytes, isAsciiWhitespace b = false) (s : LineState) :
    bytes.foldl LineState.push s =
      ⟨(if s.lineStarted && s.pendingSpace then s.out ++ [space] else s.out) ++ bytes, true,
        false⟩ := by
  induction bytes generalizing s with
  | nil => exact absurd rfl hne
  | cons b bytes ih =>
    have hb := h b List.mem_cons_self
    have hreturn : b ≠ carriageReturn := by
      rintro rfl
      exact absurd hb (by decide)
    have hpush : s.push b =
        ⟨(if s.lineStarted && s.pendingSpace then s.out ++ [space] else s.out) ++ [b], true,
          false⟩ := by
      unfold LineState.push
      rw [if_neg hreturn, if_neg (by simp [hb])]
    rw [List.foldl_cons, hpush]
    cases bytes with
    | nil => rfl
    | cons c bytes =>
      rw [ih (List.cons_ne_nil c bytes) fun d hd => h d (List.mem_cons_of_mem b hd)]
      simp

/-- A token is a carriage return, other white space, or holds no white space. -/
theorem token_cases {t : List Char} (h : IsToken script.isIdent t) : t = ['\r'] ∨
    isBlankToken t = true ∧ (∃ b, utf8 t = [b] ∧ b ≠ carriageReturn ∧ isAsciiWhitespace b = true) ∨
    t ≠ ['\r'] ∧ isBlankToken t = false ∧ ∀ b ∈ utf8 t, isAsciiWhitespace b = false := by
  by_cases hany : ∃ b ∈ utf8 t, isAsciiWhitespace b = true
  · obtain ⟨b, hb, hspace⟩ := hany
    obtain ⟨c, hc, hbc⟩ := List.mem_flatMap.mp hb
    have hfive : b = 32 ∨ b = 9 ∨ b = 10 ∨ b = 12 ∨ b = 13 := by
      have hcases := hspace
      simp only [isAsciiWhitespace, Bool.or_eq_true, decide_eq_true_eq, or_assoc] at hcases
      exact hcases
    have hlow : b.toNat < 128 ∧ isIdent b = false := by
      rcases hfive with rfl | rfl | rfl | rfl | rfl <;> decide
    have hnat := toNat_eq_of_mem hlow.1 hbc
    obtain ⟨x, -, rfl⟩ : ∃ x, script.isIdent x = false ∧ t = [x] :=
      h.resolve_left fun hword => notMem_of_isWord hword hlow.1 hlow.2 hb
    obtain rfl := List.mem_singleton.mp hc
    have hchar : c = Char.ofNat b.toNat := by rw [← hnat, Char.ofNat_toNat]
    rcases hfive with rfl | rfl | rfl | rfl | rfl
    · exact .inr (.inl (by rw [hchar]; exact ⟨rfl, 32, rfl, by decide, rfl⟩))
    · exact .inr (.inl (by rw [hchar]; exact ⟨rfl, 9, rfl, by decide, rfl⟩))
    · exact .inr (.inl (by rw [hchar]; exact ⟨rfl, 10, rfl, by decide, rfl⟩))
    · exact .inr (.inl (by rw [hchar]; exact ⟨rfl, 12, rfl, by decide, rfl⟩))
    · exact .inl (by rw [hchar]; rfl)
  · have hplain : ∀ b ∈ utf8 t, isAsciiWhitespace b = false := fun b hb =>
      Bool.eq_false_iff.mpr fun hspace => hany ⟨b, hb, hspace⟩
    refine .inr (.inr ⟨?_, ?_, hplain⟩)
    · rintro rfl
      exact absurd (hplain 13 (by decide)) (by decide)
    · refine Bool.eq_false_iff.mpr fun hblank => ?_
      simp only [isBlankToken, Bool.or_eq_true, decide_eq_true_eq] at hblank
      rcases hblank with ((rfl | rfl) | rfl) | rfl
      · exact absurd (hplain 32 (by decide)) (by decide)
      · exact absurd (hplain 9 (by decide)) (by decide)
      · exact absurd (hplain 10 (by decide)) (by decide)
      · exact absurd (hplain 12 (by decide)) (by decide)

theorem foldl_push_tokens (ts : List (List Char)) (h : ∀ t ∈ ts, IsToken script.isIdent t) :
    ∀ s : LineState, ((utf8 ts.flatten).foldl LineState.push s).out =
        s.out ++ utf8 (evened s.lineStarted s.pendingSpace ts).flatten ∧
      ((utf8 ts.flatten).foldl LineState.push s).lineStarted =
        (s.lineStarted || !(evened s.lineStarted s.pendingSpace ts).isEmpty) := by
  induction ts with
  | nil =>
    intro s
    simp [evened, utf8]
  | cons t ts ih =>
    intro s
    have ih := ih fun u hu => h u (List.mem_cons_of_mem t hu)
    rw [List.flatten_cons, utf8_append, List.foldl_append]
    rcases token_cases (h t List.mem_cons_self) with rfl | ⟨hblank, b, hb, hreturn, hspace⟩ |
      ⟨hreturn, hblank, hplain⟩
    · have hskip : (utf8 ['\r']).foldl LineState.push s = s := rfl
      rw [hskip, evened, if_pos rfl]
      exact ih s
    · have hreturn' : t ≠ ['\r'] := by
        rintro rfl
        exact absurd hblank (by decide)
      have hskip : (utf8 t).foldl LineState.push s = { s with pendingSpace := true } := by
        rw [hb, List.foldl_cons, List.foldl_nil, LineState.push, if_neg hreturn, if_pos hspace]
      rw [hskip, evened, if_neg hreturn', if_pos hblank]
      exact ih _
    · have hblank' : ¬ isBlankToken t = true := by simp [hblank]
      obtain ⟨hout, hstarted⟩ := ih ⟨(if s.lineStarted && s.pendingSpace then s.out ++ [space]
        else s.out) ++ utf8 t, true, false⟩
      rw [foldl_push_plain (utf8_ne_nil (h t List.mem_cons_self).ne_nil) hplain, hout, hstarted,
        evened, if_neg hreturn, if_neg hblank']
      constructor
      · rw [List.flatten_append, List.flatten_cons, utf8_append, utf8_append]
        split_ifs
        · simp only [List.append_assoc, List.flatten_cons, List.flatten_nil, List.append_nil]
          rfl
        · simp [utf8]
      · simp

theorem appendLine_utf8 (line : List Char) (out : Bytes) :
    appendLine out (utf8 line) = out ++ utf8 (lineTokens script line).flatten := by
  have h := foldl_push_tokens (tokens script.isIdent line) (fun t => isToken_of_mem)
    ⟨out, false, false⟩
  rw [flatten_tokens] at h
  unfold appendLine pushNormalizedLine lineTokens
  dsimp only
  rw [h.1, h.2, Bool.false_or]
  by_cases hnil : evened false false (tokens script.isIdent line) = []
  · rw [hnil]
    simp [utf8]
  · have hempty : (evened false false (tokens script.isIdent line)).isEmpty = false :=
      List.isEmpty_eq_false_iff.mpr hnil
    rw [hempty, if_neg hnil, Bool.not_false, if_pos rfl, List.flatten_append, utf8_append,
      List.append_assoc]
    rfl

theorem normalizeBody_utf8 {source : Bytes} {startLine endLine : ℕ} {lines : List (List Char)}
    (h : bodyLines source startLine endLine = lines.map utf8) :
    normalizeBody source startLine endLine = utf8 (bodyTokens script lines).flatten := by
  have hfold : ∀ out, (lines.map utf8).foldl appendLine out =
      out ++ utf8 (bodyTokens script lines).flatten := by
    clear h
    induction lines with
    | nil => exact fun out => (List.append_nil out).symm
    | cons line lines ih =>
      intro out
      have hcons : bodyTokens script (line :: lines) =
          lineTokens script line ++ bodyTokens script lines := List.flatMap_cons
      have hline : appendLine out (utf8 line) = out ++ utf8 (lineTokens script line).flatten :=
        appendLine_utf8 line out
      rw [List.map_cons, List.foldl_cons, hline, ih, hcons, List.flatten_append, utf8_append,
        List.append_assoc]
  unfold normalizeBody
  rw [h, hfold, List.nil_append]

/-! ### Renaming the tokens -/

theorem isWord_not_blank {t : List Char} (h : IsWord script.isIdent t) :
    t ≠ ['\r'] ∧ isBlankToken t = false := by
  rcases token_cases (.inl h) with rfl | ⟨-, b, hb, -, hspace⟩ | ⟨hreturn, hblank, -⟩
  · exact absurd (show (13 : UInt8) ∈ utf8 ['\r'] by decide) (notMem_of_isWord h (by decide) (by decide))
  · have hlow : b.toNat < 128 ∧ isIdent b = false :=
      forall_byte (p := fun b => isAsciiWhitespace b = true → b.toNat < 128 ∧ isIdent b = false)
        (by decide +kernel) b hspace
    exact absurd (hb ▸ List.mem_singleton_self b) (notMem_of_isWord h hlow.1 hlow.2)
  · exact ⟨hreturn, hblank⟩

section Rename

variable (hname : IsWord script.isIdent name) (hnew : IsWord script.isIdent new)
include hname hnew

theorem isWord_renameToken (t : List Char) :
    IsWord script.isIdent (renameToken name new t) ↔ IsWord script.isIdent t := by
  unfold renameToken
  split_ifs with hsame
  · exact iff_of_true hnew (hsame ▸ hname)
  · rfl

theorem Separated.map_renameToken {ts : List (List Char)} (h : Separated script.isIdent ts) :
    Separated script.isIdent (ts.map (renameToken name new)) := by
  constructor
  · intro u hu
    obtain ⟨t, ht, rfl⟩ := List.mem_map.mp hu
    unfold renameToken
    split_ifs
    · exact .inl hnew
    · exact h.token t ht
  · refine (List.isChain_map _).mpr (h.apart.imp fun t u hnot => ?_)
    rwa [isWord_renameToken hname hnew, isWord_renameToken hname hnew]

theorem tokens_rename (line : List Char) : tokens script.isIdent (rename script name new line) =
    (tokens script.isIdent line).map (renameToken name new) :=
  (Separated.map_renameToken hname hnew (separated_tokens line)).tokens_flatten

theorem evened_map (ts : List (List Char)) : ∀ started pending,
    evened started pending (ts.map (renameToken name new)) =
      (evened started pending ts).map (renameToken name new) := by
  have hold := isWord_not_blank hname
  have hfresh := isWord_not_blank hnew
  have hspace : renameToken name new [' '] = [' '] := if_neg fun hsame => by
    rw [← hsame] at hold
    exact absurd hold.2 (by decide)
  induction ts with
  | nil => exact fun _ _ => by simp [evened]
  | cons t ts ih =>
    intro started pending
    rw [List.map_cons, evened, evened, ih, ih, ih]
    have hreturn : renameToken name new t = ['\r'] ↔ t = ['\r'] := by
      unfold renameToken
      split_ifs with hsame
      · exact iff_of_false hfresh.1 (hsame ▸ hold.1)
      · rfl
    have hblank : isBlankToken (renameToken name new t) = isBlankToken t := by
      unfold renameToken
      split_ifs with hsame
      · rw [hsame, hold.2, hfresh.2]
      · rfl
    rw [hblank]
    simp only [hreturn]
    split_ifs <;> simp [hspace]

theorem bodyTokens_rename (lines : List (List Char)) :
    bodyTokens script (lines.map (rename script name new)) =
      (bodyTokens script lines).map (renameToken name new) := by
  have hbreak : renameToken name new ['\n'] = ['\n'] := if_neg fun hsame =>
    absurd (hsame ▸ (isWord_not_blank hname).2) (by decide)
  have hline : ∀ line, lineTokens script (rename script name new line) =
      (lineTokens script line).map (renameToken name new) := by
    intro line
    unfold lineTokens
    dsimp only
    rw [tokens_rename hname hnew, evened_map hname hnew]
    simp only [List.map_eq_nil_iff]
    split_ifs
    · rfl
    · rw [List.map_append, List.map_singleton, hbreak]
  unfold bodyTokens
  rw [List.flatMap_map, List.map_flatMap]
  exact congrArg (List.flatMap · lines) (funext hline)

end Rename

/-! ### The tokens stay apart -/

theorem mem_of_mem_evened {t : List Char} (ts : List (List Char)) : ∀ started pending,
    t ∈ evened started pending ts → t ∈ ts ∨ t = [' '] := by
  induction ts with
  | nil =>
    intro started pending ht
    rw [evened] at ht
    cases ht
  | cons u ts ih =>
    intro started pending ht
    rw [evened] at ht
    split_ifs at ht
    · exact (ih _ _ ht).imp_left (List.mem_cons_of_mem u)
    · exact (ih _ _ ht).imp_left (List.mem_cons_of_mem u)
    · rcases List.mem_append.mp ht with ht | ht
      · exact .inr (List.mem_singleton.mp ht)
      · rcases List.mem_cons.mp ht with rfl | ht
        · exact .inl List.mem_cons_self
        · exact (ih _ _ ht).imp_left (List.mem_cons_of_mem u)
    · rcases List.mem_cons.mp ht with rfl | ht
      · exact .inl List.mem_cons_self
      · exact (ih _ _ ht).imp_left (List.mem_cons_of_mem u)

theorem mem_evened {t : List Char} (hword : IsWord script.isIdent t) (ts : List (List Char)) :
    ∀ started pending, t ∈ ts → t ∈ evened started pending ts := by
  obtain ⟨hreturn, hblank⟩ := isWord_not_blank hword
  induction ts with
  | nil => exact fun _ _ ht => absurd ht List.not_mem_nil
  | cons u ts ih =>
    intro started pending ht
    rw [evened]
    rcases List.mem_cons.mp ht with rfl | ht
    · rw [if_neg hreturn, if_neg (by simp [hblank])]
      exact List.mem_append_right _ List.mem_cons_self
    · split_ifs
      · exact ih _ _ ht
      · exact ih _ _ ht
      · exact List.mem_append_right _ (List.mem_cons_of_mem u (ih _ _ ht))
      · exact List.mem_append_right _ (List.mem_cons_of_mem u (ih _ _ ht))

/-- White space or the start of the line comes before every word but one that follows a token
which is no word. -/
theorem evened_apart (ts : List (List Char)) (h : Separated script.isIdent ts)
    (hreturn : ∀ t ∈ ts.dropLast, t ≠ ['\r']) : ∀ started pending,
    (evened started pending ts).IsChain
      (fun t u => ¬ (IsWord script.isIdent t ∧ IsWord script.isIdent u)) ∧
    ∀ t ∈ (evened started pending ts).head?, IsWord script.isIdent t → started = true →
      pending = false ∧ ts.head? = some t := by
  have hspace : ¬ IsWord script.isIdent [' '] := fun hword =>
    absurd (isWord_not_blank hword).2 (by decide)
  induction ts with
  | nil =>
    intro started pending
    rw [evened]
    exact ⟨.nil, nofun⟩
  | cons t ts ih =>
    intro started pending
    have htail := ih ⟨fun u hu => h.token u (List.mem_cons_of_mem t hu), h.apart.tail⟩ (by
      intro u hu
      cases ts with
      | nil => cases hu
      | cons v vs => exact hreturn u (List.mem_cons_of_mem t hu))
    rw [evened]
    split_ifs with hcr hblank hgap
    · cases ts with
      | nil =>
        rw [evened]
        exact ⟨.nil, nofun⟩
      | cons v vs => exact absurd hcr (hreturn t List.mem_cons_self)
    · obtain ⟨hchain, hhead⟩ := htail started true
      refine ⟨hchain, fun u hu hword hstarted => ?_⟩
      exact absurd (hhead u hu hword hstarted).1 (by decide)
    all_goals
      obtain ⟨hchain, hhead⟩ := htail true false
      have hcons : (t :: evened true false ts).IsChain
          fun t u => ¬ (IsWord script.isIdent t ∧ IsWord script.isIdent u) := by
        refine List.isChain_cons.mpr ⟨fun u hu hboth => ?_, hchain⟩
        have hnext := (hhead u hu hboth.2 rfl).2
        obtain ⟨us, rfl⟩ := List.head?_eq_some_iff.mp hnext
        exact (List.isChain_cons_cons.mp h.apart).1 hboth
    · refine ⟨List.isChain_cons_cons.mpr ⟨fun hboth => hspace hboth.1, hcons⟩, ?_⟩
      intro u hu hword
      obtain rfl := Option.some.inj hu
      exact absurd hword hspace
    · refine ⟨hcons, fun u hu _ hstarted => ?_⟩
      obtain rfl := Option.some.inj hu
      exact ⟨by simpa [hstarted] using hgap, rfl⟩

/-- A carriage return at the end of a line is its last token. -/
theorem dropLast_tokens {line : List Char} (h : '\r' ∉ line.dropLast) :
    ∀ t ∈ (tokens script.isIdent line).dropLast, t ≠ ['\r'] := by
  rintro t ht rfl
  have hne : tokens script.isIdent line ≠ [] := fun hnil => by rw [hnil] at ht; cases ht
  have hlast := List.getLast_mem hne
  have hflat := congrArg List.flatten (List.dropLast_append_getLast hne)
  rw [flatten_tokens, List.flatten_append, List.flatten_singleton] at hflat
  refine h ?_
  rw [← hflat, List.dropLast_append_of_ne_nil (isToken_of_mem hlast).ne_nil]
  exact List.mem_append_left _ (List.mem_flatten.mpr ⟨_, ht, List.mem_singleton_self _⟩)

theorem bodyTokens_separated {lines : List (List Char)} (h : ∀ line ∈ lines, '\r' ∉ line.dropLast) :
    Separated script.isIdent (bodyTokens script lines) := by
  have hbreak : ¬ IsWord script.isIdent ['\n'] := fun hword =>
    absurd (isWord_not_blank hword).2 (by decide)
  have hsingle : ∀ c, ¬ IsWord script.isIdent [c] → IsToken script.isIdent [c] := fun c hnot =>
    .inr ⟨c, Bool.eq_false_iff.mpr fun hc => hnot ⟨List.cons_ne_nil c [], by simpa using hc⟩, rfl⟩
  have hline : ∀ line ∈ lines, Separated script.isIdent (lineTokens script line) ∧
      ∀ t ∈ (lineTokens script line).getLast?, ¬ IsWord script.isIdent t := by
    intro line hline
    have hsep := separated_tokens (p := script.isIdent) line
    have hchain := (evened_apart _ hsep (dropLast_tokens (h line hline)) false false).1
    unfold lineTokens
    dsimp only
    split_ifs
    · exact ⟨⟨nofun, .nil⟩, nofun⟩
    · refine ⟨⟨fun t ht => ?_, hchain.append (.singleton _) ?_⟩, ?_⟩
      · rcases List.mem_append.mp ht with ht | ht
        · rcases mem_of_mem_evened _ _ _ ht with ht | rfl
          · exact isToken_of_mem ht
          · exact hsingle ' ' fun hword => absurd (isWord_not_blank hword).2 (by decide)
        · obtain rfl := List.mem_singleton.mp ht
          exact hsingle '\n' hbreak
      · intro t _ u hu hboth
        obtain rfl := Option.some.inj hu
        exact hbreak hboth.2
      · intro t ht
        rw [List.getLast?_concat] at ht
        obtain rfl := Option.some.inj ht
        exact hbreak
  clear h
  induction lines with
  | nil => exact ⟨nofun, .nil⟩
  | cons line lines ih =>
    obtain ⟨hfirst, hlast⟩ := hline line List.mem_cons_self
    have hrest := ih fun l hl => hline l (List.mem_cons_of_mem line hl)
    have hcons : bodyTokens script (line :: lines) =
        lineTokens script line ++ bodyTokens script lines := List.flatMap_cons
    rw [hcons]
    refine ⟨fun t ht => ?_, hfirst.apart.append hrest.apart fun t ht u _ hboth => ?_⟩
    · exact (List.mem_append.mp ht).elim (hfirst.token t) (hrest.token t)
    · exact hlast t ht hboth.1

end Bytes

end BigCodeAnalysis.Baseline.BodyHash
