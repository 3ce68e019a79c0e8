import BigCodeAnalysis.Baseline.BodyHashRename

/-! When the body hash outlives a change. The bytes of a function are cut into runs of identifier
bytes and runs of others, so two hashed inputs are compared run by run: layout only ever becomes
one space between two bytes of a line, and the elided name becomes the sentinel. Reformatting
therefore never changes what is hashed, and a rename does not just when the name is elided from
whole words only, before and after. -/

namespace BigCodeAnalysis.Baseline.BodyHash

open Comments (Bytes lineFeed carriageReturn)
open Sequences

variable {script : Script} {name new : List Char}

/-- The name is made of identifier bytes, so it is elided. -/
def Elided (name : List Char) : Prop := IsWord isIdent (utf8 name)

/-- A token of the text is elided as the rename asks: the name itself wherever it is renamed, and
no part of another token. -/
def ElidedWhole (name new t : List Char) : Prop :=
  if t = name then Elided name ∧ Elided new
  else (Elided name → utf8 name ∉ tokens isIdent (utf8 t)) ∧
    (Elided new → utf8 new ∉ tokens isIdent (utf8 t))

/-! ### One token at a time -/

/-- Tokens that stand apart have their bytes cut into runs one by one. -/
theorem tokens_utf8_flatten {ts : List (List Char)} (h : Separated script.isIdent ts) :
    tokens isIdent (utf8 ts.flatten) = ts.flatMap fun t => tokens isIdent (utf8 t) := by
  induction ts with
  | nil => rfl
  | cons t ts ih =>
    rw [List.flatten_cons, utf8_append, List.flatMap_cons, tokens_append, ih
      ⟨fun u hu => h.token u (List.mem_cons_of_mem t hu), h.apart.tail⟩]
    intro x hx y hy
    by_contra hboth
    obtain ⟨hxi, hyi⟩ := Bool.and_eq_true_iff.mp (Bool.not_eq_false _ ▸ hboth)
    cases ts with
    | nil => cases hy
    | cons u us =>
      have hword : ∀ {t : List Char} {b : UInt8}, IsToken script.isIdent t → b ∈ utf8 t →
          isIdent b = true → IsWord script.isIdent t := by
        intro t b ht hb hident
        obtain ⟨c, hc, hbc⟩ := List.mem_flatMap.mp hb
        exact ht.isWord_of_mem hc (isIdent_of_mem_utf8 hbc hident)
      have hu := h.token u (by simp)
      have hyu : y ∈ utf8 u := by
        rw [List.flatten_cons, utf8_append, List.head?_append_of_ne_nil _ (utf8_ne_nil hu.ne_nil)] at hy
        exact List.mem_of_head? hy
      exact (List.isChain_cons_cons.mp h.apart).1
        ⟨hword (h.token t List.mem_cons_self) (List.mem_of_getLast? hx) hxi, hword hu hyu hyi⟩

theorem elideIdentifier_flatten {ts : List (List Char)} (h : Separated script.isIdent ts)
    (n : Bytes) : elideIdentifier (utf8 ts.flatten) n =
      ts.flatMap fun t => elideIdentifier (utf8 t) n := by
  by_cases hn : IsWord isIdent n
  · rw [elideIdentifier_eq hn, tokens_utf8_flatten h, List.flatMap_assoc]
    exact congrArg (List.flatMap · ts) (funext fun t => (elideIdentifier_eq hn _).symm)
  · rw [elideIdentifier_of_not hn, utf8_flatten]
    exact congrArg (List.flatMap · ts) (funext fun t => (elideIdentifier_of_not hn _).symm)

theorem sentinel_notMem {t : Bytes} (ht : IsWord isIdent t) : elidedNameSentinel ∉ t := fun hmem =>
  absurd (ht.2 _ hmem) (by decide)

/-- A text that does not hold the sentinel clashes with it. -/
theorem clash_sentinel {t : Bytes} (hne : t ≠ []) (h : elidedNameSentinel ∉ t) :
    Clash [elidedNameSentinel] t ∧ Clash t [elidedNameSentinel] := by
  obtain ⟨b, t, rfl⟩ := List.exists_cons_of_ne_nil hne
  have hb := (List.ne_and_not_mem_of_not_mem_cons h).1
  exact ⟨⟨[], _, b, [], t, hb, rfl, rfl⟩, ⟨[], b, _, t, [], hb.symm, rfl, rfl⟩⟩

open Classical in
/-- The image of a run under the elision of a name that may be left as it is. -/
noncomputable def markIf (name : List Char) (u : Bytes) : Bytes :=
  if Elided name ∧ u = utf8 name then [elidedNameSentinel] else u

theorem elideIdentifier_markIf (name : List Char) (bytes : Bytes) :
    elideIdentifier bytes (utf8 name) = (tokens isIdent bytes).flatMap (markIf name) := by
  by_cases hname : Elided name
  · rw [elideIdentifier_eq hname]
    refine congrArg (List.flatMap · (tokens isIdent bytes)) (funext fun u => ?_)
    unfold mark markIf
    simp [hname]
  · have hself : markIf name = id := funext fun u => if_neg fun h => hname h.1
    rw [elideIdentifier_of_not hname, hself, List.flatMap_id, flatten_tokens]

/-- Two elisions of one run are the same when neither name is the run, and clash otherwise. -/
theorem markIf_cases (hne : name ≠ new) (u : Bytes) :
    markIf name u = markIf new u ∧ ¬ (Elided name ∧ u = utf8 name) ∧ ¬ (Elided new ∧ u = utf8 new) ∨
      Clash (markIf name u) (markIf new u) ∧
        (Elided name ∧ u = utf8 name ∨ Elided new ∧ u = utf8 new) := by
  unfold markIf
  by_cases hold : Elided name ∧ u = utf8 name
  · have hfresh : ¬ (Elided new ∧ u = utf8 new) := fun h =>
      hne (utf8_injective (hold.2.symm.trans h.2))
    rw [if_pos hold, if_neg hfresh, hold.2]
    exact .inr ⟨(clash_sentinel hold.1.1 (sentinel_notMem hold.1)).1, .inl ⟨hold.1, rfl⟩⟩
  · rw [if_neg hold]
    by_cases hfresh : Elided new ∧ u = utf8 new
    · rw [if_pos hfresh, hfresh.2]
      exact .inr ⟨(clash_sentinel hfresh.1.1 (sentinel_notMem hfresh.1)).2, .inr ⟨hfresh.1, rfl⟩⟩
    · rw [if_neg hfresh]
      exact .inl ⟨rfl, hold, hfresh⟩

/-- What becomes of a token before and after the rename. -/
theorem image_cases (hname : IsWord script.isIdent name) (hnew : IsWord script.isIdent new)
    (hne : name ≠ new) (hone : Elided name ∨ Elided new) (t : List Char) :
    elideIdentifier (utf8 t) (utf8 name) =
        elideIdentifier (utf8 (renameToken name new t)) (utf8 new) ∧ ElidedWhole name new t ∨
      Clash (elideIdentifier (utf8 t) (utf8 name))
        (elideIdentifier (utf8 (renameToken name new t)) (utf8 new)) ∧
          ¬ ElidedWhole name new t := by
  have hself : ∀ {w : List Char}, Elided w → elideIdentifier (utf8 w) (utf8 w) =
      [elidedNameSentinel] := by
    intro w hw
    rw [elideIdentifier_eq hw, tokens_word hw, List.flatMap_singleton]
    exact if_pos rfl
  have hzero : ∀ {w : List Char}, IsWord script.isIdent w → elidedNameSentinel ∉ utf8 w :=
    fun hw => notMem_of_isWord hw (by decide) (by decide)
  unfold ElidedWhole
  by_cases ht : t = name
  · subst ht
    have hrenamed : renameToken t new t = new := if_pos rfl
    rw [hrenamed, if_pos rfl]
    by_cases hold : Elided t
    · rw [hself hold]
      by_cases hfresh : Elided new
      · rw [hself hfresh]
        exact .inl ⟨rfl, hold, hfresh⟩
      · rw [elideIdentifier_of_not hfresh]
        exact .inr ⟨(clash_sentinel (utf8_ne_nil hnew.1) (hzero hnew)).1, fun h => hfresh h.2⟩
    · have hfresh := hone.resolve_left hold
      rw [elideIdentifier_of_not hold, hself hfresh]
      exact .inr ⟨(clash_sentinel (utf8_ne_nil hname.1) (hzero hname)).2, fun h => hold h.1⟩
  · have hrenamed : renameToken name new t = t := if_neg ht
    rw [hrenamed, if_neg ht, elideIdentifier_markIf, elideIdentifier_markIf]
    rcases flatMap_eq_or_clash (l := tokens isIdent (utf8 t)) (f := markIf name) (g := markIf new)
      (fun u _ => (markIf_cases hne u).imp And.left And.left) with ⟨hall, hsame⟩ | ⟨⟨u, hu, hdiff⟩, hclash⟩
    · refine .inl ⟨hsame, fun hold hmem => ?_, fun hfresh hmem => ?_⟩
      · rcases markIf_cases hne (utf8 name) with ⟨-, hnot, -⟩ | ⟨hclash, -⟩
        · exact hnot ⟨hold, rfl⟩
        · exact hclash.ne (hall _ hmem)
      · rcases markIf_cases hne (utf8 new) with ⟨-, -, hnot⟩ | ⟨hclash, -⟩
        · exact hnot ⟨hfresh, rfl⟩
        · exact hclash.ne (hall _ hmem)
    · refine .inr ⟨hclash, fun h => ?_⟩
      rcases markIf_cases hne u with ⟨hsame, -⟩ | ⟨-, ⟨hold, rfl⟩ | ⟨hfresh, rfl⟩⟩
      · exact hdiff hsame
      · exact h.1 hold hu
      · exact h.2 hfresh hu

/-! ### The whole text -/

/-- A token that is no word is elided as the rename asks. -/
theorem elidedWhole_of_not_isWord (hname : IsWord script.isIdent name) {t : List Char}
    (ht : IsToken script.isIdent t) (h : ¬ IsWord script.isIdent t) : ElidedWhole name new t := by
  have hnone : ∀ {w : List Char}, Elided w → utf8 w ∉ tokens isIdent (utf8 t) := by
    intro w hw hmem
    obtain ⟨b, hb⟩ := List.exists_mem_of_ne_nil _ hw.1
    have hbt : b ∈ utf8 t := by
      rw [← flatten_tokens (p := isIdent) (utf8 t)]
      exact List.mem_flatten.mpr ⟨_, hmem, hb⟩
    obtain ⟨c, hc, hbc⟩ := List.mem_flatMap.mp hbt
    exact h (ht.isWord_of_mem hc (isIdent_of_mem_utf8 hbc (hw.2 b hb)))
  have hdiff : t ≠ name := by
    rintro rfl
    exact h hname
  unfold ElidedWhole
  rw [if_neg hdiff]
  exact ⟨hnone, hnone⟩

theorem elidedWhole_body_iff (hname : IsWord script.isIdent name) (lines : List (List Char)) :
    (∀ t ∈ bodyTokens script lines, ElidedWhole name new t) ↔
      ∀ line ∈ lines, ∀ w ∈ tokens script.isIdent line, ElidedWhole name new w := by
  constructor
  · intro h line hline w hw
    by_cases hword : IsWord script.isIdent w
    · refine h w (List.mem_flatMap.mpr ⟨line, hline, ?_⟩)
      have hmem := mem_evened hword _ false false hw
      unfold lineTokens
      dsimp only
      rw [if_neg fun hnil => by rw [hnil] at hmem; cases hmem]
      exact List.mem_append_left _ hmem
    · exact elidedWhole_of_not_isWord hname (isToken_of_mem hw) hword
  · intro h t ht
    have hsingle : ∀ c, isBlankToken [c] = true → ElidedWhole name new [c] := fun c hc => by
      have hnot : ¬ IsWord script.isIdent [c] := fun hword =>
        Bool.false_ne_true ((isWord_not_blank hword).2.symm.trans hc)
      refine elidedWhole_of_not_isWord hname (.inr ⟨c, ?_, rfl⟩) hnot
      exact Bool.eq_false_iff.mpr fun hident => hnot ⟨List.cons_ne_nil c [], by simpa using hident⟩
    obtain ⟨line, hline, ht⟩ := List.mem_flatMap.mp ht
    unfold lineTokens at ht
    dsimp only at ht
    split_ifs at ht
    · cases ht
    · rcases List.mem_append.mp ht with ht | ht
      · rcases mem_of_mem_evened _ _ _ ht with ht | rfl
        · exact h line hline t ht
        · exact hsingle ' ' rfl
      · obtain rfl := List.mem_singleton.mp ht
        exact hsingle '\n' rfl

section Spans

variable {source source' : Bytes} {startLine endLine startLine' endLine' : ℕ}

/-- A rename leaves what is hashed as it is just when every token is elided as it asks. -/
theorem hashInput_rename_iff (hname : IsWord script.isIdent name) (hnew : IsWord script.isIdent new)
    (hne : name ≠ new) {lines : List (List Char)} (hcr : ∀ line ∈ lines, '\r' ∉ line.dropLast)
    (hlines : bodyLines source startLine endLine = lines.map utf8)
    (hlines' : bodyLines source' startLine' endLine' =
      (lines.map (rename script name new)).map utf8) :
    hashInput source startLine endLine (utf8 name) =
        hashInput source' startLine' endLine' (utf8 new) ↔
      ∀ line ∈ lines, ∀ w ∈ tokens script.isIdent line, ElidedWhole name new w := by
  have hsep : Separated script.isIdent (bodyTokens script lines) := bodyTokens_separated hcr
  have hsep' := Separated.map_renameToken hname hnew hsep
  have hbody : normalizeBody source startLine endLine = utf8 (bodyTokens script lines).flatten :=
    normalizeBody_utf8 hlines
  have hbody' : normalizeBody source' startLine' endLine' =
      utf8 (bodyTokens script (lines.map (rename script name new))).flatten :=
    normalizeBody_utf8 hlines'
  unfold hashInput
  rw [hbody, hbody', bodyTokens_rename hname hnew, ← elidedWhole_body_iff hname]
  by_cases hone : Elided name ∨ Elided new
  · rw [elideIdentifier_flatten hsep, elideIdentifier_flatten hsep', List.flatMap_map,
      flatMap_eq_iff_of_clash fun t _ =>
        (image_cases hname hnew hne hone t).imp And.left And.left]
    refine forall₂_congr fun t _ => ?_
    rcases image_cases hname hnew hne hone t with ⟨hsame, hwhole⟩ | ⟨hclash, hnot⟩
    · exact iff_of_true hsame hwhole
    · exact iff_of_false hclash.ne hnot
  · obtain ⟨hold, hfresh⟩ := not_or.mp hone
    rw [elideIdentifier_of_not hold, elideIdentifier_of_not hfresh]
    have hfixed : utf8 (bodyTokens script lines).flatten =
        utf8 ((bodyTokens script lines).map (renameToken name new)).flatten ↔
          (bodyTokens script lines).map id =
            (bodyTokens script lines).map (renameToken name new) := by
      rw [List.map_id]
      refine ⟨fun h => ?_, fun h => by rw [← h]⟩
      have hsame := congrArg (tokens script.isIdent) (utf8_injective h)
      rwa [hsep.tokens_flatten, hsep'.tokens_flatten] at hsame
    rw [hfixed, List.map_inj_left]
    refine forall₂_congr fun t _ => ?_
    unfold renameToken ElidedWhole
    split_ifs with ht
    · exact iff_of_false (fun h => hne (ht.symm.trans h)) fun h => hold h.1
    · exact iff_of_true rfl ⟨fun h => absurd h hold, fun h => absurd h hfresh⟩

/-! ### Runs of white space -/

theorem count_space_elideIdentifier (bytes n : Bytes) :
    (elideIdentifier bytes n).count space = bytes.count space := by
  by_cases hn : IsWord isIdent n
  · have hmark : ∀ u, (mark n u).count space = u.count space := by
      intro u
      unfold mark
      split_ifs with hsame
      · have hnone : space ∉ u := fun hmem => absurd (hn.2 space (hsame ▸ hmem)) (by decide)
        rw [List.count_eq_zero.mpr hnone]
        rfl
      · rfl
    rw [elideIdentifier_eq hn]
    conv_rhs => rw [← flatten_tokens (p := isIdent) bytes]
    induction tokens isIdent bytes with
    | nil => rfl
    | cons u us ih =>
      rw [List.flatMap_cons, List.flatten_cons, List.count_append, List.count_append, hmark, ih]
  · rw [elideIdentifier_of_not hn]

/-- What was written before a line stays in front of it. -/
theorem push_out (bytes lead out : Bytes) (started pending : Bool) :
    bytes.foldl LineState.push ⟨lead ++ out, started, pending⟩ =
      { bytes.foldl LineState.push ⟨out, started, pending⟩ with
        out := lead ++ (bytes.foldl LineState.push ⟨out, started, pending⟩).out } := by
  induction bytes generalizing out started pending with
  | nil => rfl
  | cons b bytes ih =>
    rw [List.foldl_cons, List.foldl_cons, LineState.push, LineState.push]
    split_ifs
    · exact ih out started pending
    · exact ih out started true
    · have h := ih (out ++ [space] ++ [b]) true false
      simpa only [List.append_assoc] using h
    · have h := ih (out ++ [b]) true false
      simpa only [List.append_assoc] using h

theorem push_started (bytes : Bytes) {s : LineState} (hs : s.lineStarted = true) :
    (bytes.foldl LineState.push s).lineStarted = true := by
  induction bytes generalizing s with
  | nil => exact hs
  | cons b bytes ih =>
    refine ih ?_
    unfold LineState.push
    split_ifs
    · exact hs
    · exact hs
    · rfl
    · rfl

theorem appendLine_out (lead out line : Bytes) :
    appendLine (lead ++ out) line = lead ++ appendLine out line := by
  unfold appendLine pushNormalizedLine
  rw [push_out]
  dsimp only
  split_ifs <;> simp

theorem foldl_appendLine (lines : List Bytes) (lead out : Bytes) :
    lines.foldl appendLine (lead ++ out) = lead ++ lines.foldl appendLine out := by
  induction lines generalizing out with
  | nil => rfl
  | cons line lines ih => rw [List.foldl_cons, List.foldl_cons, appendLine_out, ih]

/-- Between two bytes of a line white space is written as one space, unless it is all carriage
returns. -/
theorem normalize_run (before after : List Bytes) (left right : Bytes) {x y : UInt8}
    (hx : isAsciiWhitespace x = false) (hy : isAsciiWhitespace y = false) :
    ∃ lead trail, ∀ gap, Blank gap →
      (before ++ (left ++ x :: (gap ++ y :: right)) :: after).foldl appendLine [] =
        lead ++ (if gap.any (· ≠ carriageReturn) then [space] else []) ++ trail := by
  have hplain : ∀ {b : UInt8}, isAsciiWhitespace b = false → ∀ s : LineState, s.push b =
      ⟨(if s.lineStarted && s.pendingSpace then s.out ++ [space] else s.out) ++ [b], true, false⟩ :=
    fun hb s => foldl_push_plain (List.cons_ne_nil _ []) (by simpa using hb) s
  simp only [List.foldl_append, List.foldl_cons]
  generalize before.foldl appendLine [] = acc
  obtain ⟨out, hout⟩ : ∃ out, (left ++ [x]).foldl LineState.push ⟨acc, false, false⟩ =
      ⟨out, true, false⟩ := by
    rw [List.foldl_append, List.foldl_cons, List.foldl_nil, hplain hx]
    exact ⟨_, rfl⟩
  refine ⟨out, after.foldl appendLine
    ((right.foldl LineState.push ⟨[y], true, false⟩).out ++ [lineFeed]), fun gap hgap => ?_⟩
  have hfold : (left ++ x :: (gap ++ y :: right)).foldl LineState.push ⟨acc, false, false⟩ =
      right.foldl LineState.push
        ⟨(out ++ if gap.any (· ≠ carriageReturn) then [space] else []) ++ [y], true, false⟩ := by
    rw [List.append_cons, List.foldl_append, hout, List.foldl_append, push_blank hgap,
      List.foldl_cons, hplain hy, Bool.false_or]
    dsimp only
    rw [Bool.true_and]
    split_ifs
    · rfl
    · rw [List.append_nil]
  have hline : appendLine acc (left ++ x :: (gap ++ y :: right)) =
      out ++ (if gap.any (· ≠ carriageReturn) then [space] else []) ++
        ((right.foldl LineState.push ⟨[y], true, false⟩).out ++ [lineFeed]) := by
    unfold appendLine pushNormalizedLine
    rw [hfold, push_out]
    dsimp only
    rw [push_started right rfl, if_pos rfl, List.append_assoc]
  rw [hline, foldl_appendLine]

/-- Two runs of white space give the same input when both are all carriage returns or neither. -/
theorem hashInput_run_iff {before after : List Bytes} {left right gap gap' : Bytes} {x y : UInt8}
    (hx : isAsciiWhitespace x = false) (hy : isAsciiWhitespace y = false) (hgap : Blank gap)
    (hgap' : Blank gap')
    (hlines : bodyLines source startLine endLine =
      before ++ (left ++ x :: (gap ++ y :: right)) :: after)
    (hlines' : bodyLines source' startLine' endLine' =
      before ++ (left ++ x :: (gap' ++ y :: right)) :: after) (n : Bytes) :
    hashInput source startLine endLine n = hashInput source' startLine' endLine' n ↔
      ((∃ b ∈ gap, b ≠ carriageReturn) ↔ ∃ b ∈ gap', b ≠ carriageReturn) := by
  have hany : ∀ bytes : Bytes, (∃ b ∈ bytes, b ≠ carriageReturn) ↔
      bytes.any (· ≠ carriageReturn) = true := fun bytes => by simp
  obtain ⟨lead, trail, hrun⟩ := normalize_run before after left right hx hy
  unfold hashInput normalizeBody
  rw [hlines, hlines', hrun gap hgap, hrun gap' hgap', hany, hany, ← Bool.eq_iff_iff]
  constructor
  · intro h
    have hcount := congrArg (List.count space) h
    rw [count_space_elideIdentifier, count_space_elideIdentifier] at hcount
    simp only [List.count_append] at hcount
    generalize gap.any (· ≠ carriageReturn) = old at hcount ⊢
    generalize gap'.any (· ≠ carriageReturn) = fresh at hcount ⊢
    have htoNat : ∀ flag : Bool, (if flag then [space] else []).count space = flag.toNat :=
      fun flag => by cases flag <;> rfl
    rw [htoNat, htoNat] at hcount
    have hsame : old.toNat = fresh.toNat := by omega
    cases old <;> cases fresh <;> first | rfl | cases hsame
  · intro h
    rw [h]

end Spans

/-- What is hashed outlives every change of layout, and a rename of the function just when both
names are elided as whole words and nowhere else. -/
theorem hashInput_unchanged_iff (source source' : Bytes)
    (startLine endLine startLine' endLine' : ℕ) :
    (∀ name : Bytes, Relation.EqvGen Reformat (bodyLines source startLine endLine)
        (bodyLines source' startLine' endLine') →
      hashInput source startLine endLine name = hashInput source' startLine' endLine' name) ∧
    (∀ (name : Bytes) (before after : List Bytes) (left right gap gap' : Bytes) (x y : UInt8),
      isAsciiWhitespace x = false → isAsciiWhitespace y = false → Blank gap → Blank gap' →
      bodyLines source startLine endLine =
        before ++ (left ++ x :: (gap ++ y :: right)) :: after →
      bodyLines source' startLine' endLine' =
        before ++ (left ++ x :: (gap' ++ y :: right)) :: after →
      (hashInput source startLine endLine name = hashInput source' startLine' endLine' name ↔
        ((∃ b ∈ gap, b ≠ carriageReturn) ↔ ∃ b ∈ gap', b ≠ carriageReturn))) ∧
    ∀ (script : Script) (name new : List Char), IsWord script.isIdent name →
      IsWord script.isIdent new → name ≠ new →
      ∀ lines : List (List Char), (∀ line ∈ lines, '\r' ∉ line.dropLast) →
      bodyLines source startLine endLine = lines.map utf8 →
      bodyLines source' startLine' endLine' = (lines.map (rename script name new)).map utf8 →
      (hashInput source startLine endLine (utf8 name) =
          hashInput source' startLine' endLine' (utf8 new) ↔
        ∀ line ∈ lines, ∀ w ∈ tokens script.isIdent line, ElidedWhole name new w) := by
  refine ⟨fun name h => ?_,
    fun name before after left right gap gap' x y hx hy hgap hgap' hlines hlines' =>
      hashInput_run_iff hx hy hgap hgap' hlines hlines' name,
    fun script name new hname hnew hne lines hcr hlines hlines' =>
      hashInput_rename_iff hname hnew hne hcr hlines hlines'⟩
  unfold hashInput normalizeBody
  rw [foldl_eq_of_eqvGen h]

/-- The ASCII identifier characters and everything beyond ASCII. -/
def anyScript : Script where
  isIdent c := 128 ≤ c.toNat || isIdent (UInt8.ofNat c.toNat)
  ascii c hc := by simp [Nat.not_le.mpr hc]

theorem hashInput_unchanged_short :
    hashInput [97, 32, 98] 1 1 [] = hashInput [9, 97, 32, 98] 1 1 [] ∧
      hashInput [97, 32, 98] 1 1 [] = hashInput [97, 9, 9, 98] 1 1 [] ∧
      hashInput (utf8 "f(f1)".toList) 1 1 (utf8 "f".toList) =
        hashInput (utf8 "go(f1)".toList) 1 1 (utf8 "go".toList) := by
  refine ⟨(hashInput_unchanged_iff _ _ _ _ _ _).1 _ (.rel _ _ ?_),
    ((hashInput_unchanged_iff _ _ _ _ _ _).2.1 [] [] [] [] [] [32] [9, 9] 97 98 rfl rfl
      (by simp [Blank, isAsciiWhitespace, space]) (by simp [Blank, isAsciiWhitespace]) rfl rfl).mpr
      (by simp [carriageReturn]),
    ((hashInput_unchanged_iff _ _ _ _ _ _).2.2 anyScript "f".toList "go".toList ?_ ?_
      (by decide) ["f(f1)".toList] (by simp) rfl rfl).mpr ?_⟩
  · exact @Reformat.indent [] [] [] [9] [97, 32, 98] (fun _ h => absurd h List.not_mem_nil) (by simp [Blank, isAsciiWhitespace])
  · exact ⟨by decide, List.all_eq_true.mp (by decide)⟩
  · exact ⟨by decide, List.all_eq_true.mp (by decide)⟩
  · have hold : Elided "f".toList := ⟨by decide, List.all_eq_true.mp (by decide)⟩
    have hfresh : Elided "go".toList := ⟨by decide, List.all_eq_true.mp (by decide)⟩
    have htokens : tokens anyScript.isIdent "f(f1)".toList =
        ["f".toList, "(".toList, "f1".toList, ")".toList] := by decide
    simp only [List.forall_mem_cons, List.not_mem_nil, false_imp_iff, implies_true, and_true,
      htokens]
    refine ⟨?_, ?_, ?_, ?_⟩
    · exact ⟨hold, hfresh⟩
    all_goals exact ⟨fun _ => by decide, fun _ => by decide⟩

/-- A function whose name is not ASCII keeps its name in what is hashed. -/
theorem hashInput_rename_accent :
    IsWord anyScript.isIdent "é".toList ∧ IsWord anyScript.isIdent "e".toList ∧
      "e".toList ∉ tokens anyScript.isIdent "é()".toList ∧
      rename anyScript "é".toList "e".toList "é()".toList = "e()".toList ∧
      hashInput (utf8 "é()".toList) 1 1 (utf8 "é".toList) ≠
        hashInput (utf8 "e()".toList) 1 1 (utf8 "e".toList) := by
  exact ⟨⟨by decide, List.all_eq_true.mp (by decide)⟩, ⟨by decide, List.all_eq_true.mp (by decide)⟩,
    by decide, by decide, by decide⟩

end BigCodeAnalysis.Baseline.BodyHash
