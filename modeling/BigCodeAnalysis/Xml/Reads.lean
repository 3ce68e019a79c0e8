import BigCodeAnalysis.Xml.Reader
import Mathlib.Data.List.TakeWhile

/-! How the reader reads a text put together from tags and white space. -/

namespace BigCodeAnalysis.Xml

theorem normalizeLineEnds_eq {text : List Char} (h : '\r' ∉ text) :
    normalizeLineEnds text = text := by
  fun_induction normalizeLineEnds text with
  | case1 => rfl
  | case2 rest ih => simp at h
  | case3 rest hne ih => simp at h
  | case4 c rest hne hne' ih =>
    rw [List.mem_cons, not_or] at h
    rw [ih h.2]

/-! ### References -/

/-- What is read of a text does not depend on what follows it. -/
theorem decodeFrom_append (normal : Char → Char) (xs ys : List Char) : ∀ state out,
    decodeFrom normal state xs = some out →
    decodeFrom normal state (xs ++ ys) = (decodeFrom normal none ys).map (out ++ ·) := by
  induction xs with
  | nil =>
    intro state out h
    cases state with
    | none =>
      obtain rfl : [] = out := by simpa [decodeFrom] using h
      simp
    | some body => simp [decodeFrom] at h
  | cons c xs ih =>
    intro state out h
    cases state with
    | none =>
      rw [List.cons_append, decodeFrom] at *
      split_ifs at h ⊢
      · exact ih _ _ h
      · obtain ⟨rest, hrest, rfl⟩ := Option.map_eq_some_iff.mp h
        rw [ih _ _ hrest]
        simp [Function.comp_def]
    | some body =>
      rw [List.cons_append, decodeFrom] at *
      split_ifs at h ⊢
      · obtain ⟨d, hd, h⟩ := Option.bind_eq_some_iff.mp h
        obtain ⟨rest, hrest, rfl⟩ := Option.map_eq_some_iff.mp h
        rw [hd, Option.bind_some, ih _ _ hrest]
        simp [Function.comp_def]
      · exact ih _ _ h

theorem decode_append {normal : Char → Char} {xs ys out out' : List Char}
    (hxs : decode normal xs = some out) (hys : decode normal ys = some out') :
    decode normal (xs ++ ys) = some (out ++ out') := by
  rw [decode, decodeFrom_append normal xs ys none out hxs]
  rw [decode] at hys
  rw [hys]
  rfl

/-- A text without markup is read character by character. -/
theorem decode_plain (normal : Char → Char) {text : List Char} (hlt : '<' ∉ text)
    (hamp : '&' ∉ text) : decode normal text = some (text.map normal) := by
  induction text with
  | nil => rfl
  | cons c text ih =>
    rw [List.mem_cons, not_or] at hlt hamp
    have hrest := ih hlt.2 hamp.2
    rw [decode] at hrest
    rw [decode, decodeFrom, if_neg (Ne.symm hlt.1), if_neg (Ne.symm hamp.1), hrest]
    rfl

theorem decode_flatMap {normal : Char → Char} {f : Char → List Char} {g : Char → Char}
    {text : List Char} (h : ∀ c ∈ text, decode normal (f c) = some [g c]) :
    decode normal (text.flatMap f) = some (text.map g) := by
  induction text with
  | nil => rfl
  | cons c text ih =>
    rw [List.flatMap_cons, List.map_cons]
    exact decode_append (h c List.mem_cons_self) (ih fun d hd => h d (List.mem_cons_of_mem _ hd))

/-! ### Names and attributes -/

/-- A name followed by a character that is not of it. -/
def IsName (key : List Char) : Prop :=
  ∃ c rest, key = c :: rest ∧ isNameStart c = true ∧ ∀ d ∈ rest, isNameChar d = true

theorem name_append {key rest : List Char} {c : Char} (hkey : IsName key)
    (hc : isNameChar c = false) : name (key ++ c :: rest) = some (key, c :: rest) := by
  obtain ⟨d, tail, rfl, hstart, htail⟩ := hkey
  rw [List.cons_append, name, if_pos hstart, List.takeWhile_append_of_pos htail,
    List.dropWhile_append_of_pos htail]
  simp [hc]

theorem IsName.head_ne {key : List Char} (h : IsName key) {c : Char} (hc : isNameStart c = false)
    (rest : List Char) : (key ++ rest).head? ≠ some c := by
  obtain ⟨d, tail, rfl, hstart, -⟩ := h
  rw [List.cons_append, List.head?_cons]
  rintro ⟨rfl⟩
  rw [hstart] at hc
  cases hc

/-- Attributes as a writer puts them, each behind a space and in double quotes. -/
def written (raw : List (List Char × List Char)) : List Char :=
  raw.flatMap fun a => ' ' :: (a.1 ++ '=' :: '"' :: (a.2 ++ ['"']))

theorem length_le_written (raw : List (List Char × List Char)) :
    raw.length ≤ (written raw).length := by
  induction raw with
  | nil => exact Nat.zero_le _
  | cons a raw ih =>
    rw [written, List.flatMap_cons, List.length_append, List.length_cons, List.length_cons]
    rw [written] at ih
    omega

theorem quoted_append {value rest : List Char} (h : '"' ∉ value) :
    quoted ('"' :: (value ++ '"' :: rest)) = some (value, rest) := by
  have hall : ∀ c ∈ value, (decide (c ≠ '"')) = true := by
    intro c hc
    simpa using fun heq : c = '"' => h (heq ▸ hc)
  rw [quoted, if_pos ⟨.inl rfl, by simp⟩, List.takeWhile_append_of_pos hall,
    List.dropWhile_append_of_pos hall]
  simp

theorem skipSpace_cons {c : Char} {rest : List Char} (h : isSpace c = false) :
    skipSpace (c :: rest) = c :: rest := by
  simp [skipSpace, h]

theorem oneAttribute_append {key value rest : List Char} (hkey : IsName key) (hvalue : '"' ∉ value) :
    oneAttribute (key ++ '=' :: '"' :: (value ++ '"' :: rest)) = some ((key, value), rest) := by
  have hname : name (key ++ '=' :: '"' :: (value ++ '"' :: rest)) = _ :=
    name_append hkey (by decide)
  rw [oneAttribute, hname]
  simp only [Option.bind_eq_bind, Option.bind_some]
  rw [skipSpace_cons (by decide)]
  simp only
  rw [skipSpace_cons (by decide), quoted_append hvalue]
  rfl

theorem isSpace_of_isNameStart {c : Char} (h : isNameStart c = true) : isSpace c = false := by
  cases hspace : isSpace c with
  | false => rfl
  | true =>
    simp only [isSpace, Bool.or_eq_true, decide_eq_true_eq] at hspace
    rcases hspace with ((rfl | rfl) | rfl) | rfl <;> exact absurd h (by decide)

theorem IsName.skipSpace_append {key : List Char} (h : IsName key) (rest : List Char) :
    skipSpace (' ' :: (key ++ rest)) = key ++ rest := by
  obtain ⟨c, tail, rfl, hstart, -⟩ := h
  have hspace : isSpace ' ' = true := by decide
  rw [skipSpace, List.dropWhile_cons_of_pos hspace, List.cons_append,
    List.dropWhile_cons_of_neg (by rw [isSpace_of_isNameStart hstart]; simp)]

/-- The character behind the attributes of a tag. -/
def EndsAttributes (c : Char) : Prop := c = '/' ∨ c = '>' ∨ c = '?'

theorem attributes_written {raw : List (List Char × List Char)}
    (hraw : ∀ a ∈ raw, IsName a.1 ∧ '"' ∉ a.2) {c : Char} (hc : EndsAttributes c)
    (rest : List Char) : ∀ fuel, raw.length < fuel →
      attributes fuel (written raw ++ c :: rest) = some (raw, c :: rest) := by
  induction raw with
  | nil =>
    rintro (_ | fuel) hfuel
    · omega
    · have hspace : skipSpace (c :: rest) = c :: rest := by
        refine skipSpace_cons ?_
        rcases hc with rfl | rfl | rfl <;> decide
      have hend : (c :: rest).head?.all (fun c => c = '/' || c = '>' || c = '?') = true := by
        rcases hc with rfl | rfl | rfl <;> rfl
      rw [written, List.flatMap_nil, List.nil_append, attributes, hspace]
      exact if_pos hend
  | cons a raw ih =>
    rintro (_ | fuel) hfuel
    · omega
    obtain ⟨hkey, hvalue⟩ := hraw a List.mem_cons_self
    have hwritten : written (a :: raw) ++ c :: rest =
        ' ' :: (a.1 ++ ('=' :: '"' :: (a.2 ++ '"' :: (written raw ++ c :: rest)))) := by
      simp [written]
    have hends : ¬ (a.1 ++ ('=' :: '"' :: (a.2 ++ '"' :: (written raw ++ c :: rest)))).head?.all
        (fun c => c = '/' || c = '>' || c = '?') = true := by
      obtain ⟨d, tail, hd, hstart, -⟩ := hkey
      rw [hd, List.cons_append, List.head?_cons, Option.all_some]
      intro hd
      simp only [Bool.or_eq_true, decide_eq_true_eq] at hd
      rcases hd with (rfl | rfl) | rfl <;> exact absurd hstart (by decide)
    have hrest := ih (fun b hb => hraw b (List.mem_cons_of_mem _ hb)) fuel
      (by rw [List.length_cons] at hfuel; omega)
    rw [hwritten, attributes, hkey.skipSpace_append, if_neg hends,
      if_neg (by rw [List.length_cons]; omega), oneAttribute_append hkey hvalue]
    simp only [Option.bind_eq_bind, Option.bind_some, hrest]
    rfl

theorem readAttributes_eq {raw : List (List Char × List Char)} {values : List (List Char)}
    (hnodup : (raw.map Prod.fst).Nodup)
    (hvalues : List.Forall₂ (fun a value => decode normalizeSpace a.2 = some value) raw values) :
    readAttributes raw = some ((raw.map fun a => String.ofList a.1).zip
      (values.map String.ofList)) := by
  rw [readAttributes, if_pos hnodup]
  clear hnodup
  induction hvalues with
  | nil => rfl
  | cons hvalue _ ih =>
    rw [List.mapM_cons, hvalue, ih]
    rfl

/-! ### Tags -/

theorem name_written {key : List Char} (hkey : IsName key) (raw : List (List Char × List Char))
    {c : Char} (hc : EndsAttributes c) (rest : List Char) :
    name (key ++ (written raw ++ c :: rest)) = some (key, written raw ++ c :: rest) := by
  cases raw with
  | nil =>
    refine name_append hkey ?_
    rcases hc with rfl | rfl | rfl <;> decide
  | cons a raw => exact name_append hkey (by decide)

section Tag

variable {key : List Char} (hkey : IsName key) {raw : List (List Char × List Char)}
  (hraw : ∀ a ∈ raw, IsName a.1 ∧ '"' ∉ a.2) {attrs : List (String × String)}
  (hattrs : readAttributes raw = some attrs) (rest : List Char)

include hkey hraw hattrs

theorem openingTag_written {c : Char} (hc : EndsAttributes c) (after : List Char) :
    openingTag (key ++ (written raw ++ c :: after)) =
      tagEnd (String.ofList key) attrs (c :: after) := by
  have hfuel : raw.length < (written raw ++ c :: after).length + 1 := by
    have hlen := length_le_written raw
    rw [List.length_append]
    omega
  have hread := attributes_written hraw hc after _ hfuel
  rw [openingTag, name_written hkey raw hc after]
  simp only [Option.bind_eq_bind, Option.bind_some, hread, hattrs]

theorem tag_empty : tag (key ++ (written raw ++ '/' :: '>' :: rest)) =
    some (.empty (String.ofList key) attrs, rest) := by
  rw [tag, if_neg (hkey.head_ne (by decide) _),
    openingTag_written hkey hraw hattrs (.inl rfl) ('>' :: rest), tagEnd]

theorem tag_open : tag (key ++ (written raw ++ '>' :: rest)) =
    some (.open (String.ofList key) attrs, rest) := by
  rw [tag, if_neg (hkey.head_ne (by decide) _),
    openingTag_written hkey hraw hattrs (.inr (.inl rfl)) rest, tagEnd]

end Tag

theorem tag_close {key : List Char} (hkey : IsName key) (rest : List Char) :
    tag ('/' :: (key ++ '>' :: rest)) = some (.close (String.ofList key), rest) := by
  have hname : name (key ++ '>' :: rest) = some (key, '>' :: rest) :=
    name_append hkey (by decide)
  rw [tag, List.head?_cons, if_pos rfl, List.tail_cons, closingTag, hname]
  simp only [Option.bind_eq_bind, Option.bind_some]
  rw [skipSpace_cons (by decide)]
  rfl

/-! ### Tokens -/

/-- The text is read as the tokens, whatever is read behind it. -/
def Lexed (xs : List Char) (ts : List Token) : Prop :=
  ∀ rest us, (∀ fuel, rest.length ≤ fuel → tokens fuel rest = some us) →
    ∀ fuel, (xs ++ rest).length ≤ fuel → tokens fuel (xs ++ rest) = some (ts ++ us)

theorem Lexed.nil : Lexed [] [] := fun _ _ h => h

theorem Lexed.append {xs ys : List Char} {ts us : List Token} (hx : Lexed xs ts)
    (hy : Lexed ys us) : Lexed (xs ++ ys) (ts ++ us) := by
  intro rest vs h
  rw [List.append_assoc, List.append_assoc]
  exact hx (ys ++ rest) (us ++ vs) (hy rest vs h)

theorem Lexed.flatMap {α : Type*} {f : α → List Char} {g : α → List Token} (as : List α)
    (h : ∀ a ∈ as, Lexed (f a) (g a)) : Lexed (as.flatMap f) (as.flatMap g) := by
  induction as with
  | nil => exact .nil
  | cons a as ih =>
    exact (h a List.mem_cons_self).append (ih fun b hb => h b (List.mem_cons_of_mem _ hb))

/-- A tag, with what `tag` says of it. -/
theorem Lexed.tag {xs : List Char} {t : Token}
    (h : ∀ rest, Xml.tag (xs ++ rest) = some (t, rest)) : Lexed ('<' :: xs) [t] := by
  rintro rest us hrest (_ | fuel) hfuel
  · simp at hfuel
  · have hlen : rest.length ≤ fuel := by
      rw [List.cons_append, List.length_cons, List.length_append] at hfuel
      omega
    rw [List.cons_append, tokens, if_pos rfl, h]
    simp only [Option.bind_eq_bind, Option.bind_some, hrest fuel hlen]
    rfl

/-- White space before a tag. -/
theorem Lexed.space {ws xs : List Char} {ts : List Token} (hne : ws ≠ [])
    (hws : ws.all isSpace = true) (h : Lexed ('<' :: xs) ts) :
    Lexed (ws ++ '<' :: xs) (.text ws :: ts) := by
  rintro rest us hrest (_ | fuel) hfuel
  · simp at hfuel
  · obtain ⟨c, tail, rfl⟩ := List.exists_cons_of_ne_nil hne
    have hnot : ∀ d ∈ c :: tail, decide (d ≠ '<') = true := by
      intro d hd
      have hspace := List.all_eq_true.mp hws d hd
      rw [decide_eq_true_eq]
      rintro rfl
      exact absurd hspace (by decide)
    obtain ⟨hc, htail⟩ := List.forall_mem_cons.mp hnot
    have hnext := h rest us hrest fuel (by
      rw [List.length_append, List.length_append, List.length_cons] at hfuel
      rw [List.length_append]
      omega)
    rw [List.append_assoc, List.cons_append, tokens, if_neg (by simpa using hc),
      List.takeWhile_append_of_pos htail, List.dropWhile_append_of_pos htail, List.cons_append,
      List.takeWhile_cons_of_neg (by simp), List.dropWhile_cons_of_neg (by simp), List.append_nil]
    rw [List.cons_append] at hnext
    simp only [Option.bind_eq_bind, Option.bind_some, hnext]
    rfl

/-- White space at the end of the document. -/
theorem tokens_space {ws : List Char} (hne : ws ≠ []) (hws : ws.all isSpace = true) :
    ∀ fuel, ws.length ≤ fuel → tokens fuel ws = some [.text ws] := by
  rintro (_ | fuel) hfuel
  · exact absurd (List.length_eq_zero_iff.mp (by omega)) hne
  · obtain ⟨c, tail, rfl⟩ := List.exists_cons_of_ne_nil hne
    have hnot : ∀ d ∈ c :: tail, decide (d ≠ '<') = true := by
      intro d hd
      have hspace := List.all_eq_true.mp hws d hd
      rw [decide_eq_true_eq]
      rintro rfl
      exact absurd hspace (by decide)
    obtain ⟨hc, htail⟩ := List.forall_mem_cons.mp hnot
    rw [tokens, if_neg (by simpa using hc), List.takeWhile_eq_self_iff.mpr htail,
      List.dropWhile_eq_nil_iff.mpr htail]
    cases fuel <;> rfl

/-! ### Content -/

/-- The tokens make the nodes, wherever they stand. -/
def Built (ts : List Token) (nodes : List Node) : Prop :=
  ∀ stack before rest, content stack before (ts ++ rest) = content stack (before ++ nodes) rest

theorem Built.nil : Built [] [] := fun _ before _ => by rw [List.append_nil, List.nil_append]

theorem Built.append {ts us : List Token} {ns ms : List Node} (ht : Built ts ns)
    (hu : Built us ms) : Built (ts ++ us) (ns ++ ms) := by
  intro stack before rest
  rw [List.append_assoc, ht, hu, List.append_assoc]

theorem Built.flatMap {α : Type*} {f : α → List Token} {g : α → List Node} (as : List α)
    (h : ∀ a ∈ as, Built (f a) (g a)) : Built (as.flatMap f) (as.flatMap g) := by
  induction as with
  | nil => exact .nil
  | cons a as ih =>
    exact (h a List.mem_cons_self).append (ih fun b hb => h b (List.mem_cons_of_mem _ hb))

theorem characterData_space {ws : List Char} (hws : ws.all isSpace = true) (top : Bool) :
    characterData ws top = some ws := by
  have hnot : ∀ c, isSpace c = false → c ∉ ws := fun c hc hmem => by
    rw [List.all_eq_true.mp hws c hmem] at hc
    cases hc
  have hbracket : ¬ [']', ']', '>'] <:+: ws := fun h =>
    hnot ']' (by decide) (h.subset List.mem_cons_self)
  rw [characterData, if_neg (by simp [hbracket, hws]),
    decode_plain id (hnot '<' (by decide)) (hnot '&' (by decide)), List.map_id]

theorem Built.space {ws : List Char} (hws : ws.all isSpace = true) :
    Built [.text ws] [.text (String.ofList ws)] := by
  intro stack before rest
  rw [List.singleton_append]
  cases stack with
  | nil =>
    rw [content, characterData_space hws]
    rfl
  | cons frame stack =>
    rw [content, characterData_space hws]
    rfl

theorem Built.empty (key : String) (attrs : List (String × String)) :
    Built [.empty key attrs] [.element key attrs []] := by
  intro stack before rest
  cases stack <;> rfl

theorem Built.element (key : String) (attrs : List (String × String)) {ts : List Token}
    {nodes : List Node} (h : Built ts nodes) :
    Built (.open key attrs :: (ts ++ [.close key])) [.element key attrs nodes] := by
  intro stack before rest
  have hinside := h (⟨key, attrs, before⟩ :: stack) [] ([.close key] ++ rest)
  have hopen : content stack before (.open key attrs :: (ts ++ [.close key]) ++ rest) =
      content (⟨key, attrs, before⟩ :: stack) [] (ts ++ ([.close key] ++ rest)) := by
    rw [← List.append_assoc]
    cases stack <;> rfl
  rw [hopen, hinside, List.nil_append, List.singleton_append, content, if_pos rfl]

/-! ### Documents -/

theorem document_eq {text : String} {raw : List (List Char × List Char)} {body : List Char}
    {ts : List Token} {nodes : List Node} {root : Node}
    (htext : text.toList = '<' :: '?' :: 'x' :: 'm' :: 'l' :: (written raw ++ '?' :: '>' :: body))
    (hchars : ∀ c ∈ text.toList, isChar c = true) (hcr : '\r' ∉ text.toList)
    (hraw : ∀ a ∈ raw, IsName a.1 ∧ '"' ∉ a.2) (hdecl : isDeclaration raw = true)
    (htokens : ∀ fuel, body.length ≤ fuel → tokens fuel body = some ts) (hbuilt : Built ts nodes)
    (hroot : nodes.filter Node.isElement = [root]) : document text = some root := by
  have hfuel : raw.length < (written raw ++ '?' :: '>' :: body).length + 1 := by
    have hlen := length_le_written raw
    rw [List.length_append]
    omega
  have hread := attributes_written hraw (.inr (.inr rfl)) ('>' :: body) _ hfuel
  have hdeclaration : declaration text.toList = some body := by
    rw [htext, declaration]
    simp only [Option.bind_eq_bind, Option.bind_some, hread]
    exact if_pos hdecl
  have hcontent : content [] [] ts = some nodes := by
    have hall := hbuilt [] [] []
    rwa [List.append_nil, List.nil_append] at hall
  rw [document, normalizeLineEnds_eq hcr, if_pos (List.all_eq_true.mpr hchars), hdeclaration]
  simp only [Option.bind_eq_bind, Option.bind_some, htokens _ (Nat.le_refl _), hcontent, hroot]

theorem trimAll_append (xs ys : List Node) : trimAll (xs ++ ys) = trimAll xs ++ trimAll ys := by
  induction xs with
  | nil => rfl
  | cons node xs ih =>
    rw [List.cons_append, trimAll, trimAll, ih]
    split_ifs <;> rfl

theorem trimAll_flatMap {α : Type*} (f : α → List Node) (as : List α) :
    trimAll (as.flatMap f) = as.flatMap fun a => trimAll (f a) := by
  induction as with
  | nil => rfl
  | cons a as ih => rw [List.flatMap_cons, List.flatMap_cons, trimAll_append, ih]

theorem trimAll_space {ws : List Char} (hws : ws.all isSpace = true) (nodes : List Node) :
    trimAll (.text (String.ofList ws) :: nodes) = trimAll nodes := by
  rw [trimAll, if_pos]
  rw [Node.isBlank, String.toList_ofList]
  exact hws

theorem trimAll_element (key : String) (attrs : List (String × String)) (inside nodes : List Node) :
    trimAll (.element key attrs inside :: nodes) =
      .element key attrs (trimAll inside) :: trimAll nodes := by
  rw [trimAll, Node.isBlank, if_neg Bool.false_ne_true, Node.trim]

end BigCodeAnalysis.Xml
