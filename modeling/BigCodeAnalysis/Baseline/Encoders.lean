import BigCodeAnalysis.Baseline.PathKey
import BigCodeAnalysis.Sequences.Utf8Code
import Mathlib.Tactic.IntervalCases
import Mathlib.Tactic.Push

/-! The encoders lose nothing but the difference between the two separators. What they write is
a sequence of tokens, one for a byte and one for a surrogate that pairs with none, and each is
read back from its text. -/

namespace BigCodeAnalysis.Baseline

open Sequences

/-! ### Tokens -/

/-- The text of a byte, or of a surrogate without its pair. -/
def tokenText : UInt8 ⊕ UInt16 → List Char
  | .inl b => pushPercentEncodedByte b
  | .inr u => wideToken (.inr u)

def digitValue (c : Char) : ℕ := if c.toNat < 58 then c.toNat - 48 else c.toNat - 55

theorem digitValue_hexDigit (n : ℕ) (h : n < 16) : digitValue (hexDigit n) = n := by
  interval_cases n <;> rfl

theorem hexDigit_ne_u (n : ℕ) (h : n < 16) : hexDigit n ≠ 'u' := by
  interval_cases n <;> decide

/-- The token a text begins with. -/
def readToken (text : List Char) : UInt8 ⊕ UInt16 :=
  let digit i := digitValue (text.getD i '0')
  if text.getD 0 '0' ≠ '%' then .inl (UInt8.ofNat (text.getD 0 '0').toNat)
  else if text.getD 1 '0' = 'u' then
    .inr (UInt16.ofNat (digit 2 * 4096 + digit 3 * 256 + digit 4 * 16 + digit 5))
  else .inl (UInt8.ofNat (digit 1 * 16 + digit 2))

theorem fold_fold (b : UInt8) : fold (fold b) = fold b := by
  by_cases h : b = backslash
  · rw [h]
    rfl
  · simp [fold, h]

theorem isUnreserved_ne_percent {b : UInt8} (h : isUnreserved b = true) : b ≠ 37 := by
  rintro rfl
  exact absurd h (by decide)

theorem toNat_ofNat_byte (b : UInt8) : (Char.ofNat b.toNat).toNat = b.toNat := by
  have hlt := b.toNat_lt
  have hvalid : b.toNat.isValidChar := .inl (by omega)
  rw [Char.ofNat, dif_pos hvalid]
  rfl

theorem readToken_byte (b : UInt8) (rest : List Char) :
    readToken (tokenText (.inl b) ++ rest) = .inl (fold b) := by
  have hlt := (fold b).toNat_lt
  unfold tokenText pushPercentEncodedByte
  by_cases h : isUnreserved (fold b) = true
  · have hchar : Char.ofNat (fold b).toNat ≠ '%' := by
      intro heq
      have hnat := congrArg Char.toNat heq
      rw [toNat_ofNat_byte] at hnat
      exact isUnreserved_ne_percent h (UInt8.toNat_inj.mp hnat)
    simp [readToken, h, hchar, toNat_ofNat_byte]
  · have hhigh : (fold b).toNat / 16 < 16 := by omega
    have hlow : (fold b).toNat % 16 < 16 := by omega
    have hvalue : (fold b).toNat / 16 * 16 + (fold b).toNat % 16 = (fold b).toNat := by omega
    simp [readToken, h, hexDigit_ne_u _ hhigh, digitValue_hexDigit _ hhigh, digitValue_hexDigit _ hlow,
      hvalue]

theorem readToken_surrogate (u : UInt16) (rest : List Char) :
    readToken (tokenText (.inr u) ++ rest) = .inr u := by
  have hlt := u.toNat_lt
  have h₁ : u.toNat / 4096 < 16 := by omega
  have h₂ : u.toNat / 256 % 16 < 16 := by omega
  have h₃ : u.toNat / 16 % 16 < 16 := by omega
  have h₄ : u.toNat % 16 < 16 := by omega
  have hvalue : u.toNat / 4096 * 4096 + u.toNat / 256 % 16 * 256 + u.toNat / 16 % 16 * 16 +
      u.toNat % 16 = u.toNat := by omega
  simp [readToken, tokenText, wideToken, digitValue_hexDigit _ h₁, digitValue_hexDigit _ h₂,
    digitValue_hexDigit _ h₃, digitValue_hexDigit _ h₄, hvalue]

/-- The tokens of folded bytes and of surrogates. -/
theorem prefixCode_tokenText : PrefixCode {t | ∀ b, t = .inl b → fold b = b} tokenText where
  ne_nil := by
    intro t ht hnil
    cases t with
    | inl b =>
      unfold tokenText pushPercentEncodedByte at hnil
      dsimp only at hnil
      split_ifs at hnil
    | inr u => exact List.cons_ne_nil _ _ hnil
  eq_of_prefix := by
    have hread : ∀ t ∈ {t : UInt8 ⊕ UInt16 | ∀ b, t = .inl b → fold b = b}, ∀ rest,
        readToken (tokenText t ++ rest) = t := by
      intro t ht rest
      cases t with
      | inl b => rw [readToken_byte, ht b rfl]
      | inr u => exact readToken_surrogate u rest
    rintro a ha b hb ⟨rest, hrest⟩
    have hleft := hread a ha rest
    have hright := hread b hb []
    rw [List.append_nil, ← hrest] at hright
    exact hleft.symm.trans hright

/-! ### Bytes -/

theorem tokenText_fold (b : UInt8) : tokenText (.inl (fold b)) = pushPercentEncodedByte b := by
  simp only [tokenText, pushPercentEncodedByte, fold_fold]

theorem flatMap_push_eq (bytes : PathBytes) : bytes.flatMap pushPercentEncodedByte =
    (bytes.map fun b => (.inl (fold b) : UInt8 ⊕ UInt16)).flatMap tokenText := by
  rw [List.flatMap_map]
  congr 1
  funext b
  exact (tokenText_fold b).symm

theorem foldedTokens (bytes : PathBytes) : ∀ t ∈ bytes.map fun b => (.inl (fold b) : UInt8 ⊕ UInt16),
    t ∈ {t : UInt8 ⊕ UInt16 | ∀ b, t = .inl b → fold b = b} := by
  intro t ht b heq
  obtain ⟨c, -, rfl⟩ := List.mem_map.mp ht
  obtain rfl := Sum.inl.inj heq
  exact fold_fold c

theorem encodeOsPath_eq (bytes : PathBytes) :
    encodeOsPath bytes = bytes.flatMap pushPercentEncodedByte :=
  ite_self _

/-- Two byte strings are written alike exactly when they differ in separators only. -/
theorem encodeOsPath_inj (bytes bytes' : PathBytes) :
    encodeOsPath bytes = encodeOsPath bytes' ↔ bytes.map fold = bytes'.map fold := by
  rw [encodeOsPath_eq, encodeOsPath_eq, flatMap_push_eq, flatMap_push_eq]
  constructor
  · intro h
    have htokens := prefixCode_tokenText.flatMap_injective (foldedTokens bytes)
      (foldedTokens bytes') h
    have hinl : ∀ bytes : PathBytes, bytes.map (fun b => (.inl (fold b) : UInt8 ⊕ UInt16)) =
        (bytes.map fold).map .inl := fun bytes => (List.map_map ..).symm
    rw [hinl, hinl] at htokens
    exact List.map_injective_iff.mpr Sum.inl_injective htokens
  · intro h
    have hmap := congrArg (List.map (Sum.inl : UInt8 → UInt8 ⊕ UInt16)) h
    rw [List.map_map, List.map_map] at hmap
    exact congrArg (List.flatMap tokenText) hmap

/-! ### Text under the fold -/

def foldChar (c : Char) : Char := if c = '\\' then '/' else c

theorem map_fold_utf8 (c : Char) :
    (String.utf8EncodeChar c).map fold = String.utf8EncodeChar (foldChar c) := by
  by_cases h : c = '\\'
  · rw [h]
    decide
  · rw [foldChar, if_neg h]
    have hid : ∀ b ∈ String.utf8EncodeChar c, fold b = b := by
      intro b hb
      have hne : b ≠ backslash := by
        rintro rfl
        exact h (Char.toNat_inj.mp (toNat_eq_of_mem (by decide) hb))
      exact if_neg hne
    exact (List.map_congr_left hid).trans (List.map_id _)

/-- Bytes that fold to the word of a character are the word of a character. -/
theorem exists_utf8_of_fold {bytes : PathBytes} {c : Char}
    (h : bytes.map fold = String.utf8EncodeChar c) : ∃ d, bytes = String.utf8EncodeChar d := by
  by_cases hbackslash : backslash ∈ bytes
  · have hmem : slash ∈ String.utf8EncodeChar c := h ▸ List.mem_map.mpr ⟨backslash, hbackslash, rfl⟩
    have hc : c = '/' := Char.toNat_inj.mp (toNat_eq_of_mem (by decide) hmem)
    have hlength : bytes.length = 1 := by
      have hlength := congrArg List.length h
      rw [List.length_map, hc] at hlength
      exact hlength
    obtain ⟨b, rfl⟩ := List.length_eq_one_iff.mp hlength
    obtain rfl := List.mem_singleton.mp hbackslash
    exact ⟨'\\', rfl⟩
  · have hid : ∀ b ∈ bytes, fold b = b := by
      intro b hb
      have hne : b ≠ backslash := fun heq => hbackslash (heq ▸ hb)
      exact if_neg hne
    exact ⟨c, h ▸ ((List.map_congr_left hid).trans (List.map_id _)).symm⟩

/-- Folding neither makes nor breaks UTF-8. -/
theorem isUtf8_map_fold (bytes : PathBytes) : isUtf8 (bytes.map fold) = isUtf8 bytes := by
  rw [Bool.eq_iff_iff, isUtf8, isUtf8, validateUTF8_iff, validateUTF8_iff]
  constructor
  · rintro ⟨text, htext⟩
    induction text generalizing bytes with
    | nil => exact ⟨[], (List.map_eq_nil_iff.mp htext.symm).symm⟩
    | cons c text ih =>
      rw [List.flatMap_cons] at htext
      obtain ⟨first, rest, rfl, hfirst, hrest⟩ := List.map_eq_append_iff.mp htext.symm
      obtain ⟨d, hd⟩ := exists_utf8_of_fold hfirst
      obtain ⟨text', htext'⟩ := ih rest hrest.symm
      exact ⟨d :: text', by rw [List.flatMap_cons, htext', ← hd]⟩
  · rintro ⟨text, rfl⟩
    refine ⟨text.map foldChar, ?_⟩
    rw [List.flatMap_map, List.map_flatMap]
    congr 1
    funext c
    exact (map_fold_utf8 c).symm

/-! ### Wide strings -/

def foldUnit (u : UInt16) : UInt16 := if u = 92 then 47 else u

def foldWide : Char ⊕ UInt16 → Char ⊕ UInt16
  | .inl c => .inl (foldChar c)
  | .inr u => .inr u

/-- The tokens of a scalar value, or of a surrogate that pairs with none. -/
def wideTokens : Char ⊕ UInt16 → List (UInt8 ⊕ UInt16)
  | .inl c => (String.utf8EncodeChar c).map .inl
  | .inr u => [.inr u]

theorem prefixCode_wideTokens : PrefixCode Set.univ wideTokens where
  ne_nil := by
    rintro (c | u) - hnil
    · exact String.utf8EncodeChar_ne_nil (List.map_eq_nil_iff.mp hnil)
    · exact List.cons_ne_nil _ _ hnil
  eq_of_prefix := by
    rintro (c | u) - (d | v) - hpre
    · have hbytes := (List.prefix_map_iff_of_injective Sum.inl_injective).mp hpre
      have heq := prefixCode_utf8.eq_of_prefix c trivial d trivial hbytes
      rw [heq]
    · obtain ⟨b, bytes, hb⟩ := List.exists_cons_of_ne_nil (String.utf8EncodeChar_ne_nil (c := c))
      rw [wideTokens, hb] at hpre
      exact absurd (List.cons_prefix_cons.mp hpre).1 Sum.inl_ne_inr
    · obtain ⟨b, bytes, hb⟩ := List.exists_cons_of_ne_nil (String.utf8EncodeChar_ne_nil (c := d))
      rw [wideTokens, wideTokens, hb] at hpre
      exact absurd (List.cons_prefix_cons.mp hpre).1 Sum.inr_ne_inl
    · have huv := (List.cons_prefix_cons.mp hpre).1
      rw [Sum.inr.inj huv]

theorem wideToken_eq (r : Char ⊕ UInt16) :
    wideToken r = (wideTokens (foldWide r)).flatMap tokenText := by
  cases r with
  | inl c =>
    rw [foldWide, wideTokens, ← map_fold_utf8, List.map_map, List.flatMap_map]
    exact congrArg (List.flatMap · _) (funext fun b => (tokenText_fold b).symm)
  | inr u => simp [foldWide, wideTokens, tokenText]

/-- The units of a scalar value, or of a surrogate that pairs with none. -/
def encodeUnits : Char ⊕ UInt16 → List UInt16
  | .inl c =>
    if c.toNat < 0x10000 then [UInt16.ofNat c.toNat]
    else [UInt16.ofNat (0xD800 + (c.toNat - 0x10000) / 0x400),
      UInt16.ofNat (0xDC00 + (c.toNat - 0x10000) % 0x400)]
  | .inr u => [u]

theorem toNat_ofNat_valid {n : ℕ} (h : n.isValidChar) : (Char.ofNat n).toNat = n := by
  rw [Char.ofNat, dif_pos h]
  rfl

theorem encodeUnits_decodeUnit (u : UInt16) : encodeUnits (decodeUnit u) = [u] := by
  have hlt := u.toNat_lt
  unfold decodeUnit
  split_ifs with h
  · have hvalid : u.toNat.isValidChar := by
      rcases h with h | h
      · exact .inl h
      · exact .inr ⟨h, by omega⟩
    rw [encodeUnits, toNat_ofNat_valid hvalid, if_pos hlt, UInt16.ofNat_toNat]
  · rfl

theorem encodeUnits_pairChar {u v : UInt16} (h : isPair u v = true) :
    encodeUnits (.inl (pairChar u v)) = [u, v] := by
  obtain ⟨hu, hu', hv, hv'⟩ := of_decide_eq_true h
  have hu : 0xD800 ≤ u.toNat := hu
  have hu' : u.toNat < 0xDC00 := hu'
  have hv : 0xDC00 ≤ v.toNat := hv
  have hv' : v.toNat ≤ 0xDFFF := hv'
  have hvalid : ((u.toNat - 0xD800) * 0x400 + (v.toNat - 0xDC00) + 0x10000).isValidChar :=
    .inr ⟨by omega, by omega⟩
  have hhigh : 0xD800 + ((u.toNat - 0xD800) * 0x400 + (v.toNat - 0xDC00) + 0x10000 - 0x10000) /
      0x400 = u.toNat := by omega
  have hlow : 0xDC00 + ((u.toNat - 0xD800) * 0x400 + (v.toNat - 0xDC00) + 0x10000 - 0x10000) %
      0x400 = v.toNat := by omega
  rw [encodeUnits, pairChar, toNat_ofNat_valid hvalid, if_neg (by omega), hhigh, hlow,
    UInt16.ofNat_toNat, UInt16.ofNat_toNat]

theorem encodeUnits_decodeUtf16 (units : List UInt16) :
    (decodeUtf16 units).flatMap encodeUnits = units := by
  fun_induction decodeUtf16 units with
  | case1 => rfl
  | case2 u => rw [List.flatMap_singleton, encodeUnits_decodeUnit]
  | case3 u v us hpair ih =>
    rw [List.flatMap_cons, encodeUnits_pairChar hpair, ih]
    rfl
  | case4 u v us hpair ih =>
    rw [List.flatMap_cons, encodeUnits_decodeUnit, ih]
    rfl

theorem map_fold_encodeUnits (r : Char ⊕ UInt16) :
    (encodeUnits (foldWide r)).map foldUnit = (encodeUnits r).map foldUnit := by
  cases r with
  | inl c =>
    by_cases h : c = '\\'
    · rw [h]
      decide
    · rw [foldWide, foldChar, if_neg h]
  | inr u => rfl

/-- The tokens of a wide string. -/
def tokensOf (units : List UInt16) : List (UInt8 ⊕ UInt16) :=
  ((decodeUtf16 units).map foldWide).flatMap wideTokens

theorem percentEncodeWtf16_eq (units : List UInt16) :
    percentEncodeWtf16 units = (tokensOf units).flatMap tokenText := by
  rw [percentEncodeWtf16, tokensOf, List.flatMap_assoc, List.flatMap_map]
  congr 1
  funext r
  exact wideToken_eq r

theorem tokensOf_folded (units : List UInt16) : ∀ t ∈ tokensOf units,
    t ∈ {t : UInt8 ⊕ UInt16 | ∀ b, t = .inl b → fold b = b} := by
  rintro t ht b rfl
  obtain ⟨r, hr, hb⟩ := List.mem_flatMap.mp ht
  obtain ⟨r, -, rfl⟩ := List.mem_map.mp hr
  cases r with
  | inl c =>
    rw [foldWide, wideTokens, ← map_fold_utf8, List.map_map] at hb
    obtain ⟨b', -, hb'⟩ := List.mem_map.mp hb
    obtain rfl := Sum.inl.inj hb'
    exact fold_fold b'
  | inr u => simp [foldWide, wideTokens] at hb

/-- Two wide strings written alike differ in separators only. -/
theorem eq_of_percentEncodeWtf16_eq {units units' : List UInt16}
    (h : percentEncodeWtf16 units = percentEncodeWtf16 units') :
    units.map foldUnit = units'.map foldUnit := by
  rw [percentEncodeWtf16_eq, percentEncodeWtf16_eq] at h
  have htokens := prefixCode_tokenText.flatMap_injective (tokensOf_folded units)
    (tokensOf_folded units') h
  have hdecoded := prefixCode_wideTokens.flatMap_injective (fun _ _ => trivial)
    (fun _ _ => trivial) htokens
  have hunits : ∀ units : List UInt16, units.map foldUnit =
      ((decodeUtf16 units).map foldWide).flatMap fun r => (encodeUnits r).map foldUnit := by
    intro units
    rw [List.flatMap_map]
    simp only [map_fold_encodeUnits]
    rw [← List.map_flatMap, encodeUnits_decodeUtf16]
  rw [hunits, hunits, hdecoded]

/-- A surrogate without its pair is written as no bytes are. -/
theorem percentEncodeWtf16_ne_bytes {units : List UInt16} {u : UInt16}
    (h : .inr u ∈ decodeUtf16 units) (bytes : PathBytes) :
    percentEncodeWtf16 units ≠ bytes.flatMap pushPercentEncodedByte := by
  intro heq
  rw [percentEncodeWtf16_eq, flatMap_push_eq] at heq
  have htokens := prefixCode_tokenText.flatMap_injective (tokensOf_folded units)
    (foldedTokens bytes) heq
  have hmem : .inr u ∈ tokensOf units :=
    List.mem_flatMap.mpr ⟨.inr u, List.mem_map.mpr ⟨.inr u, h, rfl⟩, List.mem_singleton.mpr rfl⟩
  rw [htokens] at hmem
  obtain ⟨b, -, hb⟩ := List.mem_map.mp hmem
  exact Sum.inl_ne_inr hb

theorem map_inl_getLeft {rs : List (Char ⊕ UInt16)} (h : rs.all Sum.isLeft = true) :
    (rs.filterMap Sum.getLeft?).map .inl = rs := by
  induction rs with
  | nil => rfl
  | cons r rs ih =>
    rw [List.all_cons, Bool.and_eq_true] at h
    cases r with
    | inl c => exact congrArg (.inl c :: ·) (ih h.2)
    | inr u => exact absurd h.1 Bool.false_ne_true

theorem exists_surrogate {units : List UInt16} (h : wideToStr units = none) :
    ∃ u, .inr u ∈ decodeUtf16 units := by
  by_contra hno
  push Not at hno
  have hall : (decodeUtf16 units).all Sum.isLeft = true := by
    rw [List.all_eq_true]
    intro r hr
    cases r with
    | inl c => rfl
    | inr u => exact absurd hr (hno u)
  rw [wideToStr, if_pos hall] at h
  exact absurd h (Option.some_ne_none _)

/-- Text is written alike by both branches. -/
theorem encodeOsWide_eq (units : List UInt16) : encodeOsWide units = percentEncodeWtf16 units := by
  unfold encodeOsWide wideToStr
  by_cases h : (decodeUtf16 units).all Sum.isLeft = true
  · rw [if_pos h, percentEncodeWtf16]
    show List.flatMap _ (List.flatMap _ _) = _
    rw [List.flatMap_assoc]
    conv_rhs => rw [← map_inl_getLeft h, List.flatMap_map]
    rfl
  · rw [if_neg h]

end BigCodeAnalysis.Baseline
