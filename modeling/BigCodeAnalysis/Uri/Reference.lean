import Mathlib.Data.List.TakeWhile
import Mathlib.Tactic.TypeStar

/-! Uniform resource references as RFC 3986 defines them: the grammar of paths, the split into
components, and percent escapes. -/

namespace BigCodeAnalysis.Uri

/-! ### The grammar -/

def isUnreserved (c : Char) : Bool := c.isAlphanum ∨ c ∈ ['-', '.', '_', '~']

def isSubDelim (c : Char) : Bool :=
  c ∈ ['!', '$', '&', Char.ofNat 39, '(', ')', '*', '+', ',', ';', '=']

def isPchar (c : Char) : Bool := isUnreserved c ∨ isSubDelim c ∨ c = ':' ∨ c = '@'

def isHexDigit (c : Char) : Bool := c.isDigit ∨ 'A' ≤ c ∧ c ≤ 'F' ∨ 'a' ≤ c ∧ c ≤ 'f'

/-- `segment`: characters of a path and percent escapes. -/
inductive Segment : List Char → Prop where
  | nil : Segment []
  | char {c : Char} {s : List Char} : isPchar c → Segment s → Segment (c :: s)
  | escape {high low : Char} {s : List Char} :
    isHexDigit high → isHexDigit low → Segment s → Segment ('%' :: high :: low :: s)

/-- `path-abempty`: segments, each behind a slash. -/
inductive PathAbempty : List Char → Prop where
  | nil : PathAbempty []
  | cons {s p : List Char} : Segment s → PathAbempty p → PathAbempty ('/' :: (s ++ p))

/-- `path-absolute`: a slash, and a path whose first segment is not empty. -/
def PathAbsolute (text : List Char) : Prop :=
  text = ['/'] ∨ ∃ s p, s ≠ [] ∧ Segment s ∧ PathAbempty p ∧ text = '/' :: (s ++ p)

/-- `path-noscheme`: a path whose first segment is not empty and has no colon. -/
def PathNoscheme (text : List Char) : Prop :=
  ∃ s p, s ≠ [] ∧ ':' ∉ s ∧ Segment s ∧ PathAbempty p ∧ text = s ++ p

/-- A `relative-ref` that is a path only. -/
def RelativePath (text : List Char) : Prop :=
  PathAbsolute text ∨ PathNoscheme text ∨ text = []

/-- A `URI` with the scheme `file` and an empty host. -/
def FileUri (text : List Char) : Prop :=
  ∃ p, PathAbempty p ∧ text = ['f', 'i', 'l', 'e', ':', '/', '/'] ++ p

/-! ### The components -/

structure Components where
  scheme : Option (List Char)
  authority : Option (List Char)
  path : List Char
  query : Option (List Char)
  fragment : Option (List Char)
  deriving DecidableEq, Repr

def notIn (delims : List Char) (c : Char) : Bool := c ∉ delims

/-- The first part of `([^:/?#]+:)?`, and what follows it. -/
def splitScheme (text : List Char) : Option (List Char) × List Char :=
  let name := text.takeWhile (notIn [':', '/', '?', '#'])
  match text.dropWhile (notIn [':', '/', '?', '#']) with
  | ':' :: rest => if name = [] then (none, text) else (some name, rest)
  | _ => (none, text)

def splitAuthority : List Char → Option (List Char) × List Char
  | '/' :: '/' :: rest =>
    (some (rest.takeWhile (notIn ['/', '?', '#'])), rest.dropWhile (notIn ['/', '?', '#']))
  | text => (none, text)

/-- The query that a `?` opens, and what follows it. -/
def splitQuery : List Char → Option (List Char) × List Char
  | '?' :: rest => (some (rest.takeWhile (notIn ['#'])), rest.dropWhile (notIn ['#']))
  | text => (none, text)

def splitFragment : List Char → Option (List Char)
  | '#' :: rest => some rest
  | _ => none

/-- The components of any text, by the rule of the standard's Appendix B. -/
def components (text : List Char) : Components :=
  let (scheme, rest) := splitScheme text
  let (authority, rest) := splitAuthority rest
  let path := rest.takeWhile (notIn ['?', '#'])
  let (query, rest) := splitQuery (rest.dropWhile (notIn ['?', '#']))
  ⟨scheme, authority, path, query, splitFragment rest⟩

/-! ### Which characters occur -/

/-- A character that ends no component. -/
def isInner (c : Char) : Bool := c ≠ '/' ∧ c ≠ '?' ∧ c ≠ '#'

theorem isInner_of {allowed : Char → Bool} {c : Char} (hslash : allowed '/' = false)
    (hquery : allowed '?' = false) (hhash : allowed '#' = false) (h : allowed c) : isInner c := by
  have hne : ∀ d, allowed d = false → c ≠ d := by
    rintro d hd rfl
    rw [h] at hd
    cases hd
  exact decide_eq_true ⟨hne _ hslash, hne _ hquery, hne _ hhash⟩

theorem Segment.isInner {s : List Char} (h : Segment s) : ∀ c ∈ s, isInner c := by
  induction h with
  | nil =>
    intro c hc
    cases hc
  | char hpchar _ ih =>
    intro c hc
    rcases List.mem_cons.mp hc with rfl | hc
    · exact isInner_of rfl rfl rfl hpchar
    · exact ih c hc
  | escape hhigh hlow _ ih =>
    intro c hc
    simp only [List.mem_cons] at hc
    rcases hc with rfl | rfl | rfl | hc
    · decide
    · exact isInner_of rfl rfl rfl hhigh
    · exact isInner_of rfl rfl rfl hlow
    · exact ih c hc

theorem Segment.append {s t : List Char} (hs : Segment s) (ht : Segment t) : Segment (s ++ t) := by
  induction hs with
  | nil => exact ht
  | char hpchar _ ih => exact .char hpchar ih
  | escape hhigh hlow _ ih => exact .escape hhigh hlow ih

theorem Segment.notIn {s : List Char} (h : Segment s) : ∀ c ∈ s, Uri.notIn ['?', '#'] c := by
  intro c hc
  have hinner := h.isInner c hc
  simp only [Uri.isInner, decide_eq_true_eq] at hinner
  simp [Uri.notIn, hinner]

/-- A path holds neither a query nor a fragment. -/
theorem PathAbempty.notIn {p : List Char} (h : PathAbempty p) :
    ∀ c ∈ p, Uri.notIn ['?', '#'] c := by
  induction h with
  | nil =>
    intro c hc
    cases hc
  | cons hs _ ih =>
    intro c hc
    simp only [List.mem_cons, List.mem_append] at hc
    rcases hc with rfl | hc | hc
    · decide
    · exact hs.notIn c hc
    · exact ih c hc

/-! ### The components of a path -/

/-- A path that follows the scheme and the authority is all of the path component. -/
theorem components_of_path {text rest rest' : List Char} {scheme authority : Option (List Char)}
    (hscheme : splitScheme text = (scheme, rest))
    (hauthority : splitAuthority rest = (authority, rest'))
    (hpath : ∀ c ∈ rest', notIn ['?', '#'] c) :
    components text = ⟨scheme, authority, rest', none, none⟩ := by
  unfold components
  rw [hscheme]
  dsimp only
  rw [hauthority]
  dsimp only
  rw [List.takeWhile_eq_self_iff.mpr hpath, List.dropWhile_eq_nil_iff.mpr hpath]
  rfl

/-- No scheme is read from a first segment without a colon. -/
theorem splitScheme_noscheme {s p : List Char} (hs : Segment s) (hcolon : ':' ∉ s)
    (hp : PathAbempty p) : splitScheme (s ++ p) = (none, s ++ p) := by
  have hall : ∀ c ∈ s, notIn [':', '/', '?', '#'] c := by
    intro c hc
    have hinner := hs.isInner c hc
    have hne : c ≠ ':' := fun heq => hcolon (heq ▸ hc)
    simp only [isInner, decide_eq_true_eq] at hinner
    simp [notIn, hinner, hne]
  unfold splitScheme
  rw [List.dropWhile_append_of_pos hall]
  cases hp with
  | nil => rfl
  | cons _ _ => rfl

theorem splitAuthority_noscheme {s p : List Char} (hne : s ≠ []) (hs : Segment s) :
    splitAuthority (s ++ p) = (none, s ++ p) := by
  cases s with
  | nil => exact absurd rfl hne
  | cons c s =>
    have hinner := hs.isInner c (List.mem_cons_self ..)
    have hslash : c ≠ '/' := by
      simp only [isInner, decide_eq_true_eq] at hinner
      exact hinner.1
    rw [List.cons_append]
    unfold splitAuthority
    split
    · next heq => exact absurd (List.cons_eq_cons.mp heq).1 hslash
    · rfl

/-- A relative path has neither a scheme nor an authority. -/
theorem RelativePath.components_eq {text : List Char} (h : RelativePath text) :
    components text = ⟨none, none, text, none, none⟩ := by
  rcases h with habsolute | hnoscheme | rfl
  · rcases habsolute with rfl | ⟨s, p, hne, hs, hp, rfl⟩
    · rfl
    · apply @components_of_path _ ('/' :: (s ++ p)) _ _ _ rfl
      · cases s with
        | nil => exact absurd rfl hne
        | cons c s =>
          have hinner := hs.isInner c (List.mem_cons_self ..)
          simp only [isInner, decide_eq_true_eq] at hinner
          unfold splitAuthority
          split
          · next heq =>
            have hhead := (List.cons_eq_cons.mp (List.cons_eq_cons.mp heq).2).1
            exact absurd hhead hinner.1
          · rfl
      · exact (PathAbempty.cons hs hp).notIn
  · obtain ⟨s, p, hne, hcolon, hs, hp, rfl⟩ := hnoscheme
    apply components_of_path (splitScheme_noscheme hs hcolon hp) (splitAuthority_noscheme hne hs)
    intro c hc
    rcases List.mem_append.mp hc with hc | hc
    · exact hs.notIn c hc
    · exact hp.notIn c hc
  · rfl

theorem FileUri.components_eq {text : List Char} (h : FileUri text) :
    ∃ p, text = ['f', 'i', 'l', 'e', ':', '/', '/'] ++ p ∧
      components text = ⟨some ['f', 'i', 'l', 'e'], some [], p, none, none⟩ := by
  obtain ⟨p, hp, rfl⟩ := h
  refine ⟨p, rfl, ?_⟩
  apply @components_of_path _ ('/' :: '/' :: p) _ _ _ rfl
  · cases hp with
    | nil => rfl
    | cons _ _ => rfl
  · exact hp.notIn

/-! ### Percent escapes -/

def hexValue (c : Char) : ℕ :=
  if c.isDigit then c.toNat - 48
  else if 'A' ≤ c ∧ c ≤ 'F' then c.toNat - 55
  else c.toNat - 87

/-- Every escape replaced by its byte, every other character by its own bytes. -/
def percentDecode : List Char → List UInt8
  | '%' :: high :: low :: rest =>
    if isHexDigit high ∧ isHexDigit low then
      UInt8.ofNat (16 * hexValue high + hexValue low) :: percentDecode rest
    else String.utf8EncodeChar '%' ++ percentDecode (high :: low :: rest)
  | c :: rest => String.utf8EncodeChar c ++ percentDecode rest
  | [] => []

theorem percentDecode_char {c : Char} (h : c ≠ '%') (rest : List Char) :
    percentDecode (c :: rest) = String.utf8EncodeChar c ++ percentDecode rest := by
  rw [percentDecode]
  rintro high low rest' rfl
  exact absurd rfl h

theorem percentDecode_append {text : List Char} (h : '%' ∉ text) (rest : List Char) :
    percentDecode (text ++ rest) = text.flatMap String.utf8EncodeChar ++ percentDecode rest := by
  induction text with
  | nil => rfl
  | cons c text ih =>
    have hne : c ≠ '%' := fun heq => h (heq ▸ List.mem_cons_self ..)
    rw [List.cons_append, percentDecode_char hne, ih fun hmem => h (List.mem_cons_of_mem _ hmem),
      List.flatMap_cons, List.append_assoc]

theorem percentDecode_escape {high low : Char} (hhigh : isHexDigit high) (hlow : isHexDigit low)
    (rest : List Char) : percentDecode ('%' :: high :: low :: rest) =
      UInt8.ofNat (16 * hexValue high + hexValue low) :: percentDecode rest := by
  rw [percentDecode, if_pos ⟨hhigh, hlow⟩]

end BigCodeAnalysis.Uri
