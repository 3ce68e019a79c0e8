import Mathlib.Data.List.Basic
import Mathlib.Data.List.Infix
import Mathlib.Data.List.DropRight
import Mathlib.Data.Nat.Notation

/-! A reader of the rows of a GFM table: the cells of a line, and what a cell shows with backslash
escapes, code spans and raw inline HTML taken into account. -/

namespace BigCodeAnalysis.Output.Gfm

/-! ### Cells -/

def isBlank (c : Char) : Bool :=
  c = ' ' || c = '\t' || c = '\n' || c = '\r' || c.toNat = 0x0B || c.toNat = 0x0C

def trim (text : List Char) : List Char := (text.dropWhile isBlank).rdropWhile isBlank

/-- The cells behind `cell`. A pipe behind a backslash is part of a cell and loses the backslash,
in a code span too. -/
def splitFrom (cell : List Char) : List Char → List (List Char)
  | [] => [cell]
  | '\\' :: '|' :: rest => splitFrom (cell ++ ['|']) rest
  | '|' :: rest => cell :: splitFrom [] rest
  | c :: rest => splitFrom (cell ++ [c]) rest

def dropBlankHead (cells : List (List Char)) : List (List Char) :=
  if (cells.head?.any fun cell => cell.all isBlank) then cells.tail else cells

/-- The pipes at the ends of a row are optional. -/
def readCells (line : List Char) : List (List Char) :=
  ((dropBlankHead (dropBlankHead (splitFrom [] line)).reverse).reverse).map trim

/-- A cell of the line below a header: dashes, with a colon at either end or without. -/
def isDelimiter (cell : List Char) : Bool :=
  let cell := if cell.head? = some ':' then cell.tail else cell
  let dashes := if cell.getLast? = some ':' then cell.dropLast else cell
  !dashes.isEmpty && dashes.all (· = '-')

/-! ### Raw HTML -/

def isUpper (c : Char) : Bool := 'A' ≤ c && c ≤ 'Z'

def isLetter (c : Char) : Bool := isUpper c || ('a' ≤ c && c ≤ 'z')

def isSpace (c : Char) : Bool := c = ' ' || c = '\t' || c = '\n'

def skipSpace (text : List Char) : List Char := text.dropWhile isSpace

def expect (c : Char) : List Char → Option (List Char)
  | [] => none
  | d :: rest => if d = c then some rest else none

def tagName : List Char → Option (List Char)
  | [] => none
  | c :: rest =>
    if isLetter c then some (rest.dropWhile fun c => isLetter c || c.isDigit || c = '-') else none

def attributeName : List Char → Option (List Char)
  | [] => none
  | c :: rest =>
    if isLetter c || c = '_' || c = ':' then
      some (rest.dropWhile fun c =>
        isLetter c || c.isDigit || c = '_' || c = '.' || c = ':' || c = '-')
    else none

def isUnquoted (c : Char) : Bool :=
  !isSpace c && c ≠ '"' && c.toNat ≠ 39 && c ≠ '=' && c ≠ '<' && c ≠ '>' && c.toNat ≠ 96

def attributeValue : List Char → Option (List Char)
  | [] => none
  | c :: rest =>
    if c = '"' ∨ c.toNat = 39 then expect c (rest.dropWhile (· ≠ c))
    else if isUnquoted c then some (rest.dropWhile isUnquoted)
    else none

/-- The value of an attribute, if it has one. -/
def valueSpecification (text : List Char) : List Char :=
  match expect '=' (skipSpace text) with
  | none => text
  | some rest => (attributeValue (skipSpace rest)).getD text

def attributes : ℕ → List Char → List Char
  | 0, text => text
  | fuel + 1, text =>
    if text.head?.any isSpace then
      match attributeName (skipSpace text) with
      | none => text
      | some rest => attributes fuel (valueSpecification rest)
    else text

def openTag (text : List Char) : Option (List Char) := do
  let rest ← tagName text
  let rest := skipSpace (attributes rest.length rest)
  (expect '/' rest).elim (expect '>' rest) (expect '>')

def closingTag (text : List Char) : Option (List Char) := do
  let rest ← expect '/' text
  let rest ← tagName rest
  expect '>' (skipSpace rest)

def skipPrefix (pre text : List Char) : Option (List Char) :=
  if pre.isPrefixOf text then some (text.drop pre.length) else none

/-- What stands behind the first occurrence. -/
def skipPast (pat : List Char) : List Char → Option (List Char)
  | [] => skipPrefix pat []
  | c :: rest => (skipPrefix pat (c :: rest)).or (skipPast pat rest)

def comment (text : List Char) : Option (List Char) := do
  let rest ← skipPrefix "!--".toList text
  if ['>'].isPrefixOf rest ∨ ['-', '>'].isPrefixOf rest then none
  else expect '>' (← skipPast "--".toList rest)

def processingInstruction (text : List Char) : Option (List Char) := do
  skipPast "?>".toList (← expect '?' text)

def declaration (text : List Char) : Option (List Char) := do
  let rest ← expect '!' text
  let name := rest.takeWhile isUpper
  let rest := rest.drop name.length
  if name = [] ∨ rest.head?.any isSpace = false then none else skipPast ['>'] rest

def cdata (text : List Char) : Option (List Char) := do
  skipPast "]]>".toList (← skipPrefix "![CDATA[".toList text)

/-- What stands behind raw HTML that begins with a `<`. -/
def rawHtml (text : List Char) : Option (List Char) :=
  (openTag text).or <| (closingTag text).or <| (comment text).or <|
    (processingInstruction text).or <| (declaration text).or (cdata text)

/-! ### Inlines -/

def backtick : Char := Char.ofNat 96

def isPunctuation (c : Char) : Bool :=
  (33 ≤ c.toNat && c.toNat ≤ 47) || (58 ≤ c.toNat && c.toNat ≤ 64) ||
    (91 ≤ c.toNat && c.toNat ≤ 96) || (123 ≤ c.toNat && c.toNat ≤ 126)

/-- Up to the next run of exactly `n` backticks, and what is behind it; `run` backticks have just
been read. -/
def closeFrom (n : ℕ) (inside : List Char) (run : ℕ) : List Char → Option (List Char × List Char)
  | [] => if run = n then some (inside, []) else none
  | c :: rest =>
    if c = backtick then closeFrom n inside (run + 1) rest
    else if run = n then some (inside, c :: rest)
    else closeFrom n (inside ++ List.replicate run backtick ++ [c]) 0 rest

/-- One space goes at both ends of a code span that is not all spaces. -/
def stripSpan (text : List Char) : List Char :=
  if text.head? = some ' ' ∧ text.getLast? = some ' ' ∧ text.any (· ≠ ' ') then
    text.tail.dropLast
  else text

/-- What a backslash before `rest` shows, and what is behind that. -/
def escaped : List Char → List Char × List Char
  | [] => (['\\'], [])
  | c :: rest => if isPunctuation c then ([c], rest) else (['\\'], c :: rest)

/-- A backtick before `rest`: the span it opens, or else its whole run. -/
def codeSpan (rest : List Char) : List Char × List Char :=
  let run := rest.takeWhile (· = backtick)
  let behind := rest.drop run.length
  match closeFrom (run.length + 1) [] 0 behind with
  | some (inside, behind) => (stripSpan inside, behind)
  | none => (backtick :: run, behind)

/-- A `<` before `rest`. -/
def inlineHtml (rest : List Char) : List Char × List Char :=
  match rawHtml rest with
  | some behind => ([], behind)
  | none => (['<'], rest)

/-- What the first inline of a text shows, and the text behind it. -/
def inline : List Char → List Char × List Char
  | [] => ([], [])
  | c :: rest =>
    if c = '\\' then escaped rest
    else if c = backtick then codeSpan rest
    else if c = '<' then inlineHtml rest
    else ([c], rest)

def displayFrom : ℕ → List Char → List Char
  | 0, _ => []
  | fuel + 1, text =>
    if text = [] then [] else (inline text).1 ++ displayFrom fuel (inline text).2

/-- What a cell shows. -/
def display (cell : List Char) : List Char := displayFrom cell.length cell

/-- The texts a row shows. -/
def readRow (line : List Char) : List (List Char) := (readCells line).map display

/-! ### Suffixes -/

section Suffix

variable {text rest : List Char}

theorem suffix_expect {c : Char} (h : expect c text = some rest) : rest <:+ text := by
  cases text with
  | nil => cases h
  | cons d text =>
    rw [expect] at h
    split_ifs at h
    cases h
    exact List.suffix_cons d _

theorem suffix_skipSpace (text : List Char) : skipSpace text <:+ text := List.dropWhile_suffix _

theorem suffix_tagName (h : tagName text = some rest) : rest <:+ text := by
  cases text with
  | nil => cases h
  | cons c text =>
    rw [tagName] at h
    split_ifs at h
    cases h
    exact (List.dropWhile_suffix _).trans (List.suffix_cons c text)

theorem suffix_attributeName (h : attributeName text = some rest) : rest <:+ text := by
  cases text with
  | nil => cases h
  | cons c text =>
    rw [attributeName] at h
    split_ifs at h
    cases h
    exact (List.dropWhile_suffix _).trans (List.suffix_cons c text)

theorem suffix_attributeValue (h : attributeValue text = some rest) : rest <:+ text := by
  cases text with
  | nil => cases h
  | cons c text =>
    rw [attributeValue] at h
    split_ifs at h
    · exact ((suffix_expect h).trans (List.dropWhile_suffix _)).trans (List.suffix_cons c text)
    · cases h
      exact (List.dropWhile_suffix _).trans (List.suffix_cons c text)

theorem suffix_valueSpecification (text : List Char) : valueSpecification text <:+ text := by
  rw [valueSpecification]
  cases hsign : expect '=' (skipSpace text) with
  | none => exact List.suffix_refl text
  | some rest =>
    cases hvalue : attributeValue (skipSpace rest) with
    | none => simp only [hvalue, Option.getD_none]; exact List.suffix_refl text
    | some behind =>
      simp only [hvalue, Option.getD_some]
      exact (((suffix_attributeValue hvalue).trans (suffix_skipSpace rest)).trans
        (suffix_expect hsign)).trans (suffix_skipSpace text)

theorem suffix_attributes (fuel : ℕ) (text : List Char) : attributes fuel text <:+ text := by
  induction fuel generalizing text with
  | zero => exact List.suffix_refl text
  | succ fuel ih =>
    rw [attributes]
    split_ifs
    · cases hname : attributeName (skipSpace text) with
      | none => exact List.suffix_refl text
      | some rest =>
        exact (((ih _).trans (suffix_valueSpecification rest)).trans
          (suffix_attributeName hname)).trans (suffix_skipSpace text)
    · exact List.suffix_refl text

theorem suffix_openTag (h : openTag text = some rest) : rest <:+ text := by
  obtain ⟨behind, hname, h⟩ := Option.bind_eq_some_iff.mp h
  have hattributes : skipSpace (attributes behind.length behind) <:+ text :=
    ((suffix_skipSpace _).trans (suffix_attributes _ _)).trans (suffix_tagName hname)
  simp only at h
  cases hslash : expect '/' (skipSpace (attributes behind.length behind)) with
  | none =>
    rw [hslash, Option.elim_none] at h
    exact (suffix_expect h).trans hattributes
  | some closed =>
    rw [hslash, Option.elim_some] at h
    exact ((suffix_expect h).trans (suffix_expect hslash)).trans hattributes

theorem suffix_closingTag (h : closingTag text = some rest) : rest <:+ text := by
  obtain ⟨behind, hslash, h⟩ := Option.bind_eq_some_iff.mp h
  obtain ⟨named, hname, h⟩ := Option.bind_eq_some_iff.mp h
  exact (((suffix_expect h).trans (suffix_skipSpace named)).trans (suffix_tagName hname)).trans
    (suffix_expect hslash)

theorem suffix_skipPrefix {pre : List Char} (h : skipPrefix pre text = some rest) :
    rest <:+ text := by
  rw [skipPrefix] at h
  split_ifs at h
  cases h
  exact List.drop_suffix _ _

theorem suffix_skipPast {pat : List Char} (h : skipPast pat text = some rest) :
    rest <:+ text := by
  induction text with
  | nil => exact suffix_skipPrefix h
  | cons c text ih =>
    rw [skipPast, Option.or_eq_some_iff] at h
    rcases h with h | ⟨-, h⟩
    · exact suffix_skipPrefix h
    · exact (ih h).trans (List.suffix_cons c text)

theorem suffix_comment (h : comment text = some rest) : rest <:+ text := by
  obtain ⟨behind, hopen, h⟩ := Option.bind_eq_some_iff.mp h
  split_ifs at h
  obtain ⟨closed, hpast, h⟩ := Option.bind_eq_some_iff.mp h
  exact ((suffix_expect h).trans (suffix_skipPast hpast)).trans (suffix_skipPrefix hopen)

theorem suffix_processingInstruction (h : processingInstruction text = some rest) :
    rest <:+ text := by
  obtain ⟨behind, hopen, h⟩ := Option.bind_eq_some_iff.mp h
  exact (suffix_skipPast h).trans (suffix_expect hopen)

theorem suffix_declaration (h : declaration text = some rest) : rest <:+ text := by
  obtain ⟨behind, hopen, h⟩ := Option.bind_eq_some_iff.mp h
  simp only at h
  split_ifs at h
  exact ((suffix_skipPast h).trans (List.drop_suffix _ _)).trans (suffix_expect hopen)

theorem suffix_cdata (h : cdata text = some rest) : rest <:+ text := by
  obtain ⟨behind, hopen, h⟩ := Option.bind_eq_some_iff.mp h
  exact (suffix_skipPast h).trans (suffix_skipPrefix hopen)

theorem suffix_rawHtml (h : rawHtml text = some rest) : rest <:+ text := by
  simp only [rawHtml, Option.or_eq_some_iff] at h
  rcases h with h | ⟨-, h | ⟨-, h | ⟨-, h | ⟨-, h | ⟨-, h⟩⟩⟩⟩⟩
  · exact suffix_openTag h
  · exact suffix_closingTag h
  · exact suffix_comment h
  · exact suffix_processingInstruction h
  · exact suffix_declaration h
  · exact suffix_cdata h

end Suffix

/-! ### Marks -/

/-- The characters that markup is made of, with those a reader trims. -/
def isMark (c : Char) : Bool := isBlank c || c = backtick || c = '<'

def marks (text : List Char) : ℕ := text.countP isMark

theorem marks_append (a b : List Char) : marks (a ++ b) = marks a + marks b :=
  List.countP_append

theorem marks_cons (c : Char) (text : List Char) : marks (c :: text) = marks [c] + marks text :=
  marks_append [c] text

theorem marks_le_of_sublist {a b : List Char} (h : a.Sublist b) : marks a ≤ marks b :=
  h.countP_le

theorem marks_replicate_backtick (n : ℕ) : marks (List.replicate n backtick) = n := by
  rw [marks, List.countP_replicate, if_pos (by decide)]

theorem marks_closeFrom {n run : ℕ} {inside text shown behind : List Char}
    (h : closeFrom n inside run text = some (shown, behind)) :
    marks shown + marks behind + n ≤ marks inside + run + marks text := by
  induction text generalizing inside run with
  | nil =>
    rw [closeFrom] at h
    split_ifs at h with hrun
    cases h
    simp [marks, hrun]
  | cons c text ih =>
    rw [closeFrom] at h
    split_ifs at h with hc hrun
    · have hle := ih h
      rw [marks_cons, hc]
      have hone : marks [backtick] = 1 := by decide
      omega
    · cases h
      omega
    · have hle := ih h
      rw [marks_append, marks_append, marks_replicate_backtick] at hle
      rw [marks_cons]
      omega

theorem marks_stripSpan (text : List Char) : marks (stripSpan text) ≤ marks text := by
  rw [stripSpan]
  split_ifs
  · exact marks_le_of_sublist ((List.dropLast_sublist _).trans (List.tail_sublist _))
  · exact le_rfl

/-- A code span loses the marks of both of its runs. -/
theorem marks_span {n : ℕ} {text shown behind : List Char}
    (h : closeFrom (n + 1) [] 0 text = some (shown, behind)) :
    marks (stripSpan shown) + marks behind < marks text := by
  have hle := marks_closeFrom h
  have hstrip := marks_stripSpan shown
  have hnil : marks [] = 0 := rfl
  omega

/-- Raw HTML loses its angle. -/
theorem marks_rawHtml {text behind : List Char} (h : rawHtml text = some behind) :
    marks behind ≤ marks text :=
  marks_le_of_sublist (suffix_rawHtml h).sublist

theorem marks_escaped (rest : List Char) :
    marks (escaped rest).1 + marks (escaped rest).2 ≤ marks rest := by
  have hslash : marks ['\\'] = 0 := by decide
  cases rest with
  | nil => exact le_rfl
  | cons c rest =>
    rw [escaped]
    split_ifs
    · exact (marks_cons c rest).ge
    · simp only [hslash, Nat.zero_add, le_refl]

theorem marks_codeSpan (rest : List Char) :
    marks (codeSpan rest).1 + marks (codeSpan rest).2 ≤ marks rest + 1 := by
  have hrun := marks_append (rest.takeWhile (· = backtick))
    (rest.drop (rest.takeWhile (· = backtick)).length)
  rw [List.prefix_iff_eq_append.mp (List.takeWhile_prefix _)] at hrun
  rw [codeSpan]
  cases hclose : closeFrom ((rest.takeWhile (· = backtick)).length + 1) [] 0
      (rest.drop (rest.takeWhile (· = backtick)).length) with
  | none =>
    have hone : marks [backtick] = 1 := by decide
    simp only
    rw [marks_cons]
    omega
  | some found =>
    have hlt := marks_span hclose
    simp only
    omega

theorem marks_inlineHtml (rest : List Char) :
    marks (inlineHtml rest).1 + marks (inlineHtml rest).2 ≤ marks rest + 1 := by
  rw [inlineHtml]
  cases hraw : rawHtml rest with
  | none => exact (Nat.add_comm _ _).le
  | some behind =>
    have hle := marks_rawHtml hraw
    have hnil : marks [] = 0 := rfl
    simp only
    omega

theorem marks_inline (text : List Char) :
    marks (inline text).1 + marks (inline text).2 ≤ marks text := by
  cases text with
  | nil => exact le_rfl
  | cons c rest =>
    rw [inline, marks_cons]
    split_ifs with hslash htick hangle
    · exact (marks_escaped rest).trans (Nat.le_add_left _ _)
    · have hone : marks [backtick] = 1 := by decide
      rw [htick, hone, Nat.add_comm 1]
      exact marks_codeSpan rest
    · have hone : marks ['<'] = 1 := by decide
      rw [hangle, hone, Nat.add_comm 1]
      exact marks_inlineHtml rest
    · exact le_rfl

theorem marks_displayFrom (fuel : ℕ) (text : List Char) :
    marks (displayFrom fuel text) ≤ marks text := by
  induction fuel generalizing text with
  | zero => exact Nat.zero_le _
  | succ fuel ih =>
    rw [displayFrom]
    split_ifs
    · exact Nat.zero_le _
    · rw [marks_append]
      exact (Nat.add_le_add_left (ih _) _).trans (marks_inline text)

theorem marks_display (text : List Char) : marks (display text) ≤ marks text :=
  marks_displayFrom _ text

end BigCodeAnalysis.Output.Gfm
