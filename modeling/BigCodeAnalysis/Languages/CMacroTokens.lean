import BigCodeAnalysis.Languages.CMacro
import Mathlib.Data.List.TakeWhile

/-! The lexical elements of a C-family text, by maximal munch, and what masking its
macros is to give. An identifier is a whole word. A number starts at a digit and goes on
through letters, digits, underscores, points and digit separators. Literals and comments
run to their end or to the end of the text. A quote directly behind a raw-string prefix
opens a raw string, also where the prefix is the suffix of a number. -/

namespace BigCodeAnalysis.Languages.CMacro

/-! ### Extents -/

/-- A quoted literal behind its opening quote, and the rest. -/
def quotedTail (stop : UInt8) : Bytes → Bytes × Bytes
  | [] => ([], [])
  | c :: rest =>
    if c = backslash then
      match rest with
      | [] => ([c], [])
      | escaped :: rest =>
        let (body, rest) := quotedTail stop rest
        (c :: escaped :: body, rest)
    else if c = stop then ([c], rest)
    else
      let (body, rest) := quotedTail stop rest
      (c :: body, rest)

/-- A line comment behind its opener: a backslash continues it over the line end. -/
def lineTail : Bytes → Bytes × Bytes
  | [] => ([], [])
  | c :: rest =>
    if c = newline then ([c], rest)
    else if c = backslash then
      match rest with
      | [] => ([c], [])
      | next :: rest' =>
        if next = newline then
          let (body, rest) := lineTail rest'
          (c :: next :: body, rest)
        else
          let (body, rest) := lineTail (next :: rest')
          (c :: body, rest)
    else
      let (body, rest) := lineTail rest
      (c :: body, rest)

def blockTail : Bytes → Bytes × Bytes
  | [] => ([], [])
  | c :: rest =>
    if c = star ∧ rest.head? = some slash then ([c, slash], rest.tail)
    else
      let (body, rest) := blockTail rest
      (c :: body, rest)

/-- A raw string behind its opening parenthesis. -/
def rawTail (delim : Bytes) : Bytes → Bytes × Bytes
  | [] => ([], [])
  | c :: rest =>
    if c = closeParen ∧ delim ++ [quote] <+: rest then
      (c :: (delim ++ [quote]), rest.drop (delim.length + 1))
    else
      let (body, rest) := rawTail delim rest
      (c :: body, rest)

/-- The delimiter of a raw string behind its quote, where it is short enough and a
parenthesis follows. -/
def rawDelim (rest : Bytes) : Option Bytes :=
  let delim := rest.takeWhile (· ≠ openParen)
  if delim.length ≤ cppRawStringDelimMax ∧ delim.length < rest.length then some delim else none

/-- A literal behind its opening quote, and the rest; `raw` after a raw-string prefix. -/
def stringTail (raw : Bool) (rest : Bytes) : Bytes × Bytes :=
  match if raw then rawDelim rest else none with
  | some delim =>
    let (body, rest') := rawTail delim (rest.drop (delim.length + 1))
    (delim ++ openParen :: body, rest')
  | none => quotedTail quote rest

/-- A number behind a byte of it. -/
def numberTail (before : UInt8) : Bytes → Bytes × Bytes
  | [] => ([], [])
  | c :: rest =>
    if isIdentifierPart c || c = period ||
        (c = apostrophe && isAsciiHexdigit before && rest.head?.any isAsciiHexdigit) then
      let (body, rest) := numberTail c rest
      (c :: body, rest)
    else ([], c :: rest)

/-- The runs of a number between its points, each from its first letter or underscore on:
a hexadecimal prefix with its digits, an exponent, a suffix. The last one is kept apart;
it may be empty. -/
def numberRuns (run : Bytes) : Bytes → List Bytes × Bytes
  | [] => ([], run)
  | c :: rest =>
    if c = period then
      let (runs, last) := numberRuns [] rest
      (run :: runs, last)
    else if run ≠ [] ∨ isIdentifierStarter c = true then numberRuns (run ++ [c]) rest
    else numberRuns [] rest

/-! ### Elements -/

inductive Element
  | identifier (word : Bytes)
  | rawPrefix (word : Bytes)
  /-- `raw` when a suffix of the number is the prefix of a raw string. -/
  | number (bytes : Bytes) (raw : Bool)
  | inert (bytes : Bytes)
  deriving DecidableEq, Repr

def Element.bytes : Element → Bytes
  | .identifier word => word
  | .rawPrefix word => word
  | .number bytes _ => bytes
  | .inert bytes => bytes

/-- The element at the front of a text, the rest, and whether the rest stands behind a
raw-string prefix. -/
def firstElement (raw : Bool) (c : UInt8) (rest : Bytes) : Element × Bytes × Bool :=
  if isIdentifierStarter c then
    let word := c :: rest.takeWhile isIdentifierPart
    let rest := rest.dropWhile isIdentifierPart
    if isRawStringPrefix word ∧ rest.head? = some quote then (.rawPrefix word, rest, true)
    else (.identifier word, rest, false)
  else if isAsciiDigit c then
    let (tail, rest) := numberTail c rest
    let raw := isRawStringPrefix (numberRuns [] (c :: tail)).2 && rest.head? = some quote
    (.number (c :: tail) raw, rest, raw)
  else if c = slash ∧ rest.head? = some slash then
    let (body, rest) := lineTail rest.tail
    (.inert (c :: slash :: body), rest, false)
  else if c = slash ∧ rest.head? = some star then
    let (body, rest) := blockTail rest.tail
    (.inert (c :: star :: body), rest, false)
  else if c = quote then
    let (body, rest) := stringTail raw rest
    (.inert (c :: body), rest, false)
  else if c = apostrophe then
    let (body, rest) := quotedTail apostrophe rest
    (.inert (c :: body), rest, false)
  else (.inert [c], rest, false)

theorem quotedTail_append (stop : UInt8) (rest : Bytes) :
    (quotedTail stop rest).1 ++ (quotedTail stop rest).2 = rest := by
  fun_induction quotedTail stop rest <;> simp_all

theorem lineTail_append (rest : Bytes) : (lineTail rest).1 ++ (lineTail rest).2 = rest := by
  fun_induction lineTail rest <;> simp_all

theorem blockTail_append (rest : Bytes) : (blockTail rest).1 ++ (blockTail rest).2 = rest := by
  induction rest with
  | nil => rfl
  | cons c rest ih =>
    rw [blockTail]
    split
    · next h =>
      obtain ⟨next, tail, rfl⟩ : ∃ next tail, rest = next :: tail := by
        cases rest with
        | nil => simp at h
        | cons next tail => exact ⟨next, tail, rfl⟩
      obtain rfl : next = slash := by simpa using h.2
      rfl
    · simp [ih]

theorem rawTail_append (delim rest : Bytes) :
    (rawTail delim rest).1 ++ (rawTail delim rest).2 = rest := by
  induction rest with
  | nil => rfl
  | cons c rest ih =>
    rw [rawTail]
    split
    · next h =>
      obtain ⟨tail, rfl⟩ := h.2
      simp [List.drop_append]
    · simp [ih]

theorem numberTail_append (before : UInt8) (rest : Bytes) :
    (numberTail before rest).1 ++ (numberTail before rest).2 = rest := by
  induction rest generalizing before with
  | nil => rfl
  | cons c rest ih =>
    rw [numberTail]
    split
    · simp [ih]
    · rfl

theorem rawDelim_eq_some {rest delim : Bytes} (h : rawDelim rest = some delim) :
    delim.length ≤ cppRawStringDelimMax ∧
      rest = delim ++ openParen :: rest.drop (delim.length + 1) ∧ openParen ∉ delim := by
  unfold rawDelim at h
  dsimp only at h
  split at h
  · next hlen =>
    obtain rfl := Option.some_inj.mp h
    have hsplit := (List.takeWhile_append_dropWhile : rest.takeWhile (· ≠ openParen) ++
      rest.dropWhile (· ≠ openParen) = rest)
    have hnotin : openParen ∉ rest.takeWhile (· ≠ openParen) := fun hmem => by
      simpa using List.mem_takeWhile_imp hmem
    cases htail : rest.dropWhile (· ≠ openParen) with
    | nil =>
      have hlength := congrArg List.length hsplit
      rw [htail, List.append_nil] at hlength
      omega
    | cons c tail =>
      have hc := List.head?_dropWhile_not (· ≠ openParen) rest
      rw [htail] at hc
      obtain rfl : c = openParen := by simpa using hc
      rw [htail] at hsplit
      generalize rest.takeWhile (· ≠ openParen) = delim at hsplit hlen hnotin
      subst hsplit
      refine ⟨hlen.1, ?_, hnotin⟩
      simp [List.drop_append]
  · cases h

theorem stringTail_append (raw : Bool) (rest : Bytes) :
    (stringTail raw rest).1 ++ (stringTail raw rest).2 = rest := by
  unfold stringTail
  split
  · next delim hdelim =>
    have hraw : rawDelim rest = some delim := by
      split at hdelim
      · exact hdelim
      · cases hdelim
    obtain ⟨-, hrest, -⟩ := rawDelim_eq_some hraw
    have htail := rawTail_append delim (rest.drop (delim.length + 1))
    conv_rhs => rw [hrest, ← htail]
    simp
  · exact quotedTail_append quote rest

theorem firstElement_append (raw : Bool) (c : UInt8) (rest : Bytes) :
    (firstElement raw c rest).1.bytes ++ (firstElement raw c rest).2.1 = c :: rest := by
  have hword := (List.takeWhile_append_dropWhile : rest.takeWhile isIdentifierPart ++
    rest.dropWhile isIdentifierPart = rest)
  have htail : ∀ d, rest.head? = some d → d :: rest.tail = rest := by
    intro d hd
    cases rest with
    | nil => cases hd
    | cons e rest =>
      obtain rfl : e = d := by simpa using hd
      rfl
  unfold firstElement
  by_cases h₁ : isIdentifierStarter c = true
  · rw [if_pos h₁]
    dsimp only
    split <;> simp [Element.bytes, hword]
  rw [if_neg h₁]
  by_cases h₂ : isAsciiDigit c = true
  · rw [if_pos h₂]
    simp [Element.bytes, numberTail_append]
  rw [if_neg h₂]
  by_cases h₃ : c = slash ∧ rest.head? = some slash
  · rw [if_pos h₃]
    simp [Element.bytes, lineTail_append, htail slash h₃.2]
  rw [if_neg h₃]
  by_cases h₄ : c = slash ∧ rest.head? = some star
  · rw [if_pos h₄]
    simp [Element.bytes, blockTail_append, htail star h₄.2]
  rw [if_neg h₄]
  by_cases h₅ : c = quote
  · rw [if_pos h₅]
    simp [Element.bytes, stringTail_append]
  rw [if_neg h₅]
  by_cases h₆ : c = apostrophe
  · rw [if_pos h₆]
    simp [Element.bytes, quotedTail_append]
  · rw [if_neg h₆]
    simp [Element.bytes]

theorem firstElement_bytes_pos (raw : Bool) (c : UInt8) (rest : Bytes) :
    0 < (firstElement raw c rest).1.bytes.length := by
  unfold firstElement
  dsimp only
  split_ifs <;> exact Nat.succ_pos _

/-- The elements of a text; `raw` tells that it stands behind a raw-string prefix. -/
def elementsFrom (raw : Bool) (code : Bytes) : List Element :=
  match code with
  | [] => []
  | c :: rest =>
    let first := firstElement raw c rest
    first.1 :: elementsFrom first.2.2 first.2.1
termination_by code.length
decreasing_by
  have happend := congrArg List.length (firstElement_append raw c rest)
  have hpos := firstElement_bytes_pos raw c rest
  rw [List.length_append] at happend
  omega

theorem elementsFrom_nil (raw : Bool) : elementsFrom raw [] = [] := by rw [elementsFrom]

theorem elementsFrom_cons (raw : Bool) (c : UInt8) (rest : Bytes) :
    elementsFrom raw (c :: rest) = (firstElement raw c rest).1 ::
      elementsFrom (firstElement raw c rest).2.2 (firstElement raw c rest).2.1 := by
  rw [elementsFrom]

theorem firstElement_quote (raw : Bool) (rest : Bytes) :
    firstElement raw quote rest =
      (.inert (quote :: (stringTail raw rest).1), (stringTail raw rest).2, false) := by
  have hslash : quote ≠ slash := by decide
  rw [firstElement, if_neg (by decide), if_neg (by decide), if_neg fun h => hslash h.1,
    if_neg fun h => hslash h.1, if_pos rfl]

def elements (code : Bytes) : List Element := elementsFrom false code

/-! ### What masking is to give -/

/-- The name some ASCII bytes spell. -/
def nameOf (bytes : Bytes) : String := String.ofList (bytes.map fun b => Char.ofNat b.toNat)

/-- The element is an identifier that names a macro. -/
def Element.isMacro (macros : Finset String) : Element → Bool
  | .identifier word => CMacro.isMacro macros (nameOf word)
  | _ => false

/-- The bytes of an element, an identifier that names a macro overwritten. -/
def Element.masked (macros : Finset String) (e : Element) : Bytes :=
  if e.isMacro macros then List.replicate e.bytes.length dollar else e.bytes

/-- The masked text, or nothing where no identifier names a macro. -/
def maskedText (macros : Finset String) (code : Bytes) : Option Bytes :=
  if (elements code).any (Element.isMacro macros) then
    some ((elements code).flatMap (Element.masked macros))
  else none

/-- The runs of an element that the scanner looks up besides identifiers: those of a
number, without a last one that is a raw-string prefix. -/
def Element.numberRuns : Element → List Bytes
  | .number bytes raw =>
    let (runs, last) := CMacro.numberRuns [] bytes
    if raw then runs else runs ++ [last]
  | _ => []

/-- No letters in a number, from a first one up to a point or the number's end, name a
macro. -/
def NoMacroInNumber (macros : Finset String) (code : Bytes) : Prop :=
  ∀ e ∈ elements code, ∀ run ∈ e.numberRuns, run ≠ [] → CMacro.isMacro macros (nameOf run) = false

instance (macros : Finset String) (code : Bytes) : Decidable (NoMacroInNumber macros code) :=
  inferInstanceAs (Decidable (∀ e ∈ elements code, ∀ run ∈ e.numberRuns,
    run ≠ [] → CMacro.isMacro macros (nameOf run) = false))

end BigCodeAnalysis.Languages.CMacro
