import Mathlib.Data.List.Basic
import Mathlib.Data.List.Infix

/-! A reader of XML 1.0 documents that have no document type: the XML declaration,
elements with their attributes, character data and references. It checks what makes such a
document well formed and normalizes line ends and attribute values. Comments, processing
instructions and CDATA sections are rejected. -/

namespace BigCodeAnalysis.Xml

/-! ### Characters -/

/-- The `Char` production. -/
def isChar (c : Char) : Bool :=
  c = '\t' || c = '\n' || c = '\r' || (0x20 ≤ c.toNat && c.toNat ≤ 0xD7FF) ||
    (0xE000 ≤ c.toNat && c.toNat ≤ 0xFFFD) || (0x10000 ≤ c.toNat && c.toNat ≤ 0x10FFFF)

/-- The `S` production has one or more of these. -/
def isSpace (c : Char) : Bool := c = ' ' || c = '\t' || c = '\r' || c = '\n'

def nameStartRanges : List (ℕ × ℕ) :=
  [(0x3A, 0x3A), (0x41, 0x5A), (0x5F, 0x5F), (0x61, 0x7A), (0xC0, 0xD6), (0xD8, 0xF6),
   (0xF8, 0x2FF), (0x370, 0x37D), (0x37F, 0x1FFF), (0x200C, 0x200D), (0x2070, 0x218F),
   (0x2C00, 0x2FEF), (0x3001, 0xD7FF), (0xF900, 0xFDCF), (0xFDF0, 0xFFFD), (0x10000, 0xEFFFF)]

def nameRanges : List (ℕ × ℕ) :=
  [(0x2D, 0x2E), (0x30, 0x39), (0xB7, 0xB7), (0x300, 0x36F), (0x203F, 0x2040)]

def inRanges (ranges : List (ℕ × ℕ)) (c : Char) : Bool :=
  ranges.any fun r => r.1 ≤ c.toNat && c.toNat ≤ r.2

def isNameStart (c : Char) : Bool := inRanges nameStartRanges c

def isNameChar (c : Char) : Bool := isNameStart c || inRanges nameRanges c

/-- Line ends are read as a single line feed. -/
def normalizeLineEnds : List Char → List Char
  | [] => []
  | '\r' :: '\n' :: rest => '\n' :: normalizeLineEnds rest
  | '\r' :: rest => '\n' :: normalizeLineEnds rest
  | c :: rest => c :: normalizeLineEnds rest

/-! ### References -/

/-- The value of a digit to the base 16, or to the base 10. -/
def digitValue (base : ℕ) (c : Char) : Option ℕ :=
  let value :=
    if c.isDigit then some (c.toNat - 48)
    else if 'a' ≤ c ∧ c ≤ 'f' then some (c.toNat - 87)
    else if 'A' ≤ c ∧ c ≤ 'F' then some (c.toNat - 55)
    else none
  value.filter (· < base)

def numeral (base : ℕ) (digits : List Char) : Option ℕ :=
  if digits = [] then none
  else digits.foldlM (fun n c => (digitValue base c).map (base * n + ·)) 0

/-- The character a number refers to, which has to be a legal one. -/
def characterOf (n : ℕ) : Option Char :=
  if n.isValidChar ∧ isChar (Char.ofNat n) = true then some (Char.ofNat n) else none

/-- What stands between `&` and `;`: a predefined entity or a character reference. -/
def reference : List Char → Option Char
  | ['a', 'm', 'p'] => some '&'
  | ['l', 't'] => some '<'
  | ['g', 't'] => some '>'
  | ['q', 'u', 'o', 't'] => some '"'
  | ['a', 'p', 'o', 's'] => some (Char.ofNat 39)
  | '#' :: 'x' :: digits => (numeral 16 digits).bind characterOf
  | '#' :: digits => (numeral 10 digits).bind characterOf
  | _ => none

/-- Replaces references, and every other character by `normal` of it; a `<` is not allowed.
The first argument is what has been read of a reference. -/
def decodeFrom (normal : Char → Char) : Option (List Char) → List Char → Option (List Char)
  | none, [] => some []
  | some _, [] => none
  | none, c :: rest =>
    if c = '<' then none
    else if c = '&' then decodeFrom normal (some []) rest
    else (decodeFrom normal none rest).map (normal c :: ·)
  | some body, c :: rest =>
    if c = ';' then (reference body).bind fun d => (decodeFrom normal none rest).map (d :: ·)
    else decodeFrom normal (some (body ++ [c])) rest

def decode (normal : Char → Char) (text : List Char) : Option (List Char) :=
  decodeFrom normal none text

/-- White space in an attribute value is read as a space, unless it is a reference. -/
def normalizeSpace (c : Char) : Char := if isSpace c then ' ' else c

/-! ### Tags -/

def skipSpace (text : List Char) : List Char := text.dropWhile isSpace

def name : List Char → Option (List Char × List Char)
  | [] => none
  | c :: rest =>
    if isNameStart c then some (c :: rest.takeWhile isNameChar, rest.dropWhile isNameChar)
    else none

/-- A quoted value as it is written. -/
def quoted : List Char → Option (List Char × List Char)
  | [] => none
  | q :: rest =>
    if (q = '"' ∨ q.toNat = 39) ∧ q ∈ rest then
      some (rest.takeWhile (· ≠ q), (rest.dropWhile (· ≠ q)).tail)
    else none

/-- An attribute as it is written. -/
def oneAttribute (text : List Char) : Option ((List Char × List Char) × List Char) := do
  let (key, rest) ← name text
  match skipSpace rest with
  | '=' :: rest => do
    let (value, rest) ← quoted (skipSpace rest)
    return ((key, value), rest)
  | _ => none

/-- The attributes of a tag up to the end of it, each behind white space. -/
def attributes : ℕ → List Char → Option (List (List Char × List Char) × List Char)
  | 0, _ => none
  | fuel + 1, text =>
    let rest := skipSpace text
    if rest.head?.all (fun c => c = '/' || c = '>' || c = '?') then some ([], rest)
    else if rest.length = text.length then none
    else do
      let (first, rest) ← oneAttribute rest
      let (others, rest) ← attributes fuel rest
      return (first :: others, rest)

/-- The names and values of attributes, each name once. -/
def readAttributes (raw : List (List Char × List Char)) : Option (List (String × String)) :=
  if (raw.map Prod.fst).Nodup then
    raw.mapM fun a => (decode normalizeSpace a.2).map fun value =>
      (String.ofList a.1, String.ofList value)
  else none

inductive Token
  | «open» (name : String) (attributes : List (String × String))
  | empty (name : String) (attributes : List (String × String))
  | close (name : String)
  | text (raw : List Char)
  deriving DecidableEq, Repr

def closingTag (text : List Char) : Option (Token × List Char) := do
  let (key, rest) ← name text
  match skipSpace rest with
  | '>' :: rest => return (.close (String.ofList key), rest)
  | _ => none

/-- The end of a tag with attributes. -/
def tagEnd (key : String) (attrs : List (String × String)) :
    List Char → Option (Token × List Char)
  | '/' :: '>' :: rest => some (.empty key attrs, rest)
  | '>' :: rest => some (.open key attrs, rest)
  | _ => none

def openingTag (text : List Char) : Option (Token × List Char) := do
  let (key, rest) ← name text
  let (raw, rest) ← attributes (rest.length + 1) rest
  tagEnd (String.ofList key) (← readAttributes raw) rest

/-- The tag behind a `<`. -/
def tag (text : List Char) : Option (Token × List Char) :=
  if text.head? = some '/' then closingTag text.tail else openingTag text

def tokens : ℕ → List Char → Option (List Token)
  | _, [] => some []
  | 0, _ :: _ => none
  | fuel + 1, c :: rest => do
    let (first, rest) ←
      if c = '<' then tag rest
      else some (.text (c :: rest.takeWhile (· ≠ '<')), rest.dropWhile (· ≠ '<'))
    let others ← tokens fuel rest
    return first :: others

/-! ### Documents -/

inductive Node
  | element (name : String) (attributes : List (String × String)) (content : List Node)
  | text (text : String)

/-- An element whose end tag is still to come, and what stands before it. -/
structure Frame where
  name : String
  attributes : List (String × String)
  before : List Node

/-- Character data does not hold `]]>`. At the top level only white space is allowed. -/
def characterData (raw : List Char) (top : Bool) : Option (List Char) :=
  if [']', ']', '>'] <:+: raw ∨ (top = true ∧ raw.all isSpace = false) then none
  else decode id raw

/-- The content the tokens make, inside the open elements and behind `before`. -/
def content : List Frame → List Node → List Token → Option (List Node)
  | [], before, [] => some before
  | _ :: _, _, [] => none
  | stack, before, .text raw :: rest => do
    let text ← characterData raw stack.isEmpty
    content stack (before ++ [.text (String.ofList text)]) rest
  | stack, before, .empty key attrs :: rest =>
    content stack (before ++ [.element key attrs []]) rest
  | stack, before, .open key attrs :: rest => content (⟨key, attrs, before⟩ :: stack) [] rest
  | [], _, .close _ :: _ => none
  | frame :: stack, inside, .close key :: rest =>
    if key = frame.name then
      content stack (frame.before ++ [.element frame.name frame.attributes inside]) rest
    else none

def isVersion (value : List Char) : Bool :=
  ['1', '.'].isPrefixOf value && 2 < value.length && (value.drop 2).all Char.isDigit

/-- The pseudo-attributes of the XML declaration. The reader is given text, so the one
encoding it accepts is UTF-8. -/
def isDeclaration : List (List Char × List Char) → Bool
  | [] => false
  | (key, value) :: rest =>
    let rest := if rest.head?.map Prod.fst = some "encoding".toList then
        (if rest.head?.any (fun a => a.2.map Char.toUpper = "UTF-8".toList) then some rest.tail
        else none)
      else some rest
    key = "version".toList && isVersion value && rest.any fun rest =>
      rest = [] || rest = [("standalone".toList, "yes".toList)] ||
        rest = [("standalone".toList, "no".toList)]

/-- The text behind the XML declaration, if there is one. -/
def declaration (text : List Char) : Option (List Char) :=
  match text with
  | '<' :: '?' :: 'x' :: 'm' :: 'l' :: rest => do
    let (raw, rest) ← attributes (rest.length + 1) rest
    match rest with
    | '?' :: '>' :: rest => if isDeclaration raw then some rest else none
    | _ => none
  | _ => some text

def Node.isElement : Node → Bool
  | .element .. => true
  | .text .. => false

/-- White space between elements. -/
def Node.isBlank : Node → Bool
  | .element .. => false
  | .text value => value.toList.all isSpace

/-- The root element of a document. -/
def document (text : String) : Option Node := do
  let chars := normalizeLineEnds text.toList
  if chars.all isChar then
    let rest ← declaration chars
    let nodes ← content [] [] (← tokens rest.length rest)
    match nodes.filter Node.isElement with
    | [root] => some root
    | _ => none
  else none

mutual
/-- The elements without the white space between them. -/
def Node.trim : Node → Node
  | .element key attrs nodes => .element key attrs (trimAll nodes)
  | .text value => .text value

def trimAll : List Node → List Node
  | [] => []
  | node :: nodes => if node.isBlank then trimAll nodes else node.trim :: trimAll nodes
end

end BigCodeAnalysis.Xml
