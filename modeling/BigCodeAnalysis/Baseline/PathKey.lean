import Mathlib.Data.List.Basic

/-! The key of a path in a baseline. A path is resolved against the anchor, `.` and `..` are
folded by name only, the anchor is stripped, and what remains is written with percent
escapes. Paths are byte strings with `/` between the names. -/

namespace BigCodeAnalysis.Baseline

abbrev PathBytes := List UInt8

def slash : UInt8 := 47

def backslash : UInt8 := 92

/-- The names `.` and `..`. -/
def dot : PathBytes := [46]

def dotdot : PathBytes := [46, 46]

/-! ### Components -/

inductive Component where
  | rootDir
  | curDir
  | parentDir
  | normal (name : PathBytes)
  deriving DecidableEq, Repr

/-- The component of a name; a dot in the middle of a path is none. -/
def Component.ofName (name : PathBytes) : Option Component :=
  if name = dot then none else if name = dotdot then some .parentDir else some (.normal name)

def isAbsolute (p : PathBytes) : Bool := p.head? = some slash

def names (p : PathBytes) : List PathBytes := (p.splitOn slash).filter (· ≠ [])

/-- `Path::components`. Repeated and trailing separators are skipped, and a dot is kept at
the start of a relative path only. -/
def components (p : PathBytes) : List Component :=
  (if isAbsolute p then [.rootDir]
    else if (names p).head? = some dot then [.curDir] else []) ++
  (names p).filterMap Component.ofName

/-- The text of a component. -/
def Component.text : Component → PathBytes
  | .rootDir => [slash]
  | .curDir => dot
  | .parentDir => dotdot
  | .normal name => name

/-- The text of a path built from components by `PathBuf::push`. -/
def render : List Component → PathBytes
  | .rootDir :: cs => slash :: [slash].intercalate (cs.map Component.text)
  | cs => [slash].intercalate (cs.map Component.text)

/-- `PathBuf::push` of a component. -/
def push (out : List Component) (c : Component) : List Component :=
  match c with
  | .rootDir => [.rootDir]
  | c => out ++ [c]

/-- One turn of the loop of `lexical_normalize`. -/
def normalizeStep (out : List Component) (c : Component) : List Component :=
  match c with
  | .rootDir | .normal _ => push out c
  | .curDir => out
  | .parentDir =>
    match out.getLast? with
    | some (.normal _) => out.dropLast
    | some .rootDir => out
    | _ => push out c

def normalizeComponents (cs : List Component) : List Component := cs.foldl normalizeStep []

def lexicalNormalize (p : PathBytes) : PathBytes := render (normalizeComponents (components p))

/-- `Path::join`. -/
def join (base p : PathBytes) : PathBytes :=
  if isAbsolute p then p
  else if base = [] then p
  else if base.getLast? = some slash then base ++ p
  else base ++ slash :: p

/-- `Path::strip_prefix`, component by component. -/
def stripPrefix (p base : PathBytes) : Option PathBytes :=
  if components base <+: components p then
    some (render ((components p).drop (components base).length))
  else none

/-! ### The encoders -/

def hexDigit (n : ℕ) : Char := Char.ofNat (if n < 10 then 48 + n else 55 + n)

def fold (b : UInt8) : UInt8 := if b = backslash then slash else b

/-- Letters, digits and `-_.~/:+, `. -/
def isUnreserved (b : UInt8) : Bool :=
  (48 ≤ b ∧ b ≤ 57) ∨ (65 ≤ b ∧ b ≤ 90) ∨ (97 ≤ b ∧ b ≤ 122) ∨
    b ∈ ([45, 95, 46, 126, 47, 58, 43, 44, 32] : List UInt8)

def pushPercentEncodedByte (b : UInt8) : List Char :=
  let b := fold b
  if isUnreserved b then [Char.ofNat b.toNat]
  else ['%', hexDigit (b.toNat / 16), hexDigit (b.toNat % 16)]

def percentEncodePathBytes (bytes : PathBytes) : List Char := bytes.flatMap pushPercentEncodedByte

/-- Whether the bytes are UTF-8, which is what `to_str` asks. -/
def isUtf8 (bytes : PathBytes) : Bool := (ByteArray.mk bytes.toArray).validateUTF8

/-- Both branches write the path byte by byte. -/
def encodeOsPath (bytes : PathBytes) : List Char :=
  if isUtf8 bytes then bytes.flatMap pushPercentEncodedByte else percentEncodePathBytes bytes

def normalizePath (anchor p : PathBytes) : String :=
  let abs :=
    if isAbsolute p ∨ anchor = [] then lexicalNormalize p else lexicalNormalize (join anchor p)
  String.ofList (encodeOsPath ((stripPrefix abs anchor).getD abs))

/-! ### Wide strings -/

/-- A unit that pairs with none: a scalar value, or a lone surrogate. -/
def decodeUnit (u : UInt16) : Char ⊕ UInt16 :=
  if u < 0xD800 ∨ 0xDFFF < u then .inl (Char.ofNat u.toNat) else .inr u

def isPair (u v : UInt16) : Bool := 0xD800 ≤ u ∧ u < 0xDC00 ∧ 0xDC00 ≤ v ∧ v ≤ 0xDFFF

def pairChar (u v : UInt16) : Char :=
  Char.ofNat ((u.toNat - 0xD800) * 0x400 + (v.toNat - 0xDC00) + 0x10000)

/-- `char::decode_utf16`: the scalar values, and the surrogates that pair with none. -/
def decodeUtf16 : List UInt16 → List (Char ⊕ UInt16)
  | [] => []
  | [u] => [decodeUnit u]
  | u :: v :: us =>
    if isPair u v then .inl (pairChar u v) :: decodeUtf16 us
    else decodeUnit u :: decodeUtf16 (v :: us)

/-- The token of a scalar value is that of its UTF-8 bytes. -/
def wideToken : Char ⊕ UInt16 → List Char
  | .inl c => (String.utf8EncodeChar c).flatMap pushPercentEncodedByte
  | .inr u =>
    ['%', 'u', hexDigit (u.toNat / 4096), hexDigit (u.toNat / 256 % 16),
      hexDigit (u.toNat / 16 % 16), hexDigit (u.toNat % 16)]

def percentEncodeWtf16 (units : List UInt16) : List Char := (decodeUtf16 units).flatMap wideToken

/-- `to_str` of a wide string: its text, when every surrogate pairs. -/
def wideToStr (units : List UInt16) : Option (List Char) :=
  if (decodeUtf16 units).all Sum.isLeft then some ((decodeUtf16 units).filterMap Sum.getLeft?)
  else none

/-- `encode_os_path` of a wide string. -/
def encodeOsWide (units : List UInt16) : List Char :=
  match wideToStr units with
  | some s => (s.flatMap String.utf8EncodeChar).flatMap pushPercentEncodedByte
  | none => percentEncodeWtf16 units

end BigCodeAnalysis.Baseline
