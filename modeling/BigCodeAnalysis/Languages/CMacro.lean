import BigCodeAnalysis.Sequences.Slice
import BigCodeAnalysis.Sequences.Utf8Code
import Mathlib.Data.Finset.Basic

/-! The masking of C-family macros before a file is parsed: one pass over the bytes that
overwrites the identifiers a preprocessor could expand. The scanner is in one of six
lexical states; in normal text it also keeps the start of the current run of identifier
bytes and whether it is inside a number. Bytes are copied to the output only when a run
is masked, up to the run. An index out of range and a failed conversion to UTF-8 stop
the program. -/

namespace BigCodeAnalysis.Languages.CMacro

open Sequences (slice)

abbrev Bytes := List UInt8

def predefinedMacros : List String :=
  ["INT16_C", "INT16_MAX", "INT16_MIN", "INT32_C", "INT32_MAX", "INT32_MIN", "INT64_C",
   "INT64_MAX", "INT64_MIN", "INT8_C", "INT8_MAX", "INT8_MIN", "INTMAX_MAX", "INTMAX_MIN",
   "INTPTR_MAX", "INTPTR_MIN", "INT_FAST16_MAX", "INT_FAST16_MIN", "INT_FAST32_MAX",
   "INT_FAST32_MIN", "INT_FAST64_MAX", "INT_FAST64_MIN", "INT_FAST8_MAX", "INT_FAST8_MIN",
   "INT_LEAST16_MAX", "INT_LEAST16_MIN", "INT_LEAST32_MAX", "INT_LEAST32_MIN", "INT_LEAST64_MAX",
   "INT_LEAST64_MIN", "INT_LEAST8_MAX", "INT_LEAST8_MIN", "PRIX16", "PRIX32", "PRIX64", "PRIX8",
   "PRIXFAST16", "PRIXFAST32", "PRIXFAST64", "PRIXFAST8", "PRIXLEAST16", "PRIXLEAST32",
   "PRIXLEAST64", "PRIXLEAST8", "PRIXMAX", "PRIXPTR", "PRId16", "PRId32", "PRId64", "PRId8",
   "PRIdFAST16", "PRIdFAST32", "PRIdFAST64", "PRIdFAST8", "PRIdLEAST16", "PRIdLEAST32",
   "PRIdLEAST64", "PRIdLEAST8", "PRIdMAX", "PRIdPTR", "PRIi16", "PRIi32", "PRIi64", "PRIi8",
   "PRIiFAST16", "PRIiFAST32", "PRIiFAST64", "PRIiFAST8", "PRIiLEAST16", "PRIiLEAST32",
   "PRIiLEAST64", "PRIiLEAST8", "PRIiMAX", "PRIiPTR", "PRIo16", "PRIo32", "PRIo64", "PRIo8",
   "PRIoFAST16", "PRIoFAST32", "PRIoFAST64", "PRIoFAST8", "PRIoLEAST16", "PRIoLEAST32",
   "PRIoLEAST64", "PRIoLEAST8", "PRIoMAX", "PRIoPTR", "PRIu16", "PRIu32", "PRIu64", "PRIu8",
   "PRIuFAST16", "PRIuFAST32", "PRIuFAST64", "PRIuFAST8", "PRIuLEAST16", "PRIuLEAST32",
   "PRIuLEAST64", "PRIuLEAST8", "PRIuMAX", "PRIuPTR", "PRIx16", "PRIx32", "PRIx64", "PRIx8",
   "PRIxFAST16", "PRIxFAST32", "PRIxFAST64", "PRIxFAST8", "PRIxLEAST16", "PRIxLEAST32",
   "PRIxLEAST64", "PRIxLEAST8", "PRIxMAX", "PRIxPTR", "SCNd16", "SCNd32", "SCNd64", "SCNd8",
   "SCNdFAST16", "SCNdFAST32", "SCNdFAST64", "SCNdFAST8", "SCNdLEAST16", "SCNdLEAST32",
   "SCNdLEAST64", "SCNdLEAST8", "SCNdMAX", "SCNdPTR", "SCNi16", "SCNi32", "SCNi64", "SCNi8",
   "SCNiFAST16", "SCNiFAST32", "SCNiFAST64", "SCNiFAST8", "SCNiLEAST16", "SCNiLEAST32",
   "SCNiLEAST64", "SCNiLEAST8", "SCNiMAX", "SCNiPTR", "SCNo16", "SCNo32", "SCNo64", "SCNo8",
   "SCNoFAST16", "SCNoFAST32", "SCNoFAST64", "SCNoFAST8", "SCNoLEAST16", "SCNoLEAST32",
   "SCNoLEAST64", "SCNoLEAST8", "SCNoMAX", "SCNoPTR", "SCNu16", "SCNu32", "SCNu64", "SCNu8",
   "SCNuFAST16", "SCNuFAST32", "SCNuFAST64", "SCNuFAST8", "SCNuLEAST16", "SCNuLEAST32",
   "SCNuLEAST64", "SCNuLEAST8", "SCNuMAX", "SCNuPTR", "SCNx16", "SCNx32", "SCNx64", "SCNx8",
   "SCNxFAST16", "SCNxFAST32", "SCNxFAST64", "SCNxFAST8", "SCNxLEAST16", "SCNxLEAST32",
   "SCNxLEAST64", "SCNxLEAST8", "SCNxMAX", "SCNxPTR", "UINT16_C", "UINT16_MAX", "UINT32_C",
   "UINT32_MAX", "UINT64_C", "UINT64_MAX", "UINT8_C", "UINT8_MAX", "UINTMAX_MAX", "UINTPTR_MAX",
   "UINT_FAST16_MAX", "UINT_FAST32_MAX", "UINT_FAST64_MAX", "UINT_FAST8_MAX", "UINT_LEAST16_MAX",
   "UINT_LEAST32_MAX", "UINT_LEAST64_MAX", "UINT_LEAST8_MAX"]

def isPredefinedMacros (mac : String) : Bool := mac ∈ predefinedMacros

/-- A name the scanner masks: one of the file's macros or a predefined one. -/
def isMacro (macros : Finset String) (mac : String) : Bool :=
  mac ∈ macros || isPredefinedMacros mac

/-! ### Bytes -/

def isAsciiDigit (c : UInt8) : Bool := 48 ≤ c && c ≤ 57

def isAsciiLetter (c : UInt8) : Bool := (65 ≤ c && c ≤ 90) || (97 ≤ c && c ≤ 122)

def isAsciiHexdigit (c : UInt8) : Bool :=
  isAsciiDigit c || (65 ≤ c && c ≤ 70) || (97 ≤ c && c ≤ 102)

def underscore : UInt8 := 95

def isIdentifierPart (c : UInt8) : Bool := isAsciiLetter c || isAsciiDigit c || c = underscore

def isIdentifierStarter (c : UInt8) : Bool := isAsciiLetter c || c = underscore

def newline : UInt8 := 10

def quote : UInt8 := 34

def dollar : UInt8 := 36

def apostrophe : UInt8 := 39

def openParen : UInt8 := 40

def closeParen : UInt8 := 41

def star : UInt8 := 42

def period : UInt8 := 46

def slash : UInt8 := 47

def backslash : UInt8 := 92

/-- `R`, `uR`, `UR`, `LR` and `u8R`. -/
def isRawStringPrefix (ident : Bytes) : Bool :=
  [[82], [117, 82], [85, 82], [76, 82], [117, 56, 82]].contains ident

def cppRawStringDelimMax : ℕ := 16

def fromUtf8 (bytes : Bytes) : Option String := String.fromUTF8? ⟨bytes.toArray⟩

/-! ### State -/

inductive LexState
  | normal
  | string
  | char
  | lineComment
  | blockComment
  | rawString (delimStart delimLen : ℕ)
  deriving DecidableEq, Repr

/-- `kStart` is the 1-based start of the current run and 0 when there is none; the code
up to `codeStart` is in `newCode`. -/
structure MaskState where
  kStart : ℕ
  codeStart : ℕ
  inNumber : Bool
  newCode : Bytes
  deriving DecidableEq, Repr

/-! ### Normal text -/

/-- A `'` in a number with a hexadecimal digit on both sides. -/
def isDigitSeparator (code : Bytes) (i : ℕ) (inNumber : Bool) : Option Bool :=
  if inNumber && 0 < i then do
    let before ← code[i - 1]?
    if isAsciiHexdigit before && i + 1 < code.length then do
      let after ← code[i + 1]?
      return isAsciiHexdigit after
    else return false
  else return false

/-- Whether the byte at `i` is a digit separator, and whether a number goes on with it. -/
def trackNumericRun (code : Bytes) (i kStart : ℕ) (inNumber : Bool) : Option (Bool × Bool) := do
  let c ← code[i]?
  let separator ← if c = apostrophe then isDigitSeparator code i inNumber else some false
  if separator then return (true, inNumber)
  else if inNumber then return (false, isIdentifierPart c || c = period)
  else return (false, kStart = 0 && isAsciiDigit c)

/-- The end of the delimiter of a raw string, `none` inside where it is too long. -/
def delimEnd (code : Bytes) (delimStart : ℕ) : ℕ → ℕ → Option (Option ℕ)
  | 0, _ => none
  | fuel + 1, stop =>
    if stop < code.length then do
      let c ← code[stop]?
      if c = openParen then return some stop
      else if cppRawStringDelimMax ≤ stop - delimStart then return none
      else delimEnd code delimStart fuel (stop + 1)
    else return some stop

/-- The quote at `i` follows a raw-string prefix; without an opening parenthesis in reach
it opens a plain string. -/
def enterRawString (code : Bytes) (i : ℕ) : Option (ℕ × LexState) := do
  let delimStart := i + 1
  match ← delimEnd code delimStart (cppRawStringDelimMax + 2) delimStart with
  | none => return (1, .string)
  | some stop =>
    if code.length ≤ stop then return (1, .string)
    else return (stop - i + 1, .rawString delimStart (stop - delimStart))

/-- Overwrites the run `code[start..stop]`. -/
def maskRun (code : Bytes) (mask : MaskState) (start stop : ℕ) : Option MaskState := do
  let copied ← slice code mask.codeStart start
  return { mask with
    newCode := mask.newCode ++ copied ++ List.replicate (stop - start) dollar
    codeStart := stop }

/-- The transitions on a byte that ends no run: comments, literals and new runs. -/
def openNext (code : Bytes) (i : ℕ) (c : UInt8) (mask : MaskState) :
    Option (ℕ × MaskState × LexState) := do
  let next ← if c = slash && i + 1 < code.length then code[i + 1]?.map some else some none
  if next = some slash then return (2, mask, .lineComment)
  else if next = some star then return (2, mask, .blockComment)
  else if c = quote then return (1, mask, .string)
  else if c = apostrophe then return (1, mask, .char)
  else if mask.kStart = 0 && isIdentifierStarter c then
    return (1, { mask with kStart := i + 1 }, .normal)
  else return (1, mask, .normal)

def stepNormal (macros : Finset String) (code : Bytes) (i : ℕ) (mask : MaskState) :
    Option (ℕ × MaskState × LexState) := do
  let c ← code[i]?
  let (separator, inNumber) ← trackNumericRun code i mask.kStart mask.inNumber
  let mask := { mask with inNumber }
  if separator then return (1, mask, .normal)
  -- a run ends before the byte that ends it changes the state
  else if mask.kStart ≠ 0 && !isIdentifierPart c then do
    let start := mask.kStart - 1
    let mask := { mask with kStart := 0 }
    let run ← slice code start i
    let keyword ← fromUtf8 run
    if c = quote && isRawStringPrefix run then do
      let (n, state) ← enterRawString code i
      return (n, mask, state)
    else if isMacro macros keyword then do
      let mask ← maskRun code mask start i
      openNext code i c mask
    else openNext code i c mask
  else openNext code i c mask

/-! ### The other states -/

def stepQuoted (code : Bytes) (i : ℕ) (stop : UInt8) (inside : LexState) :
    Option (ℕ × LexState) := do
  let c ← code[i]?
  if c = backslash && i + 1 < code.length then return (2, inside)
  else if c = stop then return (1, .normal)
  else return (1, inside)

def stepLineComment (code : Bytes) (i : ℕ) : Option (ℕ × LexState) := do
  let c ← code[i]?
  let next ← if c = backslash && i + 1 < code.length then code[i + 1]?.map some else some none
  if next = some newline then return (2, .lineComment)
  else if c = newline then return (1, .normal)
  else return (1, .lineComment)

def stepBlockComment (code : Bytes) (i : ℕ) : Option (ℕ × LexState) := do
  let c ← code[i]?
  let next ← if c = star && i + 1 < code.length then code[i + 1]?.map some else some none
  if next = some slash then return (2, .normal) else return (1, .blockComment)

/-- `code.get(start..stop)`. -/
def getRange (code : Bytes) (start stop : ℕ) : Option Bytes := slice code start stop

def stepRawString (code : Bytes) (i delimStart delimLen : ℕ) : Option (ℕ × LexState) := do
  let c ← code[i]?
  let closeQuote := i + 1 + delimLen
  if c = closeParen && code[closeQuote]? = some quote &&
      getRange code (i + 1) closeQuote = getRange code delimStart (delimStart + delimLen) then
    return (closeQuote - i + 1, .normal)
  else return (1, .rawString delimStart delimLen)

/-! ### The pass -/

/-- One turn of the loop: the bytes consumed, the mask and the next state. -/
def step (macros : Finset String) (code : Bytes) (i : ℕ) (mask : MaskState) :
    LexState → Option (ℕ × MaskState × LexState)
  | .normal => stepNormal macros code i mask
  | .string => (stepQuoted code i quote .string).map fun (n, state) => (n, mask, state)
  | .char => (stepQuoted code i apostrophe .char).map fun (n, state) => (n, mask, state)
  | .lineComment => (stepLineComment code i).map fun (n, state) => (n, mask, state)
  | .blockComment => (stepBlockComment code i).map fun (n, state) => (n, mask, state)
  | .rawString delimStart delimLen =>
    (stepRawString code i delimStart delimLen).map fun (n, state) => (n, mask, state)

def loop (macros : Finset String) (code : Bytes) :
    ℕ → ℕ → MaskState → LexState → Option (MaskState × LexState)
  | 0, i, mask, state => if i < code.length then none else some (mask, state)
  | fuel + 1, i, mask, state =>
    if i < code.length then do
      let (n, mask, state) ← step macros code i mask state
      loop macros code fuel (i + n) mask state
    else some (mask, state)

/-- The run at the end of the input, and what is still to be copied. The outer `none` is
a stopped program, the inner one an unchanged file. -/
def finish (macros : Finset String) (code : Bytes) (mask : MaskState) (state : LexState) :
    Option (Option Bytes) := do
  let mask ←
    if mask.kStart ≠ 0 && state = .normal then do
      let start := mask.kStart - 1
      let keyword ← fromUtf8 (← slice code start code.length)
      if isMacro macros keyword then maskRun code mask start code.length else some mask
    else some mask
  if mask.codeStart = 0 then return none
  else do
    let rest ← slice code mask.codeStart code.length
    return some (mask.newCode ++ rest)

/-- Every turn consumes a byte, so as many turns as there are bytes are enough. -/
def replace (macros : Finset String) (code : Bytes) : Option (Option Bytes) := do
  let (mask, state) ← loop macros code code.length 0 ⟨0, 0, false, []⟩ .normal
  finish macros code mask state

end BigCodeAnalysis.Languages.CMacro
