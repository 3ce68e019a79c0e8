import Mathlib.Algebra.GroupWithZero.Nat
import Mathlib.Data.List.Range
import Mathlib.Data.Nat.Notation

/-! The bitset behind the line counts of a space. A row is one bit of an array of
64-bit words whose first word need not be word 0: the array starts at the word of
the first row recorded and grows at both ends. Every index and every subtraction
of the source that would stop the program out of range is checked here, so an
operation answers `none` where the code would panic. -/

namespace BigCodeAnalysis.Metrics

/-- `a - b` as the program computes it: an underflow stops it. -/
def checkedSub (a b : ℕ) : Option ℕ := if b ≤ a then some (a - b) else none

abbrev Word := BitVec 64

def bitsPerWord : ℕ := 64

/-- Index of the word holding `row`. -/
def wordOf (row : ℕ) : ℕ := row / bitsPerWord

/-- Mask selecting `row` within its word. -/
def bitOf (row : ℕ) : Word := 1#64 <<< (row % bitsPerWord)

/-- The bits at or above the position of `row` in its word. -/
def fromMask (row : ℕ) : Word := BitVec.allOnes 64 <<< (row % bitsPerWord)

/-- The bits at or below the position of `row` in its word. -/
def throughMask (row : ℕ) : Word := BitVec.allOnes 64 >>> (bitsPerWord - 1 - row % bitsPerWord)

def countOnes (w : Word) : ℕ := w.cpop.toNat

/-- `words[slot] = f(words[slot])`. -/
def updateSlot (words : List Word) (slot : ℕ) (f : Word → Word) : Option (List Word) :=
  words[slot]?.map fun w => words.set slot (f w)

/-- `words[first..last].fill(w)`. -/
def fillSlots (words : List Word) (first last : ℕ) (w : Word) : Option (List Word) :=
  if first ≤ last ∧ last ≤ words.length then
    some (words.take first ++ List.replicate (last - first) w ++ words.drop last)
  else none

/-- `dst |= src` along two arrays, up to the end of the shorter one. -/
def orWords : List Word → List Word → List Word
  | dst :: dsts, src :: srcs => (dst ||| src) :: orWords dsts srcs
  | dsts, _ => dsts

/-- Bit `b` of `words[i]` is row `(firstWord + i) * 64 + b`. The offset means
nothing while `words` is empty. -/
structure LineSet where
  firstWord : ℕ
  words : List Word

namespace LineSet

instance : Inhabited LineSet := ⟨⟨0, []⟩⟩

/-- Grows the array so that the absolute index `word` is covered. -/
def reserve (self : LineSet) (word : ℕ) : Option LineSet :=
  if self.words = [] then some { firstWord := word, words := self.words ++ [0] }
  else if word < self.firstWord then do
    let below ← checkedSub self.firstWord word
    return { firstWord := word, words := List.replicate below 0 ++ self.words }
  else do
    let slot ← checkedSub word self.firstWord
    if self.words.length ≤ slot then
      return { self with
        words := self.words ++ List.replicate (slot + 1 - self.words.length) 0 }
    else return self

/-- Adds `row`. -/
def insert (self : LineSet) (row : ℕ) : Option LineSet := do
  let word := wordOf row
  let self ← self.reserve word
  let slot ← checkedSub word self.firstWord
  let words ← updateSlot self.words slot (· ||| bitOf row)
  return { self with words }

/-- Adds every row of `start..=stop`; nothing when `stop < start`. Both ends are
reserved before either slot is taken: the first reservation can move the offset. -/
def insertRange (self : LineSet) (start stop : ℕ) : Option LineSet :=
  if stop < start then some self
  else do
    let self ← self.reserve (wordOf start)
    let self ← self.reserve (wordOf stop)
    let first ← checkedSub (wordOf start) self.firstWord
    let last ← checkedSub (wordOf stop) self.firstWord
    if first = last then do
      let words ← updateSlot self.words first (· ||| (fromMask start &&& throughMask stop))
      return { self with words }
    else do
      let words ← updateSlot self.words first (· ||| fromMask start)
      let words ← fillSlots words (first + 1) last (BitVec.allOnes 64)
      let words ← updateSlot words last (· ||| throughMask stop)
      return { self with words }

/-- What `retain_range` leaves of the word at the absolute index `absolute`. -/
def retained (first last absolute : ℕ) (word : Word) : Word :=
  if wordOf first ≤ absolute ∧ absolute ≤ wordOf last then
    let word := if absolute = wordOf first then word &&& fromMask first else word
    if absolute = wordOf last then word &&& throughMask last else word
  else 0

/-- Removes every row outside `first..=last`; an inverted range empties the set. -/
def retainRange (self : LineSet) (first last : ℕ) : LineSet :=
  if last < first then { self with words := [] }
  else
    { self with
      words := self.words.mapIdx fun index word =>
        retained first last (self.firstWord + index) word }

/-- Position of the word of `row` within `words`, if covered. -/
def slot (self : LineSet) (row : ℕ) : Option ℕ :=
  (checkedSub (wordOf row) self.firstWord).filter fun slot => decide (slot < self.words.length)

/-- Removes `row`; nothing when it is absent. -/
def remove (self : LineSet) (row : ℕ) : Option LineSet :=
  match self.slot row with
  | some slot => do
    let words ← updateSlot self.words slot (· &&& ~~~ bitOf row)
    return { self with words }
  | none => some self

def contains (self : LineSet) (row : ℕ) : Option Bool :=
  match self.slot row with
  | some slot => do
    let word ← self.words[slot]?
    return word &&& bitOf row ≠ 0
  | none => some false

def len (self : LineSet) : ℕ := (self.words.map countOnes).sum

/-- The absolute word indices both arrays cover, ascending. A start above the end
gives no index. -/
def overlappingWords (self other : LineSet) : List ℕ :=
  let start := max self.firstWord other.firstWord
  let stop := min (self.firstWord + self.words.length) (other.firstWord + other.words.length)
  List.range' start (stop - start)

/-- The word at the absolute index `word` of an array that must cover it. -/
def wordIn (self : LineSet) (word : ℕ) : Option Word := do
  let slot ← checkedSub word self.firstWord
  self.words[slot]?

/-- Number of rows in both sets. -/
def intersectionLen (self other : LineSet) : Option ℕ := do
  let counts ← (self.overlappingWords other).mapM fun word => do
    let mine ← self.wordIn word
    let theirs ← other.wordIn word
    return countOnes (mine &&& theirs)
  return counts.sum

/-- Number of rows in either set, by inclusion and exclusion. -/
def unionLen (self other : LineSet) : Option ℕ := do
  let both ← self.intersectionLen other
  checkedSub (self.len + other.len) both

/-- Index of the last word held. -/
def lastWord (self : LineSet) : Option (Option ℕ) :=
  if self.words = [] then some none
  else (checkedSub (self.firstWord + self.words.length) 1).map some

/-- Adds every row of `other`. -/
def unionWith (self other : LineSet) : Option LineSet := do
  match ← other.lastWord with
  | none => return self
  | some lastWord =>
    let self ← self.reserve other.firstWord
    let self ← self.reserve lastWord
    let base ← checkedSub other.firstWord self.firstWord
    if base ≤ self.words.length then
      return { self with
        words := self.words.take base ++ orWords (self.words.drop base) other.words }
    else none

/-- `subtract` on the word at the absolute index `word`. -/
def subtractWord (other self : LineSet) (word : ℕ) : Option LineSet := do
  let slot ← checkedSub word self.firstWord
  let theirs ← other.wordIn word
  let words ← updateSlot self.words slot (· &&& ~~~ theirs)
  return { self with words }

/-- Removes every row of `other`; nothing is allocated. -/
def subtract (self other : LineSet) : Option LineSet :=
  (self.overlappingWords other).foldlM (subtractWord other) self

/-- The word at the absolute index `word`, or zero when uncovered. -/
def word (self : LineSet) (word : ℕ) : Word :=
  ((checkedSub word self.firstWord).bind fun slot => self.words[slot]?).getD 0

/-- Equality over the rows: all words from the lower start to the higher end agree. -/
def beq (self other : LineSet) : Bool :=
  let start := min self.firstWord other.firstWord
  let stop := max (self.firstWord + self.words.length) (other.firstWord + other.words.length)
  (List.range' start (stop - start)).all fun word => self.word word == other.word word

/-- The rows in the set, ascending. -/
def rows (self : LineSet) : List ℕ :=
  self.words.zipIdx.flatMap fun (word, index) =>
    let base := (self.firstWord + index) * bitsPerWord
    ((List.range bitsPerWord).filter fun bit => word >>> bit &&& 1#64 == 1#64).map (base + ·)

end LineSet

end BigCodeAnalysis.Metrics
