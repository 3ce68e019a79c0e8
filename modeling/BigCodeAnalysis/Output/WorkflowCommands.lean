import Mathlib.Data.List.Basic
import Mathlib.Data.List.DropRight
import Mathlib.Data.Nat.Notation

/-! The commands a CI runner reads from the lines of a job: a name, properties and data, with a
percent code for what the grammar reserves. -/

namespace BigCodeAnalysis.Output.WorkflowCommand

/-! ### Lines -/

/-- The lines of a text whose line so far is `line`. A line ends at a feed, a return or both. -/
def linesFrom (line : List Char) : List Char → List (List Char)
  | [] => if line = [] then [] else [line]
  | '\r' :: '\n' :: rest => line :: linesFrom [] rest
  | '\r' :: rest => line :: linesFrom [] rest
  | '\n' :: rest => line :: linesFrom [] rest
  | c :: rest => linesFrom (line ++ [c]) rest

def lines (text : List Char) : List (List Char) := linesFrom [] text

def breaksLine (c : Char) : Bool := c = '\n' || c = '\r'

theorem linesFrom_append {text : List Char} (h : ∀ c ∈ text, breaksLine c = false)
    (line rest : List Char) : linesFrom line (text ++ '\n' :: rest) = (line ++ text) :: lines rest := by
  induction text generalizing line with
  | nil =>
    rw [List.nil_append, List.append_nil, linesFrom]
    rfl
  | cons c text ih =>
    have hc := h c List.mem_cons_self
    simp only [breaksLine, Bool.or_eq_false_iff, decide_eq_false_iff_not] at hc
    have hstep : linesFrom line (c :: (text ++ '\n' :: rest)) =
        linesFrom (line ++ [c]) (text ++ '\n' :: rest) :=
      linesFrom.eq_5 line c _ (fun _ he _ => hc.2 he) hc.2 hc.1
    rw [List.cons_append, hstep, ih fun d hd => h d (List.mem_cons_of_mem _ hd)]
    simp

/-- Lines with a feed behind each are read as they are. -/
theorem lines_flatMap {texts : List (List Char)}
    (h : ∀ text ∈ texts, ∀ c ∈ text, breaksLine c = false) :
    lines (texts.flatMap fun text => text ++ ['\n']) = texts := by
  induction texts with
  | nil => rfl
  | cons text texts ih =>
    rw [List.flatMap_cons, List.append_assoc, List.singleton_append, lines,
      linesFrom_append (h text List.mem_cons_self), ih fun t ht => h t (List.mem_cons_of_mem _ ht),
      List.nil_append]

/-! ### Percent codes -/

/-- A reserved character with the two digits that stand for it. -/
abbrev Codes := List (Char × List Char)

def dataCodes : Codes := [('%', ['2', '5']), ('\r', ['0', 'D']), ('\n', ['0', 'A'])]

def propertyCodes : Codes := dataCodes ++ [(':', ['3', 'A']), (',', ['2', 'C'])]

def decodeOne (codes : Codes) (digits : List Char) : Option Char :=
  (codes.find? fun code => code.2 = digits).map Prod.fst

def unescape (codes : Codes) : List Char → List Char
  | '%' :: a :: b :: rest =>
    match decodeOne codes [a, b] with
    | some c => c :: unescape codes rest
    | none => '%' :: unescape codes (a :: b :: rest)
  | c :: rest => c :: unescape codes rest
  | [] => []

def encodeOne (codes : Codes) (c : Char) : List Char :=
  match codes.find? fun code => code.1 = c with
  | some code => '%' :: code.2
  | none => [c]

def escape (codes : Codes) (text : List Char) : List Char := text.flatMap (encodeOne codes)

/-- Two digits a code, each code once, and one for the sign itself. -/
structure Faithful (codes : Codes) : Prop where
  digits : ∀ code ∈ codes, code.2.length = 2 ∧ decodeOne codes code.2 = some code.1
  sign : (codes.find? fun code => code.1 = '%').isSome

theorem faithful_dataCodes : Faithful dataCodes := ⟨by decide, by decide⟩

theorem faithful_propertyCodes : Faithful propertyCodes := ⟨by decide, by decide⟩

theorem unescape_cons {codes : Codes} {c : Char} (h : c ≠ '%') (rest : List Char) :
    unescape codes (c :: rest) = c :: unescape codes rest :=
  unescape.eq_2 codes c rest fun _ _ _ he _ => h he

theorem unescape_encodeOne {codes : Codes} (h : Faithful codes) (c : Char) (rest : List Char) :
    unescape codes (encodeOne codes c ++ rest) = c :: unescape codes rest := by
  rw [encodeOne]
  cases hfind : codes.find? fun code => code.1 = c with
  | none =>
    have hne : c ≠ '%' := by
      rintro rfl
      have hsign := h.sign
      rw [hfind] at hsign
      cases hsign
    exact unescape_cons hne rest
  | some code =>
    obtain ⟨hlength, hdecode⟩ := h.digits code (List.mem_of_find?_eq_some hfind)
    have hc : code.1 = c := by simpa using List.find?_some hfind
    obtain ⟨a, b, hdigits⟩ := List.length_eq_two.mp hlength
    show unescape codes (('%' :: code.2) ++ rest) = _
    rw [hdigits] at hdecode ⊢
    show unescape codes ('%' :: a :: b :: rest) = _
    rw [unescape, hdecode, hc]

theorem unescape_escape {codes : Codes} (h : Faithful codes) (text : List Char) :
    unescape codes (escape codes text) = text := by
  induction text with
  | nil => rfl
  | cons c text ih =>
    rw [escape, List.flatMap_cons, unescape_encodeOne h, ← escape, ih]

/-- No reserved character but the sign is left. -/
theorem notMem_escape {codes : Codes} {c : Char}
    (hcode : (codes.find? fun code => code.1 = c).isSome)
    (hdigits : ∀ code ∈ codes, c ∉ '%' :: code.2) (text : List Char) : c ∉ escape codes text := by
  intro hmem
  obtain ⟨d, -, hd⟩ := List.mem_flatMap.mp hmem
  rw [encodeOne] at hd
  cases hfind : codes.find? fun code => code.1 = d with
  | none =>
    rw [hfind] at hd
    obtain rfl := List.mem_singleton.mp hd
    rw [hfind] at hcode
    cases hcode
  | some code =>
    rw [hfind] at hd
    exact hdigits code (List.mem_of_find?_eq_some hfind) hd

/-! ### Commands -/

structure Command where
  name : List Char
  properties : List (List Char × List Char)
  data : List Char
  deriving DecidableEq, Repr

def isBlank (c : Char) : Bool :=
  c.isWhitespace || c.toNat = 0x0B || c.toNat = 0x0C || c.toNat = 0x85 || c.toNat = 0xA0 ||
    c.toNat = 0x1680 || (0x2000 ≤ c.toNat && c.toNat ≤ 0x200A) || c.toNat = 0x2028 ||
    c.toNat = 0x2029 || c.toNat = 0x202F || c.toNat = 0x205F || c.toNat = 0x3000

def trim (text : List Char) : List Char := (text.dropWhile isBlank).rdropWhile isBlank

/-- What stands before and behind the first `::`. -/
def splitColons : List Char → Option (List Char × List Char)
  | ':' :: ':' :: rest => some ([], rest)
  | c :: rest => (splitColons rest).map fun p => (c :: p.1, p.2)
  | [] => none

/-- A property without a name or a value is passed over. -/
def readProperty (text : List Char) : Option (List Char × List Char) :=
  let key := text.takeWhile (· ≠ '=')
  let value := (text.dropWhile (· ≠ '=')).tail
  if key = [] ∨ value = [] then none else some (key, unescape propertyCodes value)

def readInfo (info : List Char) : List Char × List (List Char × List Char) :=
  (info.takeWhile (· ≠ ' '),
    ((trim (info.dropWhile (· ≠ ' ')).tail).splitOn ',').filterMap readProperty)

def readCommand (line : List Char) : Option Command :=
  match line.dropWhile isBlank with
  | ':' :: ':' :: rest => do
    let (info, data) ← splitColons rest
    some ⟨(readInfo info).1, (readInfo info).2, unescape dataCodes data⟩
  | _ => none

/-! ### Reading what is written -/

theorem splitColons_append {info data : List Char} (h : ':' ∉ info) :
    splitColons (info ++ ':' :: ':' :: data) = some (info, data) := by
  induction info with
  | nil => rfl
  | cons c info ih =>
    obtain ⟨hne, hmem⟩ := not_or.mp (List.mem_cons.not.mp h)
    have hstep : splitColons (c :: (info ++ ':' :: ':' :: data)) =
        (splitColons (info ++ ':' :: ':' :: data)).map fun p => (c :: p.1, p.2) :=
      splitColons.eq_2 c _ fun _ he _ => hne he.symm
    rw [List.cons_append, hstep, ih hmem]
    rfl

theorem readCommand_append {info data : List Char} (h : ':' ∉ info) :
    readCommand (':' :: ':' :: (info ++ ':' :: ':' :: data)) =
      some ⟨(readInfo info).1, (readInfo info).2, unescape dataCodes data⟩ := by
  have hblank : isBlank ':' = false := by decide
  rw [readCommand, List.dropWhile_cons_of_neg (by rw [hblank]; exact Bool.false_ne_true)]
  show (splitColons (info ++ ':' :: ':' :: data)).bind _ = _
  rw [splitColons_append h]
  rfl

/-- A property as it is written. -/
def property (key value : List Char) : List Char := key ++ '=' :: escape propertyCodes value

theorem readProperty_property {key : List Char} (hkey : key ≠ []) (hsign : '=' ∉ key)
    (value : List Char) :
    readProperty (property key value) = if value = [] then none else some (key, value) := by
  have hall : ∀ c ∈ key, decide (c ≠ '=') = true := by
    intro c hc
    simpa using fun he : c = '=' => hsign (he ▸ hc)
  have hempty : escape propertyCodes value = [] ↔ value = [] := by
    constructor
    · intro h
      rw [← unescape_escape faithful_propertyCodes value, h]
      rfl
    · rintro rfl
      rfl
  rw [readProperty, property, List.takeWhile_append_of_pos hall, List.dropWhile_append_of_pos hall,
    List.takeWhile_cons_of_neg (by simp), List.dropWhile_cons_of_neg (by simp), List.append_nil,
    List.tail_cons]
  simp only [hkey, false_or, hempty, unescape_escape faithful_propertyCodes]

theorem notMem_property {c : Char} {key value : List Char} (hkey : c ∉ key) (hsign : c ≠ '=')
    (hcode : (propertyCodes.find? fun code => code.1 = c).isSome)
    (hdigits : ∀ code ∈ propertyCodes, c ∉ '%' :: code.2) : c ∉ property key value := by
  rw [property, List.mem_append, List.mem_cons]
  rintro (h | h | h)
  · exact hkey h
  · exact hsign h
  · exact notMem_escape hcode hdigits value h

def writtenProperties (props : List (List Char × List Char)) : List Char :=
  [','].intercalate (props.map fun p => property p.1 p.2)

theorem trim_eq {text : List Char} {c d : Char} {rest front : List Char} (hhead : text = c :: rest)
    (hlast : text = front ++ [d]) (hc : isBlank c = false) (hd : isBlank d = false) :
    trim text = text := by
  have hstart : text.dropWhile isBlank = text := by
    rw [hhead, List.dropWhile_cons_of_neg (by rw [hc]; exact Bool.false_ne_true)]
  rw [trim, hstart, hlast, List.rdropWhile_concat_neg _ _ _ (by rw [hd]; exact Bool.false_ne_true)]

/-- Properties with distinct signs between them are read as they are meant; one without a value
is lost. -/
theorem readInfo_written {name : List Char} (hname : ' ' ∉ name)
    {props : List (List Char × List Char)} (hne : props ≠ [])
    (hkeys : ∀ p ∈ props, p.1 ≠ [] ∧ '=' ∉ p.1 ∧ ',' ∉ p.1)
    (htrim : trim (writtenProperties props) = writtenProperties props) :
    readInfo (name ++ ' ' :: writtenProperties props) = (name, props.filter fun p => p.2 ≠ []) := by
  have hall : ∀ c ∈ name, decide (c ≠ ' ') = true := by
    intro c hc
    simpa using fun he : c = ' ' => hname (he ▸ hc)
  have hsplit : (writtenProperties props).splitOn ',' = props.map fun p => property p.1 p.2 := by
    refine List.splitOn_intercalate ',' (fun text htext => ?_) (by simpa using hne)
    obtain ⟨p, hp, rfl⟩ := List.mem_map.mp htext
    exact notMem_property (hkeys p hp).2.2 (by decide) (by decide) (by decide)
  have hread : (props.map fun p => property p.1 p.2).filterMap readProperty =
      props.filter fun p => p.2 ≠ [] := by
    rw [List.filterMap_map, ← List.filterMap_eq_filter]
    refine List.filterMap_congr fun p hp => ?_
    obtain ⟨hkey, hsign, -⟩ := hkeys p hp
    rw [Function.comp_apply, readProperty_property hkey hsign]
    by_cases hvalue : p.2 = [] <;> simp [hvalue, Option.guard]
  rw [readInfo, List.takeWhile_append_of_pos hall, List.dropWhile_append_of_pos hall,
    List.takeWhile_cons_of_neg (by simp), List.dropWhile_cons_of_neg (by simp), List.append_nil,
    List.tail_cons, htrim, hsplit, hread]

end BigCodeAnalysis.Output.WorkflowCommand
