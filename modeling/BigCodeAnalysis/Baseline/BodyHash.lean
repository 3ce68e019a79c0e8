import BigCodeAnalysis.Comments.Removal
import BigCodeAnalysis.Sequences.Words

/-! The body hash of a function: a digest of its lines with the white space evened out and the
function's own name blotted out, so that the hash outlives reformatting and a rename. Evening
out is proved to ignore every change of layout, one change at a time. The elision of a name is
read off runs of identifier bytes: the runs that are the name become the sentinel, and
everything else stays. -/

namespace BigCodeAnalysis.Baseline.BodyHash

open Comments (Bytes lineFeed carriageReturn)
open Sequences

def space : UInt8 := 32

/-- Space, tab, line feed, form feed and carriage return. -/
def isAsciiWhitespace (b : UInt8) : Bool :=
  b = space || b = 9 || b = lineFeed || b = 12 || b = carriageReturn

/-! ### White space -/

/-- One line being appended to the output. -/
structure LineState where
  out : Bytes
  lineStarted : Bool
  pendingSpace : Bool
  deriving DecidableEq, Repr

def LineState.push (s : LineState) (b : UInt8) : LineState :=
  if b = carriageReturn then s
  else if isAsciiWhitespace b then { s with pendingSpace := true }
  else ⟨(if s.lineStarted && s.pendingSpace then s.out ++ [space] else s.out) ++ [b], true, false⟩

/-- The output with the line appended, and whether the line was not blank. -/
def pushNormalizedLine (line out : Bytes) : Bytes × Bool :=
  let s := line.foldl LineState.push ⟨out, false, false⟩
  (s.out, s.lineStarted)

/-- The lines of a span, numbered from one, the last line included. -/
def bodyLines (source : Bytes) (startLine endLine : ℕ) : List Bytes :=
  ((source.splitOn lineFeed).drop (startLine - 1)).take (endLine - (startLine - 1))

def appendLine (out line : Bytes) : Bytes :=
  let (out, nonBlank) := pushNormalizedLine line out
  if nonBlank then out ++ [lineFeed] else out

def normalizeBody (source : Bytes) (startLine endLine : ℕ) : Bytes :=
  (bodyLines source startLine endLine).foldl appendLine []

/-! ### The name -/

def elidedNameSentinel : UInt8 := 0

/-- ASCII letters, digits and the underscore. -/
def isIdent (b : UInt8) : Bool :=
  (65 ≤ b && b ≤ 90) || (97 ≤ b && b ≤ 122) || (48 ≤ b && b ≤ 57) || b = 95

/-- The name stands at `i` with no identifier byte on either side. -/
def occursAt (haystack name : Bytes) (i : ℕ) : Bool :=
  let leftOk := i = 0 || !(haystack[i - 1]?.any isIdent)
  leftOk && name.isPrefixOf (haystack.drop i) && !(haystack[i + name.length]?.any isIdent)

/-- The loop from position `i` on; every turn moves on by a byte at least. -/
def elideFrom (haystack name : Bytes) : ℕ → ℕ → Bytes
  | 0, _ => []
  | fuel + 1, i =>
    match haystack[i]? with
    | none => []
    | some b =>
      if occursAt haystack name i then
        elidedNameSentinel :: elideFrom haystack name fuel (i + name.length)
      else b :: elideFrom haystack name fuel (i + 1)

/-- A name that is empty or has other bytes is left as it is. -/
def elideIdentifier (haystack name : Bytes) : Bytes :=
  if name.isEmpty || !name.all isIdent then haystack
  else elideFrom haystack name haystack.length 0

/-- What is hashed. -/
def hashInput (source : Bytes) (startLine endLine : ℕ) (name : Bytes) : Bytes :=
  elideIdentifier (normalizeBody source startLine endLine) name

def fnvOffsetBasis : UInt64 := 0xcbf29ce484222325

def fnvPrime : UInt64 := 0x100000001b3

def hashBody (source : Bytes) (startLine endLine : ℕ) (name : Bytes) : UInt64 :=
  (hashInput source startLine endLine name).foldl
    (fun hash b => (hash ^^^ b.toUInt64) * fnvPrime) fnvOffsetBasis

/-! ### Reformatting -/

def Blank (bytes : Bytes) : Prop := ∀ b ∈ bytes, isAsciiWhitespace b = true

/-- White space that is more than carriage returns. -/
def Gap (bytes : Bytes) : Prop := Blank bytes ∧ ∃ b ∈ bytes, b ≠ carriageReturn

/-- One change of layout in the lines of a body. -/
inductive Reformat : List Bytes → List Bytes → Prop
  | indent (before after : List Bytes) {lead lead' : Bytes} (line : Bytes) (h : Blank lead)
      (h' : Blank lead') :
      Reformat (before ++ (lead ++ line) :: after) (before ++ (lead' ++ line) :: after)
  | blankLine (before after : List Bytes) {line : Bytes} (h : Blank line) :
      Reformat (before ++ after) (before ++ line :: after)
  | crLf (before after : List Bytes) (line : Bytes) :
      Reformat (before ++ line :: after) (before ++ (line ++ [carriageReturn]) :: after)
  | run (before after : List Bytes) (left right : Bytes) {gap gap' : Bytes} (h : Gap gap)
      (h' : Gap gap') :
      Reformat (before ++ (left ++ gap ++ right) :: after)
        (before ++ (left ++ gap' ++ right) :: after)

theorem push_blank {bytes : Bytes} (h : Blank bytes) (s : LineState) :
    bytes.foldl LineState.push s =
      { s with pendingSpace := s.pendingSpace || bytes.any (· ≠ carriageReturn) } := by
  induction bytes generalizing s with
  | nil => simp
  | cons b bytes ih =>
    have hb := h b List.mem_cons_self
    rw [List.foldl_cons, ih fun c hc => h c (List.mem_cons_of_mem b hc), LineState.push]
    split_ifs with hreturn
    · simp [hreturn]
    · simp [hreturn]

/-- Before a line has started a pending space is never written. -/
theorem push_unstarted (line out : Bytes) (pending : Bool) :
    (line.foldl LineState.push ⟨out, false, pending⟩).out =
        (line.foldl LineState.push ⟨out, false, false⟩).out ∧
      (line.foldl LineState.push ⟨out, false, pending⟩).lineStarted =
        (line.foldl LineState.push ⟨out, false, false⟩).lineStarted := by
  induction line generalizing pending with
  | nil => exact ⟨rfl, rfl⟩
  | cons b line ih =>
    rw [List.foldl_cons, List.foldl_cons, LineState.push, LineState.push]
    by_cases hreturn : b = carriageReturn
    · rw [if_pos hreturn, if_pos hreturn]
      exact ih pending
    rw [if_neg hreturn, if_neg hreturn]
    by_cases hblank : isAsciiWhitespace b = true
    · rw [if_pos hblank, if_pos hblank]
      exact ⟨rfl, rfl⟩
    · rw [if_neg hblank, if_neg hblank]
      exact ⟨rfl, rfl⟩

theorem pushNormalizedLine_lead {lead : Bytes} (h : Blank lead) (line out : Bytes) :
    pushNormalizedLine (lead ++ line) out = pushNormalizedLine line out := by
  unfold pushNormalizedLine
  rw [List.foldl_append, push_blank h]
  obtain ⟨hout, hstarted⟩ := push_unstarted line out (false || lead.any (· ≠ carriageReturn))
  exact Prod.ext hout hstarted

theorem appendLine_blank {line : Bytes} (h : Blank line) (out : Bytes) :
    appendLine out line = out := by
  unfold appendLine pushNormalizedLine
  rw [push_blank h]
  rfl

theorem push_gap {gap gap' : Bytes} (h : Gap gap) (h' : Gap gap') (s : LineState) :
    gap.foldl LineState.push s = gap'.foldl LineState.push s := by
  have hany : ∀ {bytes : Bytes}, Gap bytes → bytes.any (· ≠ carriageReturn) = true := by
    rintro bytes ⟨-, b, hb, hne⟩
    exact List.any_eq_true.mpr ⟨b, hb, by simpa using hne⟩
  rw [push_blank h.1, push_blank h'.1, hany h, hany h']

theorem pushNormalizedLine_gap {gap gap' : Bytes} (h : Gap gap) (h' : Gap gap')
    (left right out : Bytes) : pushNormalizedLine (left ++ gap ++ right) out =
      pushNormalizedLine (left ++ gap' ++ right) out := by
  have hsame : (left ++ gap ++ right).foldl LineState.push ⟨out, false, false⟩ =
      (left ++ gap' ++ right).foldl LineState.push ⟨out, false, false⟩ := by
    rw [List.foldl_append, List.foldl_append, push_gap h h', List.foldl_append, List.foldl_append]
  unfold pushNormalizedLine
  rw [hsame]

/-- A change of layout does not change the normalised lines. -/
theorem Reformat.foldl_eq {lines lines' : List Bytes} (h : Reformat lines lines') (out : Bytes) :
    lines.foldl appendLine out = lines'.foldl appendLine out := by
  cases h with
  | indent before after line h h' =>
    rw [List.foldl_append, List.foldl_append, List.foldl_cons, List.foldl_cons, appendLine,
      appendLine, pushNormalizedLine_lead h, pushNormalizedLine_lead h']
  | blankLine before after h =>
    rw [List.foldl_append, List.foldl_append, List.foldl_cons, appendLine_blank h]
  | crLf before after line =>
    rw [List.foldl_append, List.foldl_append, List.foldl_cons, List.foldl_cons, appendLine,
      appendLine, pushNormalizedLine, pushNormalizedLine, List.foldl_append]
    rfl
  | run before after left right h h' =>
    rw [List.foldl_append, List.foldl_append, List.foldl_cons, List.foldl_cons, appendLine,
      appendLine, pushNormalizedLine_gap h h']

/-- So no sequence of them does. -/
theorem foldl_eq_of_eqvGen {lines lines' : List Bytes} (h : Relation.EqvGen Reformat lines lines') :
    lines.foldl appendLine [] = lines'.foldl appendLine [] := by
  induction h with
  | rel _ _ h => exact h.foldl_eq []
  | refl _ => rfl
  | symm _ _ _ ih => exact ih.symm
  | trans _ _ _ _ _ ih ih' => exact ih.trans ih'

/-! ### What the elision does to a text -/

section

variable {name pre rest : Bytes}

/-- The image of a run under the elision. -/
def mark (name t : Bytes) : Bytes := if t = name then [elidedNameSentinel] else t

/-- No identifier byte stands before the end of `pre` and at the start of `rest` at once. -/
def Border (pre rest : Bytes) : Prop :=
  ∀ x ∈ pre.getLast?, ∀ y ∈ rest.head?, (isIdent x && isIdent y) = false

theorem leftOk_iff (pre rest : Bytes) :
    (pre.length = 0 || !((pre ++ rest)[pre.length - 1]?.any isIdent)) =
      !(pre.getLast?.any isIdent) := by
  cases pre with
  | nil => rfl
  | cons b pre =>
    have hlast : ((b :: pre) ++ rest)[(b :: pre).length - 1]? = (b :: pre).getLast? := by
      rw [List.getLast?_eq_getElem?, List.getElem?_append_left]
      rw [List.length_cons]
      omega
    have hlength : decide ((b :: pre).length = 0) = false := decide_eq_false (Nat.succ_ne_zero _)
    rw [hlast, hlength, Bool.false_or]

theorem occursAt_eq (pre rest : Bytes) : occursAt (pre ++ rest) name pre.length =
    (!(pre.getLast?.any isIdent) && name.isPrefixOf rest && !(rest[name.length]?.any isIdent)) := by
  unfold occursAt
  dsimp only
  rw [leftOk_iff, List.drop_left, List.getElem?_append_right (by omega), Nat.add_sub_cancel_left]

/-- A run is the name, or the name does not stand at its start. -/
theorem occursAt_word {t : Bytes} (hname : IsWord isIdent name) (ht : IsWord isIdent t)
    (hpre : pre.getLast?.any isIdent = false) (hrest : rest.head?.any isIdent = false) :
    occursAt (pre ++ (t ++ rest)) name pre.length = true ↔ t = name := by
  rw [occursAt_eq, hpre]
  constructor
  · intro h
    simp only [Bool.not_false, Bool.true_and, Bool.and_eq_true, List.isPrefixOf_iff_prefix,
      Bool.not_eq_true'] at h
    obtain ⟨⟨after, hafter⟩, hnext⟩ := h
    rcases List.append_eq_append_iff.mp hafter with ⟨s, hs, hcut⟩ | ⟨s, hs, hcut⟩
    · cases s with
      | nil => rw [hs, List.append_nil]
      | cons b s =>
        have hb : (t ++ rest)[name.length]? = some b := by
          rw [← hafter, List.getElem?_append_right (Nat.le_refl _), Nat.sub_self, hcut]
          rfl
        rw [hb, Option.any_some, ht.2 b (by simp [hs])] at hnext
        cases hnext
    · cases s with
      | nil => rw [hs, List.append_nil]
      | cons b s =>
        rw [hcut, List.cons_append, List.head?_cons, Option.any_some,
          hname.2 b (by simp [hs])] at hrest
        cases hrest
  · rintro rfl
    have hnext : (t ++ rest)[t.length]? = rest.head? := by
      rw [List.getElem?_append_right (Nat.le_refl _), Nat.sub_self, List.head?_eq_getElem?]
    rw [hnext, hrest, List.isPrefixOf_iff_prefix.mpr (List.prefix_append t rest)]
    rfl

/-- Inside a run no name begins. -/
theorem elideFrom_inside (s : Bytes) : ∀ {pre : Bytes} (fuel : ℕ),
    pre.getLast?.any isIdent = true → (∀ b ∈ s, isIdent b = true) →
    elideFrom (pre ++ (s ++ rest)) name (s.length + fuel) pre.length =
      s ++ elideFrom (pre ++ s ++ rest) name fuel (pre ++ s).length := by
  induction s with
  | nil =>
    intro pre fuel _ _
    rw [List.length_nil, Nat.zero_add, List.append_nil, List.nil_append, List.nil_append]
  | cons b s ih =>
    intro pre fuel hpre hs
    have hno : occursAt (pre ++ (b :: s ++ rest)) name pre.length = false := by
      rw [occursAt_eq, hpre]
      rfl
    have hb : (pre ++ (b :: s ++ rest))[pre.length]? = some b := by
      rw [List.getElem?_append_right (Nat.le_refl _), Nat.sub_self]
      rfl
    have hnext := @ih (pre ++ [b]) fuel (by
      rw [List.getLast?_concat, Option.any_some]
      exact hs b List.mem_cons_self) fun c hc => hs c (List.mem_cons_of_mem b hc)
    rw [List.length_append, List.length_singleton, List.append_assoc, List.singleton_append] at hnext
    rw [List.length_cons, Nat.add_right_comm, elideFrom, hb]
    dsimp only
    rw [if_neg (Bool.eq_false_iff.mp hno), List.cons_append, hnext, List.append_assoc pre [b] s,
      List.singleton_append, List.cons_append]

theorem any_eq_false_of_border {x : UInt8} (h : Border pre rest) (hx : rest.head? = some x)
    (hident : isIdent x = true) : pre.getLast?.any isIdent = false := by
  cases hlast : pre.getLast? with
  | none => rfl
  | some y =>
    have hboth := h y hlast x hx
    rwa [hident, Bool.and_true] at hboth

theorem border_of_head (h : rest.head?.any isIdent = false) : Border pre rest := by
  intro x _ y hy
  rw [hy, Option.any_some] at h
  rw [h, Bool.and_false]

/-- Behind a word stands no identifier byte. -/
theorem head_of_separated {t : Bytes} {ts : List Bytes} (h : Separated isIdent (t :: ts))
    (ht : IsWord isIdent t) : ts.flatten.head?.any isIdent = false := by
  cases ts with
  | nil => rfl
  | cons u us =>
    have hnot := (List.isChain_cons_cons.mp h.apart).1
    rcases h.token u (by simp) with hu | ⟨x, hx, rfl⟩
    · exact absurd ⟨ht, hu⟩ hnot
    · exact hx

theorem Separated.tail {t : Bytes} {ts : List Bytes} (h : Separated isIdent (t :: ts)) :
    Separated isIdent ts :=
  ⟨fun u hu => h.token u (List.mem_cons_of_mem t hu), h.apart.tail⟩

/-- The elision marks the runs one by one. -/
theorem elideFrom_spec (hname : IsWord isIdent name) {ts : List Bytes} :
    ∀ {pre : Bytes} (fuel : ℕ), Separated isIdent ts → Border pre ts.flatten →
    ts.flatten.length ≤ fuel →
    elideFrom (pre ++ ts.flatten) name fuel pre.length = ts.flatMap (mark name) := by
  induction ts with
  | nil =>
    intro pre fuel _ _ _
    cases fuel with
    | zero => rfl
    | succ fuel =>
      rw [elideFrom, List.flatten_nil, List.append_nil, List.getElem?_eq_none (Nat.le_refl _)]
      rfl
  | cons t ts ih =>
    intro pre fuel hts hborder hfuel
    rw [List.flatten_cons] at hborder hfuel ⊢
    rw [List.length_append] at hfuel
    rw [List.flatMap_cons]
    have hrest := fun (fuel : ℕ) => @ih (pre ++ t) fuel (Separated.tail hts)
    rw [List.append_assoc, List.length_append] at hrest
    rcases hts.token t List.mem_cons_self with ht | ⟨x, hx, rfl⟩
    · have hhead := head_of_separated hts ht
      have hnext := fun fuel => hrest fuel (border_of_head hhead)
      obtain ⟨b, s, rfl⟩ := List.exists_cons_of_ne_nil ht.1
      have hfirst : isIdent b = true := ht.2 b List.mem_cons_self
      have hbefore := any_eq_false_of_border hborder rfl hfirst
      have hb : (pre ++ (b :: s ++ ts.flatten))[pre.length]? = some b := by
        rw [List.getElem?_append_right (Nat.le_refl _), Nat.sub_self]
        rfl
      rw [List.length_cons] at hfuel hnext
      obtain ⟨left, rfl⟩ : ∃ left, fuel = s.length + left + 1 := ⟨fuel - s.length - 1, by omega⟩
      rw [elideFrom, hb]
      dsimp only
      by_cases hsame : b :: s = name
      · have hoccurs := (occursAt_word hname ht hbefore hhead).mpr hsame
        have hmark : mark name (b :: s) = [elidedNameSentinel] := if_pos hsame
        have hlength : name.length = s.length + 1 := by rw [← hsame, List.length_cons]
        rw [if_pos hoccurs, hmark, hlength, hnext _ (by omega)]
        rfl
      · have hoccurs := mt (occursAt_word hname ht hbefore hhead).mp hsame
        have hmark : mark name (b :: s) = b :: s := if_neg hsame
        have hinside : elideFrom (pre ++ (b :: s ++ ts.flatten)) name (s.length + left)
            (pre.length + 1) = s ++ elideFrom (pre ++ (b :: s ++ ts.flatten)) name left
              (pre.length + (s.length + 1)) := by
          have h : elideFrom (pre ++ [b] ++ (s ++ ts.flatten)) name (s.length + left)
              (pre ++ [b]).length = s ++ elideFrom (pre ++ [b] ++ s ++ ts.flatten) name left
                (pre ++ [b] ++ s).length := elideFrom_inside s left
            (by rw [List.getLast?_concat, Option.any_some, hfirst])
            fun c hc => ht.2 c (List.mem_cons_of_mem b hc)
          simp only [List.append_assoc, List.cons_append, List.nil_append, List.length_append,
            List.length_cons, List.length_nil, Nat.zero_add] at h ⊢
          exact h
        rw [if_neg hoccurs, hmark, hinside, hnext _ (by omega)]
        rfl
    · have hb : (pre ++ ([x] ++ ts.flatten))[pre.length]? = some x := by
        rw [List.getElem?_append_right (Nat.le_refl _), Nat.sub_self]
        rfl
      have hoccurs : occursAt (pre ++ ([x] ++ ts.flatten)) name pre.length = false := by
        obtain ⟨y, n, rfl⟩ := List.exists_cons_of_ne_nil hname.1
        have hne : y ≠ x := by
          rintro rfl
          rw [hname.2 y List.mem_cons_self] at hx
          cases hx
        rw [occursAt_eq, List.singleton_append, List.isPrefixOf_cons_cons, beq_false_of_ne hne,
          Bool.false_and, Bool.and_false, Bool.false_and]
      have hmark : mark name [x] = [x] := if_neg fun hsame => by
        rw [hname.2 x (by rw [← hsame]; exact List.mem_singleton_self x)] at hx
        cases hx
      obtain ⟨left, rfl⟩ : ∃ left, fuel = left + 1 := ⟨fuel - 1, by simp at hfuel; omega⟩
      have hborder' : Border (pre ++ [x]) ts.flatten := by
        intro y hy z _
        rw [List.getLast?_concat, Option.mem_some_iff] at hy
        rw [← hy, hx, Bool.false_and]
      rw [elideFrom, hb]
      dsimp only
      rw [if_neg (Bool.eq_false_iff.mp hoccurs), hmark, ← List.length_singleton (a := x),
        hrest left hborder' (by rw [List.length_singleton] at hfuel; omega)]
      rfl

theorem elideIdentifier_eq (hname : IsWord isIdent name) (haystack : Bytes) :
    elideIdentifier haystack name = (tokens isIdent haystack).flatMap (mark name) := by
  have hplain : (name.isEmpty || !name.all isIdent) = false := by
    rw [List.all_eq_true.mpr hname.2, Bool.not_true, Bool.or_false, List.isEmpty_eq_false_iff]
    exact hname.1
  unfold elideIdentifier
  rw [hplain, if_neg Bool.false_ne_true]
  have hspec := @elideFrom_spec _ hname _ [] haystack.length (separated_tokens haystack) nofun
  rw [flatten_tokens, List.nil_append] at hspec
  exact hspec (Nat.le_refl _)

theorem elideIdentifier_of_not (hname : ¬ IsWord isIdent name) (haystack : Bytes) :
    elideIdentifier haystack name = haystack := by
  unfold elideIdentifier
  rw [if_pos]
  by_contra hplain
  refine hname ?_
  simpa [IsWord] using hplain

end

end BigCodeAnalysis.Baseline.BodyHash
