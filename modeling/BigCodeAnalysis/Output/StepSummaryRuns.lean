import BigCodeAnalysis.Output.StepSummaryText
import BigCodeAnalysis.Sequences.Utf8Code
import Mathlib

/-! Runs over one summary file: complete runs, runs cut off while they write, and what other tools
append. A phase says how much of the file is theirs and what is left of a block; every write,
whole or cut, is followed from phase to phase. A complete run puts the file right: one block,
that of the run, and what other tools wrote. It does not where a stopped run got as far as its
own heading, which the next one takes for the start of another section. -/

namespace BigCodeAnalysis.Output.StepSummary

open Baseline (isUtf8)
open Catalog (F64)
open Sequences (findSub findSub_eq_none findSub_of_prefix findSub_put
  infix_before infix_gap)

/-! ### The file -/

section Steps
variable {ρ γ : Type*} [LinearOrder ρ] (display : ρ → String)
  (formatFloat : Option ℕ → F64 → String)

inductive Step (ρ γ : Type*) where
  | run (digest : Digest ρ γ)
  /-- Another tool's section. -/
  | append (text : String)
  /-- A run that is stopped once it has written so many bytes. -/
  | cut (digest : Digest ρ γ) (written : ℕ)

def blockBytes (digest : Digest ρ γ) : List UInt8 :=
  utf8 (composeStepSummaryBlock display formatFloat digest)

/-- A run that cannot read the file leaves it as it is. -/
def step (file : Option (List UInt8)) : Step ρ γ → Option (List UInt8)
  | .run digest =>
    match writeStepSummary file (blockBytes display formatFloat digest) with
    | .ok content => some content
    | .error _ => file
  | .append text => some (file.getD [] ++ utf8 text)
  | .cut digest written =>
    match writeStepSummary file (blockBytes display formatFloat digest) with
    | .ok content => some (content.take written)
    | .error _ => file

def runs (file : Option (List UInt8)) (steps : List (Step ρ γ)) : Option (List UInt8) :=
  steps.foldl (step display formatFloat) file

end Steps

/-- What other tools wrote. -/
def foreign {ρ γ : Type*} (steps : List (Step ρ γ)) : List UInt8 :=
  steps.flatMap fun
    | .append text => utf8 text
    | _ => []

/-- The second text is the first one with newlines put in. -/
inductive Padded : List UInt8 → List UInt8 → Prop where
  | nil : Padded [] []
  | keep (b : UInt8) {bytes kept : List UInt8} : Padded bytes kept → Padded (b :: bytes) (b :: kept)
  | pad {bytes kept : List UInt8} : Padded bytes kept → Padded bytes (newline :: kept)

namespace Padded

variable {bytes bytes' kept kept' : List UInt8}

theorem refl : ∀ bytes : List UInt8, Padded bytes bytes
  | [] => nil
  | b :: bytes => keep b (refl bytes)

theorem append (h : Padded bytes kept) (h' : Padded bytes' kept') :
    Padded (bytes ++ bytes') (kept ++ kept') := by
  induction h with
  | nil => exact h'
  | keep b _ ih => exact keep b ih
  | pad _ ih => exact pad ih

/-- Nothing but newlines is put in. -/
theorem filter_eq (h : Padded bytes kept) :
    kept.filter (· ≠ newline) = bytes.filter (· ≠ newline) := by
  induction h with
  | nil => rfl
  | keep b _ ih => rw [List.filter_cons, List.filter_cons, ih]
  | pad _ ih => rw [List.filter_cons_of_neg (by decide), ih]

end Padded

/-! ### Phases -/

/-- The newline a run puts between a text and its block. -/
def padOf (text : List UInt8) : List UInt8 :=
  if text ≠ [] ∧ text.getLast? ≠ some newline then [newline] else []

inductive Phase where
  /-- No run has left anything. -/
  | fresh (text : List UInt8)
  /-- The start of a block, whole or not, between what other tools wrote. -/
  | marked (text pad stub post : List UInt8)

namespace Phase

def content : Phase → List UInt8
  | fresh text => text
  | marked text pad stub post => text ++ pad ++ (stub ++ post)

/-- What other tools wrote, and newlines. -/
def kept : Phase → List UInt8
  | fresh text => text
  | marked text _ _ post => text ++ post

def append (more : List UInt8) : Phase → Phase
  | fresh text => fresh (text ++ more)
  | marked text pad stub post => marked text pad stub (post ++ more)

/-- The phase behind a complete run. -/
def put (block : List UInt8) : Phase → Phase
  | fresh text => marked text (padOf text) block []
  | marked text pad _ post => marked text pad block post

end Phase

/-- The bare starts of a block that hold no heading yet. -/
def bareStubs : List String :=
  [stepSummaryBeginMarker, stepSummaryBeginMarker ++ "\n", stepSummaryBeginMarker ++ "\n#",
    stepSummaryBeginMarker ++ "\n##"]

/-- What is left of a block can be told from what stands behind it. -/
inductive Bounded : List UInt8 → List UInt8 → Prop where
  | line {front : String} (hfront : ¬ ShowsEnd front) (post : List UInt8) :
    Bounded (utf8 (front ++ stepSummaryEndMarker ++ "\n")) post
  | marker {front : String} (hfront : ¬ ShowsEnd front) {post : List UInt8}
    (hpost : post.head? ≠ some newline) : Bounded (utf8 (front ++ stepSummaryEndMarker)) post
  | bare {stub : String} (hstub : stub ∈ bareStubs) : Bounded (utf8 stub) []
  | heading {post : List UInt8} (hpost : utf8 "## " <+: post ∨ utf8 "<!-- " <+: post)
    (hbegin : ¬ utf8 stepSummaryBeginMarker <+: post)
    (hend : ¬ utf8 stepSummaryEndMarker <:+: post) :
    Bounded (utf8 (stepSummaryBeginMarker ++ "\n")) post

/-- The next run finds what an earlier one left, or that there is nothing to find. -/
def Phase.Ready : Phase → Prop
  | .fresh text => ¬ utf8 stepSummaryBeginMarker <:+: text
  | .marked _ _ stub post => Bounded stub post

/-- A write that stops where nothing of other tools is lost and no half marker is left. -/
inductive Cut : ℕ → Phase → Phase → Prop where
  | whole {written : ℕ} {p : Phase} (h : p.content.length ≤ written) : Cut written p p
  | stub {text pad block : List UInt8} {written : ℕ}
    (h : (text ++ pad).length + (utf8 stepSummaryBeginMarker).length ≤ written) :
    Cut written (.marked text pad block [])
      (.marked text pad (block.take (written - (text ++ pad).length)) [])
  | pad (text pad block : List UInt8) :
    Cut (text ++ pad).length (.marked text pad block []) (.fresh (text ++ pad))
  | text (text pad block : List UInt8) : Cut text.length (.marked text pad block []) (.fresh text)

section Goes
variable {ρ γ : Type*} [LinearOrder ρ] (display : ρ → String)
  (formatFloat : Option ℕ → F64 → String)

/-- A step that meets the conditions on the file before it and on its input. -/
inductive Goes : Phase → Step ρ γ → Phase → Prop where
  | append (p : Phase) (text : String) : Goes p (.append text) (p.append (utf8 text))
  | run {p : Phase} {digest : Digest ρ γ} (ready : p.Ready) (quiet : Quiet display digest) :
    Goes p (.run digest) (p.put (blockBytes display formatFloat digest))
  | cut {p q : Phase} {digest : Digest ρ γ} {written : ℕ} (ready : p.Ready)
    (hcut : Cut written (p.put (blockBytes display formatFloat digest)) q) :
    Goes p (.cut digest written) q

inductive Follows : Phase → List (Step ρ γ) → Phase → Prop where
  | nil (p : Phase) : Follows p [] p
  | cons {p q r : Phase} {s : Step ρ γ} {steps : List (Step ρ γ)}
    (hstep : Goes display formatFloat p s q) (hsteps : Follows q steps r) :
    Follows p (s :: steps) r

end Goes

/-! ### One write -/

theorem findSub_begin {pre : List UInt8} (h : ¬ utf8 stepSummaryBeginMarker <:+: pre)
    (rest : List UInt8) :
    findSub (utf8 stepSummaryBeginMarker) (pre ++ (utf8 stepSummaryBeginMarker ++ rest)) =
      some pre.length := by
  have hcons : utf8 stepSummaryBeginMarker = 60 :: (utf8 stepSummaryBeginMarker).tail := by decide
  rw [hcons] at h ⊢
  exact findSub_put (by decide) h rest

theorem findSub_end {front : String} (h : ¬ ShowsEnd front) (rest : List UInt8) :
    findSub (utf8 stepSummaryEndMarker) (utf8 front ++ (utf8 stepSummaryEndMarker ++ rest)) =
      some (utf8 front).length := by
  unfold ShowsEnd at h
  have hcons : utf8 stepSummaryEndMarker = 60 :: (utf8 stepSummaryEndMarker).tail := by decide
  rw [hcons] at h ⊢
  exact findSub_put (by decide) h rest

theorem replace_fresh {text : List UInt8} (h : ¬ utf8 stepSummaryBeginMarker <:+: text)
    (block : List UInt8) : replaceStepSummaryBlock text block = text ++ padOf text ++ block := by
  rw [replaceStepSummaryBlock, findSub_eq_none.mpr h]
  rfl

/-- Where the splice ends, counted from the begin marker. -/
def spliceStop (rest : List UInt8) : ℕ :=
  match findSub (utf8 stepSummaryEndMarker) rest with
  | some rel => rel + (utf8 stepSummaryEndMarker).length
  | none => (utf8 stepSummaryBeginMarker).length +
      orphanSpliceEnd (rest.drop (utf8 stepSummaryBeginMarker).length)

theorem replace_of_begin {pre rest : List UInt8}
    (hfind : findSub (utf8 stepSummaryBeginMarker) (pre ++ rest) = some pre.length)
    (block : List UInt8) :
    replaceStepSummaryBlock (pre ++ rest) block = pre ++ (block ++ rest.drop
      (if rest[spliceStop rest]? = some newline then spliceStop rest + 1 else spliceStop rest)) := by
  have hdrop : ∀ n, (pre ++ rest).drop (pre.length + n) = rest.drop n := by
    intro n
    rw [List.drop_append, List.drop_eq_nil_of_le (by omega), List.nil_append]
    congr 1
    omega
  have hget : ∀ n, (pre ++ rest)[pre.length + n]? = rest[n]? := by
    intro n
    rw [List.getElem?_append_right (by omega)]
    congr 1
    omega
  have hstop : endAbs (pre ++ rest) pre.length = pre.length + spliceStop rest := by
    rw [endAbs, List.drop_left, spliceStop]
    cases findSub (utf8 stepSummaryEndMarker) rest with
    | some rel => exact Nat.add_assoc _ _ _
    | none =>
      dsimp only
      rw [hdrop, Nat.add_assoc]
  rw [replaceStepSummaryBlock, hfind]
  dsimp only
  rw [hstop, hget, List.take_left, List.append_assoc]
  split_ifs
  · rw [Nat.add_assoc, hdrop]
  · rw [hdrop]

/-- What is left of a block is taken out, and nothing else. -/
theorem drop_spliceStop {stub post : List UInt8} (h : Bounded stub post) :
    (stub ++ post).drop (if (stub ++ post)[spliceStop (stub ++ post)]? = some newline
      then spliceStop (stub ++ post) + 1 else spliceStop (stub ++ post)) = post := by
  cases h with
  | @line front hfront =>
    have hstub : utf8 (front ++ stepSummaryEndMarker ++ "\n") ++ post =
        utf8 front ++ (utf8 stepSummaryEndMarker ++ (newline :: post)) := by
      rw [utf8_append, utf8_append, List.append_assoc, List.append_assoc]
      rfl
    have hstop : spliceStop (utf8 front ++ (utf8 stepSummaryEndMarker ++ (newline :: post))) =
        (utf8 front ++ utf8 stepSummaryEndMarker).length := by
      rw [spliceStop, findSub_end hfront, List.length_append]
    rw [hstub, hstop, ← List.append_assoc, List.getElem?_append_right (Nat.le_refl _),
      Nat.sub_self, List.getElem?_cons_zero, if_pos rfl, List.drop_append,
      List.drop_eq_nil_of_le (by omega)]
    simp
  | @marker front hfront _ hpost =>
    have hstub : utf8 (front ++ stepSummaryEndMarker) ++ post =
        utf8 front ++ (utf8 stepSummaryEndMarker ++ post) := by
      rw [utf8_append, List.append_assoc]
    have hstop : spliceStop (utf8 front ++ (utf8 stepSummaryEndMarker ++ post)) =
        (utf8 front ++ utf8 stepSummaryEndMarker).length := by
      rw [spliceStop, findSub_end hfront, List.length_append]
    rw [hstub, hstop, ← List.append_assoc, List.getElem?_append_right (Nat.le_refl _),
      Nat.sub_self, ← List.head?_eq_getElem?, if_neg hpost, List.drop_left]
  | @bare stub hstub =>
    have hall : ∀ text ∈ bareStubs, spliceStop (utf8 text) = (utf8 text).length := by
      decide +kernel
    rw [List.append_nil, hall stub hstub, List.getElem?_eq_none (Nat.le_refl _), if_neg (by simp),
      List.drop_length]
  | heading hpost hbegin hend =>
    have hstub : utf8 (stepSummaryBeginMarker ++ "\n") ++ post =
        utf8 stepSummaryBeginMarker ++ (newline :: post) := by
      rw [utf8_append, List.append_assoc]
      rfl
    have hlone : ¬ utf8 stepSummaryEndMarker <:+:
        utf8 stepSummaryBeginMarker ++ (newline :: post) := by
      have hgap := infix_gap (show Between "\n" by decide).gap (by decide)
        (utf8 stepSummaryBeginMarker) post
      intro hin
      rcases hgap.mp hin with h | h
      · exact absurd h (by decide)
      · exact hend h
    have hsplice : orphanSpliceEnd (newline :: post) = 1 := by
      have hzero : findSub [newline] (newline :: post) = some 0 :=
        findSub_of_prefix (List.prefix_append [newline] post)
      rw [orphanSpliceEnd]
      split
      next hnone =>
        rw [hzero] at hnone
        cases hnone
      next rel hrel =>
        obtain rfl := Option.some.inj (hzero.symm.trans hrel)
        dsimp only
        rw [List.drop_succ_cons, List.drop_zero, if_neg hbegin, if_pos hpost]
    have hstop : spliceStop (utf8 stepSummaryBeginMarker ++ (newline :: post)) =
        (utf8 stepSummaryBeginMarker ++ [newline]).length := by
      rw [spliceStop, findSub_eq_none.mpr hlone]
      dsimp only
      rw [List.drop_left, hsplice, List.length_append, List.length_singleton]
    have hhead : post.head? ≠ some newline := by
      rcases hpost with h | h
      all_goals
        obtain ⟨rest, rfl⟩ := h
        rw [List.head?_append_of_ne_nil _ (by decide)]
        decide
    rw [hstub, hstop, List.append_cons, List.getElem?_append_right (Nat.le_refl _),
      Nat.sub_self, ← List.head?_eq_getElem?, if_neg hhead, List.drop_left]

/-! ### Phases and files -/

def IsText (bytes : List UInt8) : Prop := ∃ text : String, utf8 text = bytes

theorem IsText.append {a b : List UInt8} (ha : IsText a) (hb : IsText b) : IsText (a ++ b) := by
  obtain ⟨x, rfl⟩ := ha
  obtain ⟨y, rfl⟩ := hb
  exact ⟨x ++ y, utf8_append x y⟩

theorem isText_nil : IsText [] := ⟨"", by decide⟩

theorem isUtf8_of_isText {bytes : List UInt8} (h : IsText bytes) : isUtf8 bytes = true := by
  obtain ⟨text, rfl⟩ := h
  exact (Sequences.validateUTF8_iff _).mpr ⟨text.toList, rfl⟩

theorem Bounded.isText {stub post : List UInt8} (h : Bounded stub post) : IsText stub := by
  cases h with
  | line => exact ⟨_, rfl⟩
  | marker => exact ⟨_, rfl⟩
  | bare => exact ⟨_, rfl⟩
  | heading => exact ⟨_, rfl⟩

namespace Phase

/-- What a run reads as text is text, and the marker is at the start of the block. -/
def WellFormed : Phase → Prop
  | fresh text => IsText text
  | marked text pad stub post => IsText text ∧ IsText pad ∧ (pad = [] ∨ pad = [newline]) ∧
      ¬ utf8 stepSummaryBeginMarker <:+: text ++ pad ∧ utf8 stepSummaryBeginMarker <+: stub ∧
      IsText post

end Phase

theorem padOf_cases (text : List UInt8) : padOf text = [] ∨ padOf text = [newline] := by
  unfold padOf
  split_ifs
  · exact .inr rfl
  · exact .inl rfl

theorem isText_pad {pad : List UInt8} (h : pad = [] ∨ pad = [newline]) : IsText pad := by
  rcases h with rfl | rfl
  · exact isText_nil
  · exact ⟨"\n", by decide⟩

theorem not_begin_append_pad {text pad : List UInt8} (hpad : pad = [] ∨ pad = [newline])
    (h : ¬ utf8 stepSummaryBeginMarker <:+: text) :
    ¬ utf8 stepSummaryBeginMarker <:+: text ++ pad := by
  rcases hpad with rfl | rfl
  · rwa [List.append_nil]
  · rw [infix_before (by decide +kernel) (by decide +kernel)]
    exact h

/-- A complete write takes the file from its phase to the next. -/
theorem replace_content {p : Phase} (hwell : p.WellFormed) (hready : p.Ready)
    (block : List UInt8) : replaceStepSummaryBlock p.content block = (p.put block).content := by
  cases p with
  | fresh text =>
    rw [Phase.content, replace_fresh hready, Phase.put, Phase.content, List.append_nil]
  | marked text pad stub post =>
    obtain ⟨-, -, -, hpre, ⟨more, rfl⟩, -⟩ := hwell
    have hfind := findSub_begin hpre (more ++ post)
    rw [← List.append_assoc (utf8 stepSummaryBeginMarker)] at hfind
    rw [Phase.content, replace_of_begin hfind, drop_spliceStop hready, Phase.put, Phase.content]

theorem wellFormed_append {p : Phase} (hwell : p.WellFormed) (text : String) :
    (p.append (utf8 text)).WellFormed := by
  cases p with
  | fresh text' => exact IsText.append hwell ⟨text, rfl⟩
  | marked text' pad stub post =>
    obtain ⟨htext, hisPad, hpad, hpre, hstub, hpost⟩ := hwell
    exact ⟨htext, hisPad, hpad, hpre, hstub, hpost.append ⟨text, rfl⟩⟩

theorem wellFormed_put {p : Phase} (hwell : p.WellFormed) (hready : p.Ready)
    {block : List UInt8} (hblock : utf8 stepSummaryBeginMarker <+: block) :
    (p.put block).WellFormed := by
  cases p with
  | fresh text =>
    have hpad := padOf_cases text
    exact ⟨hwell, isText_pad hpad, hpad, not_begin_append_pad hpad hready, hblock, isText_nil⟩
  | marked text pad stub post =>
    obtain ⟨htext, hisPad, hpad, hpre, -, hpost⟩ := hwell
    exact ⟨htext, hisPad, hpad, hpre, hblock, hpost⟩

/-! ### A cut -/

namespace Cut

variable {written : ℕ} {p q : Phase}

theorem content (h : Cut written p q) : q.content = p.content.take written := by
  cases h with
  | whole h => rw [List.take_of_length_le h]
  | @stub text pad block _ h =>
    have hlong : (text ++ pad).take written = text ++ pad := List.take_of_length_le (by omega)
    rw [Phase.content, Phase.content, List.append_nil, List.append_nil, List.take_append, hlong]
  | pad text pad block => rw [Phase.content, Phase.content, List.take_left]
  | text text pad block =>
    rw [Phase.content, Phase.content, List.append_assoc, List.take_left]

theorem wellFormed (h : Cut written p q) (hwell : p.WellFormed) : q.WellFormed := by
  cases h with
  | whole => exact hwell
  | stub h =>
    obtain ⟨htext, hisPad, hpad, hpre, hstub, hpost⟩ := hwell
    exact ⟨htext, hisPad, hpad, hpre, List.prefix_take_iff.mpr ⟨hstub, by omega⟩, hpost⟩
  | pad => exact hwell.1.append hwell.2.1
  | text => exact hwell.1

theorem kept (h : Cut written p q) (hwell : p.WellFormed) {bytes : List UInt8}
    (hkept : Padded bytes p.kept) : Padded bytes q.kept := by
  cases h with
  | whole => exact hkept
  | stub => exact hkept
  | pad text pad block =>
    rw [Phase.kept, List.append_nil] at hkept
    have hpad : Padded [] pad := by
      rcases hwell.2.2.1 with h | h
      · rw [h]
        exact Padded.nil
      · rw [h]
        exact Padded.nil.pad
    have happend := hkept.append hpad
    rwa [List.append_nil] at happend
  | text => rwa [Phase.kept, List.append_nil] at hkept

end Cut

theorem isText_content {p : Phase} (hwell : p.WellFormed) (hready : p.Ready) :
    IsText p.content := by
  cases p with
  | fresh text => exact hwell
  | marked text pad stub post =>
    obtain ⟨htext, hpad, -, -, -, hpost⟩ := hwell
    exact (htext.append hpad).append ((Bounded.isText hready).append hpost)

/-! ### Runs -/

section Runs
variable {ρ γ : Type*} [LinearOrder ρ] {display : ρ → String}
  {formatFloat : Option ℕ → F64 → String}

theorem begin_prefix_blockBytes (digest : Digest ρ γ) :
    utf8 stepSummaryBeginMarker <+: blockBytes display formatFloat digest := by
  have hfront : composeStepSummaryBlock display formatFloat digest =
      stepSummaryBeginMarker ++ ("\n" ++ "## `bca check`: threshold violations\n\n" ++
        digestBody display formatFloat digest.pairs ++
        digest.remediation.elim "" remediationFence ++ stepSummaryEndMarker ++ "\n") := by
    simp only [composeStepSummaryBlock, String.append_assoc]
  rw [blockBytes, hfront, utf8_append]
  exact List.prefix_append _ _

/-- A whole quiet block is found again whatever stands behind it. -/
theorem bounded_blockBytes (hfloat : ∀ digits v, Plain (formatFloat digits v))
    {digest : Digest ρ γ} (quiet : Quiet display digest) (post : List UInt8) :
    Bounded (blockBytes display formatFloat digest) post :=
  Bounded.line ((quiet_iff hfloat digest).mp quiet) post

theorem write_content {file : Option (List UInt8)} {p : Phase} (hwell : p.WellFormed)
    (hready : p.Ready) (hfile : file.getD [] = p.content) (block : List UInt8) :
    writeStepSummary file block = .ok (p.put block).content := by
  have hvalid := isUtf8_of_isText (isText_content hwell hready)
  have hput := replace_content hwell hready block
  rw [← hfile] at hvalid hput
  cases file with
  | none => rw [← hput]; rfl
  | some existing =>
    have hvalid' : isUtf8 existing = true := hvalid
    rw [writeStepSummary, if_pos hvalid', ← hput]
    rfl

theorem kept_put (p : Phase) (block : List UInt8) : (p.put block).kept = p.kept := by
  cases p with
  | fresh text => exact List.append_nil text
  | marked => rfl

theorem kept_append (p : Phase) (more : List UInt8) : (p.append more).kept = p.kept ++ more := by
  cases p with
  | fresh => rfl
  | marked => exact (List.append_assoc _ _ _).symm

theorem content_append (p : Phase) (more : List UInt8) :
    (p.append more).content = p.content ++ more := by
  cases p with
  | fresh => rfl
  | marked => simp only [Phase.append, Phase.content, List.append_assoc]

/-- What holds of a file, the phase it is in and what other tools wrote so far. -/
structure Traced (bytes : List UInt8) (file : Option (List UInt8)) (p : Phase) : Prop where
  wellFormed : p.WellFormed
  content : file.getD [] = p.content
  kept : Padded bytes p.kept

theorem traced_step {bytes : List UInt8} {file : Option (List UInt8)} {p q : Phase}
    {s : Step ρ γ} (h : Traced bytes file p) (hgoes : Goes display formatFloat p s q) :
    Traced (bytes ++ foreign [s]) (step display formatFloat file s) q := by
  cases hgoes with
  | append text =>
    refine ⟨wellFormed_append h.wellFormed text, ?_, ?_⟩
    · rw [step, content_append, h.content]
      rfl
    · have hforeign : foreign [(Step.append text : Step ρ γ)] = utf8 text := List.append_nil _
      rw [kept_append, hforeign]
      exact h.kept.append (Padded.refl _)
  | @run digest ready quiet =>
    refine ⟨wellFormed_put h.wellFormed ready (begin_prefix_blockBytes digest), ?_, ?_⟩
    · rw [step, write_content h.wellFormed ready h.content]
      rfl
    · have hforeign : foreign [Step.run digest] = [] := rfl
      rw [kept_put, hforeign, List.append_nil]
      exact h.kept
  | @cut _ digest written ready hcut =>
    have hput := wellFormed_put h.wellFormed ready
      (@begin_prefix_blockBytes _ _ _ display formatFloat digest)
    refine ⟨hcut.wellFormed hput, ?_, ?_⟩
    · rw [step, write_content h.wellFormed ready h.content, hcut.content]
      rfl
    · have hforeign : foreign [Step.cut digest written] = [] := rfl
      rw [hforeign, List.append_nil]
      apply hcut.kept hput
      rw [kept_put]
      exact h.kept

theorem traced_runs {bytes : List UInt8} {file : Option (List UInt8)} {p q : Phase}
    {steps : List (Step ρ γ)} (h : Traced bytes file p)
    (hfollows : Follows display formatFloat p steps q) :
    Traced (bytes ++ foreign steps) (runs display formatFloat file steps) q := by
  induction hfollows generalizing bytes file with
  | nil p =>
    rw [foreign, List.flatMap_nil, List.append_nil]
    exact h
  | @cons _ _ _ s steps hstep _ ih =>
    have htail := ih (traced_step h hstep)
    have hforeign : foreign (s :: steps) = foreign [s] ++ foreign steps := by
      simp only [foreign, List.flatMap_cons, List.flatMap_nil, List.append_nil]
    rw [hforeign, ← List.append_assoc]
    exact htail

end Runs

/-! ### A complete run settles the file -/

section Settles
variable {ρ γ : Type*} [LinearOrder ρ] {display : ρ → String}
  {formatFloat : Option ℕ → F64 → String}

theorem put_eq_marked (p : Phase) (block : List UInt8) :
    ∃ text pad post, p.put block = .marked text pad block post ∧ p.kept = text ++ post := by
  cases p with
  | fresh text => exact ⟨text, padOf text, [], rfl, (List.append_nil text).symm⟩
  | marked text pad stub post => exact ⟨text, pad, post, rfl, rfl⟩

theorem runs_concat (file : Option (List UInt8)) (steps : List (Step ρ γ)) (s : Step ρ γ) :
    runs display formatFloat file (steps ++ [s]) =
      step display formatFloat (runs display formatFloat file steps) s := by
  rw [runs, runs, List.foldl_append]
  rfl

theorem traced_start : Traced [] none (.fresh []) where
  wellFormed := isText_nil
  content := rfl
  kept := Padded.nil

/-- Newlines between a text and a block are not counted. -/
theorem Padded.insert {text post pad bytes : List UInt8} (h : Padded bytes (text ++ post))
    (hpad : pad = [] ∨ pad = [newline]) : Padded bytes (text ++ pad ++ post) := by
  rcases hpad with rfl | rfl
  · rwa [List.append_nil]
  · rw [List.append_assoc, List.singleton_append]
    induction text generalizing bytes with
    | nil => exact h.pad
    | cons b text ih =>
      rw [List.cons_append] at h ⊢
      cases h with
      | keep _ h => exact (ih h).keep b
      | pad h => exact (ih h).pad

/-- A complete run leaves the file with what other tools wrote and with the digest of the run in
it once, and the same run again changes nothing. -/
def Settled (display : ρ → String) (formatFloat : Option ℕ → F64 → String)
    (steps : List (Step ρ γ)) (digest : Digest ρ γ) : Prop :=
  ∃ pre post,
    runs display formatFloat none (steps ++ [.run digest]) =
        some (pre ++ (blockBytes display formatFloat digest ++ post)) ∧
      ¬ utf8 stepSummaryBeginMarker <:+: pre ∧
      Padded (foreign steps) (pre ++ post) ∧
      runs display formatFloat none (steps ++ [.run digest] ++ [.run digest]) =
        runs display formatFloat none (steps ++ [.run digest])

theorem complete_run_settles (hfloat : ∀ digits v, Plain (formatFloat digits v))
    {steps : List (Step ρ γ)} {p q : Phase} {digest : Digest ρ γ}
    (hsteps : Follows display formatFloat (.fresh []) steps p)
    (hrun : Goes display formatFloat p (.run digest) q) :
    Settled display formatFloat steps digest := by
  have htraced := traced_runs traced_start hsteps
  have hafter := traced_step htraced hrun
  rw [List.nil_append] at htraced
  cases hrun with
  | run ready quiet =>
    set block := blockBytes display formatFloat digest with hblock
    obtain ⟨text, pad, post, hput, hkept⟩ := put_eq_marked p block
    have hfile : runs display formatFloat none (steps ++ [.run digest]) =
        some (p.put block).content := by
      rw [runs_concat, step, ← hblock, write_content htraced.wellFormed ready htraced.content]
    have hagain : runs display formatFloat none (steps ++ [.run digest] ++ [.run digest]) =
        some (p.put block).content := by
      have hready : (p.put block).Ready := by
        rw [hput]
        exact bounded_blockBytes hfloat quiet post
      have hcontent : (some (p.put block).content).getD [] = (p.put block).content := rfl
      rw [runs_concat, hfile, step, ← hblock,
        write_content hafter.wellFormed hready hcontent, hput]
      rfl
    have hwell := hafter.wellFormed
    rw [hput] at hwell hfile
    obtain ⟨-, -, hpad, hpre, -, -⟩ := hwell
    refine ⟨text ++ pad, post, hfile, hpre, ?_, ?_⟩
    · apply Padded.insert _ hpad
      rw [← hkept]
      exact htraced.kept
    · rw [hagain, hput, hfile]

end Settles

/-! ### A stopped run -/

section Stopped
open Thresholds.Violation (twiceOver gatedAtTen)

/-- A run that found nothing. -/
def clean : Digest String Unit := ⟨[], none⟩

/-- A run that found two violations in two files and tells what to do. -/
def found : Digest String Unit where
  pairs :=
    [(twiceOver (gatedAtTen ⟨"nexits", "nexits", .higherIsWorse, .function, .ratio⟩
        (by decide)) "parse" 1, ()),
      ({ twiceOver (gatedAtTen ⟨"nargs", "nargs", .higherIsWorse, .function, .ratio⟩
        (by decide)) "operator<" 30 with path := "src/a|b.rs" }, ())]
  remediation := some "Split the functions.\n"

theorem quiet_found : Quiet id found where
  paths := by
    intro pair hpair
    rcases List.mem_cons.mp hpair with rfl | hpair
    · decide
    · obtain rfl := List.mem_singleton.mp hpair
      decide
  symbols := by decide +kernel
  remediation := by
    rintro _ ⟨⟩
    decide

def plainFloat : Option ℕ → F64 → String := fun _ _ => "0"

/-- A clean run stopped behind the begin marker, then another tool writes its section, and then a
run reports what it found. -/
theorem complete_run_settles_stopped :
    Settled id plainFloat [.append "## CI\n", .cut clean 38, .append "## Tests\n"] found := by
  have hstub : (blockBytes id plainFloat clean).take (38 - (utf8 "## CI\n" ++ []).length) =
      utf8 (stepSummaryBeginMarker ++ "\n") := by decide +kernel
  have hpad : padOf (utf8 "## CI\n") = [] := by decide +kernel
  have hready : (Phase.fresh (utf8 "## CI\n")).Ready := by
    show ¬ _ <:+: _
    decide +kernel
  have hcut : Cut 38 (Phase.put (blockBytes id plainFloat clean) (.fresh (utf8 "## CI\n")))
      (.marked (utf8 "## CI\n") [] (utf8 (stepSummaryBeginMarker ++ "\n")) []) := by
    show Cut 38 (.marked _ (padOf _) _ []) _
    rw [hpad, ← hstub]
    exact Cut.stub (by decide +kernel)
  have hfirst : Goes id plainFloat (.fresh []) (.append "## CI\n" : Step String Unit)
      (.fresh (utf8 "## CI\n")) := .append _ _
  have hsecond : Goes id plainFloat (.fresh (utf8 "## CI\n")) (.cut clean 38)
      (.marked (utf8 "## CI\n") [] (utf8 (stepSummaryBeginMarker ++ "\n")) []) :=
    .cut hready hcut
  have hthird : Goes id plainFloat
      (.marked (utf8 "## CI\n") [] (utf8 (stepSummaryBeginMarker ++ "\n")) [])
      (.append "## Tests\n" : Step String Unit)
      (.marked (utf8 "## CI\n") [] (utf8 (stepSummaryBeginMarker ++ "\n")) (utf8 "## Tests\n")) :=
    .append _ _
  have hheading : (Phase.marked (utf8 "## CI\n") [] (utf8 (stepSummaryBeginMarker ++ "\n"))
      (utf8 "## Tests\n")).Ready :=
    Bounded.heading (by decide +kernel) (by decide +kernel) (by decide +kernel)
  exact complete_run_settles (fun _ _ => (by decide : Plain "0"))
    (.cons hfirst (.cons hsecond (.cons hthird (.nil _)))) (.run hheading quiet_found)

/-- Stopped just before the end marker: the heading and what follows it stay. -/
theorem stopped_digest_stays : ¬ Settled id plainFloat [.cut clean 99] clean := by
  rintro ⟨pre, post, hfile, -, hpadded, -⟩
  have hforeign : (pre ++ post).filter (· ≠ newline) = [] := hpadded.filter_eq
  rw [List.filter_append, List.append_eq_nil_iff] at hforeign
  have hcount := congrArg (fun file => ((file.getD []).filter (· ≠ newline)).length) hfile
  dsimp only [Option.getD_some] at hcount
  rw [List.filter_append, List.filter_append, hforeign.1, hforeign.2, List.append_nil,
    List.nil_append] at hcount
  revert hcount
  decide +kernel

end Stopped

end BigCodeAnalysis.Output.StepSummary
