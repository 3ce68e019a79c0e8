import BigCodeAnalysis.Output.DumpDrawing
import BigCodeAnalysis.Sequences.Slice
import Mathlib.Data.List.Count

/-! Which bytes each match of a search prints. One pass over a stack of the spans still open finds
what nests in what; the elision steps over nested matches. Neither fails on spans in any order. -/

namespace BigCodeAnalysis.Output.FoundLayout

open Dump Sequences Trees

/-- The bytes from `start` up to `stop`. -/
structure Span where
  start : ℕ
  stop : ℕ
  deriving DecidableEq, Repr, Inhabited

namespace Span

def Holds (span : Span) (byte : ℕ) : Prop := span.start ≤ byte ∧ byte < span.stop

instance (span : Span) (byte : ℕ) : Decidable (span.Holds byte) :=
  inferInstanceAs (Decidable (_ ∧ _))

def isEmpty (span : Span) : Bool := !decide (span.start < span.stop)

theorem lt_of_not_isEmpty {span : Span} (h : ¬ span.isEmpty = true) : span.start < span.stop := by
  simpa [isEmpty] using h

end Span

structure Nesting where
  nextOutside : List ℕ
  levels : List ℕ
  deriving DecidableEq, Repr

/-! ### The pass -/

/-- The spans still open, the one opened last at the head. -/
structure Sweep where
  nextOutside : List ℕ
  levels : List ℕ
  opened : List ℕ
  openCounted : ℕ

def checkedSub (a b : ℕ) : Option ℕ := if b ≤ a then some (a - b) else none

/-- Closes what ends at `start` or before, from the top of the stack. -/
def popClosed (spans : List Span) (counted : List Bool) (at' start : ℕ) :
    List ℕ → List ℕ → ℕ → Option (List ℕ × List ℕ × ℕ)
  | [], nextOutside, openCounted => some (nextOutside, [], openCounted)
  | top :: opened, nextOutside, openCounted => do
    let span ← spans[top]?
    if span.stop ≤ start then
      let holds ← counted[top]?
      let openCounted ← checkedSub openCounted holds.toNat
      popClosed spans counted at' start opened (nextOutside.set top at') openCounted
    else some (nextOutside, top :: opened, openCounted)

def sweepStep (spans : List Span) (counted : List Bool) (s : Sweep) (at' : ℕ) (span : Span) :
    Option Sweep := do
  let (nextOutside, opened, openCounted) ←
    popClosed spans counted at' span.start s.opened s.nextOutside s.openCounted
  let holds ← counted[at']?
  let openCounted := openCounted + holds.toNat
  some ⟨nextOutside, s.levels ++ [openCounted], at' :: opened, openCounted⟩

def sweep (spans : List Span) (counted : List Bool) : List Span → ℕ → Sweep → Option Sweep
  | [], _, s => some s
  | span :: rest, at', s => do
    let s ← sweepStep spans counted s at' span
    sweep spans counted rest (at' + 1) s

/-- `none` is a panic. -/
def nesting (spans : List Span) (counted : List Bool) : Option Nesting := do
  let s ← sweep spans counted spans 0 ⟨List.replicate spans.length spans.length, [], [], 0⟩
  some ⟨s.nextOutside, s.levels⟩

/-! ### The elision -/

/-- From `cursor` on, with `next` the next match to step over. Running out of fuel is a step
without progress. -/
def ownTextFrom (spans : List Span) (nextOutside : List ℕ) (outer : Span) :
    ℕ → ℕ → ℕ → Option (List Span)
  | 0, _, _ => none
  | fuel + 1, cursor, next =>
    match spans[next]?.filter fun inner =>
        decide (cursor ≤ inner.start ∧ inner.start < outer.stop ∧ inner.stop ≤ outer.stop) with
    | none => some [⟨cursor, outer.stop⟩]
    | some inner => do
      let next ← nextOutside[next]?
      if inner.isEmpty then ownTextFrom spans nextOutside outer fuel cursor next
      else
        let pieces ← ownTextFrom spans nextOutside outer fuel inner.stop next
        some (⟨cursor, inner.start⟩ :: pieces)

def ownText (spans : List Span) (nextOutside : List ℕ) (at' : ℕ) : Option (List Span) := do
  let outer ← spans[at']?
  ownTextFrom spans nextOutside outer (spans.length + 1) outer.start (at' + 1)

/-- The whole span up to `fullLevels`, what no nested match covers past it. -/
def pieces (spans : List Span) (nest : Nesting) (fullLevels at' : ℕ) : Option (List Span) := do
  let level ← nest.levels[at']?
  if level ≤ fullLevels then
    let span ← spans[at']?
    some [span]
  else ownText spans nest.nextOutside at'

/-! ### The rendering -/

/-- A match with the bytes it covers. -/
structure Found where
  node : Node
  span : Span
  isRoot : Bool

namespace Found

def connector (f : Found) : Connector := if f.isRoot then .flush else .last

/-- The pieces of its line, cut from the source. -/
def renderLine (code : List UInt8) (f : Found) (ps : List Span) : Option (List Write) := do
  let snippet ← ps.mapM fun p => slice code p.start p.stop
  some (writeNodeLine f.node [] f.connector.glyphs.2 snippet)

end Found

def spansOf (found : List Found) : List Span := found.map Found.span

def countedOf (found : List Found) : List Bool := found.map fun f => printsSnippet f.node

def layout (found : List Found) : Option Nesting := nesting (spansOf found) (countedOf found)

def renderFrom (code : List UInt8) (lines : LineFilter) (spans : List Span) (nest : Nesting)
    (fullLevels : ℕ) : ℕ → List Found → Option (List Write)
  | _, [] => some []
  | at', f :: rest => do
    let line ←
      if lines.lineInRange (f.node.startRow + 1) then do
        let ps ← pieces spans nest fullLevels at'
        f.renderLine code ps
      else some []
    let rest ← renderFrom code lines spans nest fullLevels (at' + 1) rest
    some (line ++ .color .white :: rest)

/-- `none` is a panic. -/
def renderFound (code : List UInt8) (lines : LineFilter) (fullLevels : ℕ) (found : List Found) :
    Option (List Write) := do
  let nest ← layout found
  renderFrom code lines (spansOf found) nest fullLevels 0 found

/-! ### One step of the pass -/

section

variable (spans : List Span) (counted : List Bool)

def startAt (j : ℕ) : ℕ := (spans.getD j default).start

def stopAt (j : ℕ) : ℕ := (spans.getD j default).stop

def countedAt (j : ℕ) : Bool := counted.getD j false

/-- How many of some spans are counted. -/
def countOf (js : List ℕ) : ℕ := js.countP (countedAt counted)

def setAll (nextOutside : List ℕ) (at' : ℕ) (js : List ℕ) : List ℕ :=
  js.foldl (fun next j => next.set j at') nextOutside

end

variable {spans : List Span} {counted : List Bool}

theorem getElem?_eq_getD {α : Type*} {l : List α} {j : ℕ} (d : α) (h : j < l.length) :
    l[j]? = some (l.getD j d) := by
  rw [List.getD_eq_getElem?_getD, List.getElem?_eq_getElem h, Option.getD_some]

theorem checkedSub_of_le {a b : ℕ} (h : b ≤ a) : checkedSub a b = some (a - b) := if_pos h

theorem countOf_cons (j : ℕ) (js : List ℕ) :
    countOf counted (j :: js) = countOf counted js + (countedAt counted j).toNat := by
  rw [countOf, countOf, List.countP_cons]
  cases countedAt counted j <;> rfl

theorem length_setAll (nextOutside : List ℕ) (at' : ℕ) (js : List ℕ) :
    (setAll nextOutside at' js).length = nextOutside.length := by
  induction js generalizing nextOutside with
  | nil => rfl
  | cons j js ih => exact (ih _).trans List.length_set

theorem setAll_of_notMem {j : ℕ} (nextOutside : List ℕ) (at' : ℕ) {js : List ℕ} (h : j ∉ js) :
    (setAll nextOutside at' js)[j]? = nextOutside[j]? := by
  induction js generalizing nextOutside with
  | nil => rfl
  | cons k js ih =>
    obtain ⟨hne, hmem⟩ := not_or.mp (List.mem_cons.not.mp h)
    exact (ih _ hmem).trans (List.getElem?_set_ne (Ne.symm hne))

theorem setAll_of_mem {j : ℕ} (nextOutside : List ℕ) (at' : ℕ) {js : List ℕ} (h : j ∈ js)
    (hj : j < nextOutside.length) : (setAll nextOutside at' js)[j]? = some at' := by
  induction js generalizing nextOutside with
  | nil => exact absurd h List.not_mem_nil
  | cons k js ih =>
    by_cases hmem : j ∈ js
    · exact ih _ hmem (by rwa [List.length_set])
    · have hk : j = k := by simpa [hmem] using h
      subst hk
      exact (setAll_of_notMem _ at' hmem).trans (List.getElem?_set_self hj)

def closedBy (spans : List Span) (start j : ℕ) : Bool := stopAt spans j ≤ start

/-- The stack gives up its closed top and keeps the rest. -/
theorem popClosed_eq {at' start : ℕ} (hcounted : counted.length = spans.length) (opened : List ℕ)
    (nextOutside : List ℕ) (hlt : ∀ j ∈ opened, j < spans.length) :
    popClosed spans counted at' start opened nextOutside (countOf counted opened) =
      some (setAll nextOutside at' (opened.takeWhile (closedBy spans start)),
        opened.dropWhile (closedBy spans start),
        countOf counted (opened.dropWhile (closedBy spans start))) := by
  induction opened generalizing nextOutside with
  | nil => rfl
  | cons top opened ih =>
    have htop : top < spans.length := hlt top List.mem_cons_self
    rw [popClosed, getElem?_eq_getD default htop, Option.bind_eq_bind, Option.bind_some]
    by_cases hclosed : (spans.getD top default).stop ≤ start
    · have hby : closedBy spans start top = true := decide_eq_true hclosed
      rw [if_pos hclosed, getElem?_eq_getD false (hcounted ▸ htop), Option.bind_eq_bind,
        Option.bind_some, countOf_cons, countedAt, checkedSub_of_le (Nat.le_add_left _ _),
        Option.bind_eq_bind, Option.bind_some, Nat.add_sub_cancel,
        ih _ fun j hj => hlt j (List.mem_cons_of_mem _ hj), List.takeWhile_cons_of_pos hby,
        List.dropWhile_cons_of_pos hby]
      rfl
    · have hby : ¬ closedBy spans start top = true := fun h => hclosed (of_decide_eq_true h)
      rw [if_neg hclosed, List.takeWhile_cons_of_neg hby, List.dropWhile_cons_of_neg hby]
      rfl

/-! ### Spans in any order -/

/-- What the pass keeps, whatever the order of the spans. -/
structure Sound (spans : List Span) (counted : List Bool) (at' : ℕ) (s : Sweep) : Prop where
  length_nextOutside : s.nextOutside.length = spans.length
  length_levels : s.levels.length = at'
  opened_lt : ∀ j ∈ s.opened, j < at'
  openCounted_eq : s.openCounted = countOf counted s.opened
  next_gt : ∀ j next, s.nextOutside[j]? = some next → j < next ∧ next ≤ spans.length

/-- The state after a step. -/
def stepped (spans : List Span) (counted : List Bool) (s : Sweep) (at' start : ℕ) : Sweep :=
  let kept := s.opened.dropWhile (closedBy spans start)
  let openCounted := countOf counted (at' :: kept)
  ⟨setAll s.nextOutside at' (s.opened.takeWhile (closedBy spans start)),
    s.levels ++ [openCounted], at' :: kept, openCounted⟩

theorem Sound.sweepStep_eq {at' : ℕ} {s : Sweep} (h : Sound spans counted at' s)
    (hcounted : counted.length = spans.length) (hat : at' < spans.length) (span : Span) :
    sweepStep spans counted s at' span = some (stepped spans counted s at' span.start) := by
  rw [sweepStep, h.openCounted_eq,
    popClosed_eq hcounted _ _ fun j hj => (h.opened_lt j hj).trans hat, Option.bind_eq_bind,
    Option.bind_some, getElem?_eq_getD false (hcounted ▸ hat), stepped, countOf_cons]
  rfl

theorem Sound.stepped {at' : ℕ} {s : Sweep} (h : Sound spans counted at' s)
    (hat : at' < spans.length) (start : ℕ) :
    Sound spans counted (at' + 1) (stepped spans counted s at' start) where
  length_nextOutside := (length_setAll _ _ _).trans h.length_nextOutside
  length_levels := by rw [FoundLayout.stepped, List.length_append, h.length_levels]; rfl
  opened_lt := by
    intro j hj
    rcases List.mem_cons.mp hj with rfl | hj
    · exact Nat.lt_succ_self _
    · exact (h.opened_lt j (List.dropWhile_sublist _ |>.subset hj)).trans (Nat.lt_succ_self _)
  openCounted_eq := rfl
  next_gt := by
    intro j next hnext
    by_cases hj : j ∈ s.opened.takeWhile (closedBy spans start)
    · have hlt := h.opened_lt j (List.takeWhile_sublist _ |>.subset hj)
      have hset : next = at' := by
        rw [FoundLayout.stepped, setAll_of_mem _ _ hj (by rw [h.length_nextOutside]; omega)] at hnext
        exact (Option.some.inj hnext).symm
      omega
    · rw [FoundLayout.stepped, setAll_of_notMem _ _ hj] at hnext
      exact h.next_gt j next hnext

/-- The pass keeps what each step keeps, up to the last span. -/
theorem sweep_induction {I : ℕ → Sweep → Prop} (hcounted : counted.length = spans.length)
    (hstep : ∀ at' s, at' < spans.length → Sound spans counted at' s → I at' s →
      I (at' + 1) (stepped spans counted s at' (startAt spans at')))
    (before rest : List Span) (hspans : spans = before ++ rest) {s : Sweep}
    (hs : Sound spans counted before.length s) (hinv : I before.length s) :
    ∃ s', sweep spans counted rest before.length s = some s' ∧ Sound spans counted spans.length s' ∧
      I spans.length s' := by
  induction rest generalizing before s with
  | nil =>
    rw [List.append_nil] at hspans
    subst hspans
    exact ⟨s, rfl, hs, hinv⟩
  | cons span rest ih =>
    have hat : before.length < spans.length := by simp [hspans]
    have hstart : startAt spans before.length = span.start := by
      simp [startAt, hspans]
    have hnext := hstep _ s hat hs hinv
    rw [hstart] at hnext
    obtain ⟨s', hrun, hsound, hinv'⟩ := ih (before ++ [span]) (by simp [hspans])
      (by simpa using hs.stepped hat span.start) (by simpa using hnext)
    refine ⟨s', ?_, hsound, hinv'⟩
    rw [sweep, hs.sweepStep_eq hcounted hat, Option.bind_eq_bind, Option.bind_some]
    simpa using hrun

theorem sound_start : Sound spans counted 0
    ⟨List.replicate spans.length spans.length, [], [], 0⟩ where
  length_nextOutside := List.length_replicate
  length_levels := rfl
  opened_lt := fun _ hj => absurd hj List.not_mem_nil
  openCounted_eq := rfl
  next_gt := by
    intro j next hnext
    rw [List.getElem?_replicate, Option.ite_none_right_eq_some] at hnext
    obtain ⟨hj, hnext⟩ := hnext
    cases hnext
    exact ⟨hj, le_rfl⟩

theorem nesting_induction {I : ℕ → Sweep → Prop} (hcounted : counted.length = spans.length)
    (hstart : I 0 ⟨List.replicate spans.length spans.length, [], [], 0⟩)
    (hstep : ∀ at' s, at' < spans.length → Sound spans counted at' s → I at' s →
      I (at' + 1) (stepped spans counted s at' (startAt spans at'))) :
    ∃ s, nesting spans counted = some ⟨s.nextOutside, s.levels⟩ ∧
      Sound spans counted spans.length s ∧ I spans.length s := by
  obtain ⟨s, hrun, hsound, hinv⟩ := sweep_induction hcounted hstep [] spans rfl sound_start hstart
  refine ⟨s, ?_, hsound, hinv⟩
  rw [nesting, show sweep spans counted spans 0 _ = _ from hrun]
  rfl

theorem nesting_total (hcounted : counted.length = spans.length) :
    ∃ nest, nesting spans counted = some nest ∧ nest.nextOutside.length = spans.length ∧
      nest.levels.length = spans.length ∧
      ∀ j next, nest.nextOutside[j]? = some next → j < next ∧ next ≤ spans.length := by
  obtain ⟨s, hrun, hs, -⟩ := nesting_induction (I := fun _ _ => True) hcounted trivial
    fun _ _ _ _ _ => trivial
  exact ⟨_, hrun, hs.length_nextOutside, hs.length_levels, hs.next_gt⟩

/-- Pieces from `start` to `stop` with a gap between any two. -/
inductive Gapped (stop : ℕ) : ℕ → List Span → Prop
  | last {start : ℕ} : start ≤ stop → Gapped stop start [⟨start, stop⟩]
  | gap {start upto next : ℕ} {rest : List Span} : start ≤ upto → upto < next →
      Gapped stop next rest → Gapped stop start (⟨start, upto⟩ :: rest)

/-- The match to step over lies in what is left of `outer`. -/
def fits (outer : Span) (cursor : ℕ) (inner : Span) : Bool :=
  cursor ≤ inner.start ∧ inner.start < outer.stop ∧ inner.stop ≤ outer.stop

theorem ownTextFrom_succ (nextOutside : List ℕ) (outer : Span) (fuel cursor next : ℕ) :
    ownTextFrom spans nextOutside outer (fuel + 1) cursor next =
      (spans[next]?.filter (fits outer cursor)).elim (some [⟨cursor, outer.stop⟩]) fun inner =>
        nextOutside[next]?.bind fun next =>
          if inner.isEmpty then ownTextFrom spans nextOutside outer fuel cursor next
          else (ownTextFrom spans nextOutside outer fuel inner.stop next).map
            (⟨cursor, inner.start⟩ :: ·) := by
  rw [ownTextFrom]
  show (match spans[next]?.filter (fits outer cursor) with
    | none => _
    | some inner => _) = _
  cases spans[next]?.filter (fits outer cursor) with
  | none => rfl
  | some inner =>
    cases nextOutside[next]? with
    | none => rfl
    | some after => cases hempty : inner.isEmpty <;> simp [hempty, Option.map_eq_bind]

/-- Each step of the elision goes on to a later match, so the fuel suffices. -/
theorem ownTextFrom_gapped {nextOutside : List ℕ} (hlength : nextOutside.length = spans.length)
    (hnext : ∀ j next, nextOutside[j]? = some next → j < next ∧ next ≤ spans.length)
    (outer : Span) (fuel cursor next : ℕ) (hfuel : spans.length < fuel + next)
    (hle : next ≤ spans.length) :
    ∃ ps, ownTextFrom spans nextOutside outer fuel cursor next = some ps ∧
      (cursor ≤ outer.stop → Gapped outer.stop cursor ps) := by
  induction fuel generalizing cursor next with
  | zero => omega
  | succ fuel ih =>
    rw [ownTextFrom_succ]
    cases hinner : spans[next]?.filter (fits outer cursor) with
    | none => exact ⟨_, rfl, .last⟩
    | some inner =>
      obtain ⟨hmem, hfits⟩ := Option.filter_eq_some_iff.mp hinner
      obtain ⟨hcursor, -, hstop⟩ := of_decide_eq_true hfits
      obtain ⟨hlt, -⟩ := List.getElem?_eq_some_iff.mp hmem
      have hafter : nextOutside[next]? = some (nextOutside.getD next 0) :=
        getElem?_eq_getD 0 (hlength ▸ hlt)
      obtain ⟨hgt, hbound⟩ := hnext _ _ hafter
      rw [hafter, Option.elim_some, Option.bind_some]
      by_cases hempty : inner.isEmpty = true
      · rw [if_pos hempty]
        exact ih cursor _ (by omega) hbound
      · have hinside := Span.lt_of_not_isEmpty hempty
        obtain ⟨ps, hps, hgapped⟩ := ih inner.stop _ (by omega) hbound
        rw [if_neg hempty, hps]
        exact ⟨_, rfl, fun _ => .gap hcursor hinside (hgapped hstop)⟩

theorem pieces_gapped (hcounted : counted.length = spans.length) {nest : Nesting}
    (hnest : nesting spans counted = some nest) (fullLevels : ℕ) {at' : ℕ} {span : Span}
    (hspan : spans[at']? = some span) :
    ∃ ps, pieces spans nest fullLevels at' = some ps ∧
      (span.start ≤ span.stop → Gapped span.stop span.start ps) := by
  obtain ⟨nest', hnest', hnext, hlevels, hgt⟩ := nesting_total hcounted
  cases Option.some.inj (hnest.symm.trans hnest')
  obtain ⟨hat, -⟩ := List.getElem?_eq_some_iff.mp hspan
  rw [pieces, getElem?_eq_getD 0 (hlevels ▸ hat), Option.bind_eq_bind, Option.bind_some]
  split_ifs
  · rw [hspan]
    exact ⟨_, rfl, .last⟩
  · rw [ownText, hspan]
    exact ownTextFrom_gapped hnext hgt span _ _ _ (by omega) hat

/-! ### The lines -/

theorem length_countedOf (found : List Found) :
    (countedOf found).length = (spansOf found).length := by
  rw [countedOf, spansOf, List.length_map, List.length_map]

theorem spansOf_eq_some {found : List Found} {at' : ℕ} {f : Found} (h : found[at']? = some f) :
    (spansOf found)[at']? = some f.span := by
  rw [spansOf, List.getElem?_map, h]
  rfl

theorem Gapped.le {stop start : ℕ} {ps : List Span} (h : Gapped stop start ps) : start ≤ stop := by
  induction h with
  | last h => exact h
  | gap hupto hnext _ ih => omega

/-- Pieces of a span in the source can be cut from it. -/
theorem Gapped.mapM_slice {stop start : ℕ} {ps : List Span} (h : Gapped stop start ps)
    {code : List UInt8} (hcode : stop ≤ code.length) :
    ps.mapM (fun p => slice code p.start p.stop) =
      some (ps.map fun p => (code.take p.stop).drop p.start) := by
  induction h with
  | last h =>
    rw [List.mapM_cons, List.mapM_nil, slice_eq_some h hcode]
    rfl
  | gap hupto hnext hrest ih =>
    have hle := hrest.le
    rw [List.mapM_cons, slice_eq_some hupto (by omega), ih]
    rfl

theorem pieces_of_level_le {nest : Nesting} {fullLevels at' level : ℕ} {span : Span}
    (hlevel : nest.levels[at']? = some level) (hle : level ≤ fullLevels)
    (hspan : spans[at']? = some span) : pieces spans nest fullLevels at' = some [span] := by
  rw [pieces, hlevel, hspan, Option.bind_eq_bind, Option.bind_some, if_pos hle]
  rfl

/-- At depth one the dump is the line of the node. -/
theorem dumpTreeHelper_one (lines : LineFilter) (node : Node) (parent : Option Node) :
    dumpTreeHelper lines node parent 1 =
      if lines.lineInRange (node.startRow + 1) then
        writeNodeLine node [] (startConnector parent).glyphs.2 [node.text]
      else [] := by
  have hfits : Fits (levels 1) [] [(⟨node, 0, startConnector parent, 1⟩, [])] := by
    constructor <;> simp [indent]
  have hloop := dumpLoop_eq lines node.size _ [] []
    (Nat.le_of_eq (by simp [Rose.forestSize_cons])) hfits
  have hlevels : levels 1 = 1 := rfl
  have hdump : dumpTreeHelper lines node parent 1 =
      (placed [] (startConnector parent) node).flatMap (drawn lines 1) := by
    rw [dumpTreeHelper]
    simpa [hlevels] using hloop
  cases node with
  | node a cs =>
    have hbelow : (placedOf [⟨.node a cs, startConnector parent⟩] cs).flatMap (drawn lines 1) =
        [] := by
      rw [List.flatMap_eq_nil_iff]
      intro e he
      have hle := length_le_of_mem_placed.2 _ _ e he
      exact if_neg fun h => absurd (hle.trans_lt h.1) (lt_irrefl _)
    rw [hdump, placed, List.flatMap_cons, List.nil_append, hbelow, List.append_nil, drawn,
      writeNodeLine_eq, Placed.glyphs_eq ⟨.node a cs, startConnector parent⟩]
    simp [indent]

/-- In front of a match stands nothing if it is the tree's root, and an arc otherwise. -/
theorem Found.writeNodeLine_eq (f : Found) (snippet : List (List UInt8)) :
    writeNodeLine f.node [] f.connector.glyphs.2 snippet =
      lineOf (utf8 (if f.isRoot then "" else "╰─ ")) f.node snippet := by
  rw [Dump.writeNodeLine_eq, List.nil_append, Found.connector]
  cases f.isRoot <;> rfl

/-- The line of a match, in spans of any order. -/
theorem renderLine_total (code : List UInt8) {found : List Found} {nest : Nesting}
    (hnest : layout found = some nest) (fullLevels : ℕ) {at' : ℕ} {f : Found}
    (hf : found[at']? = some f) (hspan : f.span.start ≤ f.span.stop)
    (hcode : f.span.stop ≤ code.length) :
    ∃ ps, pieces (spansOf found) nest fullLevels at' = some ps ∧
      f.renderLine code ps = some (lineOf (utf8 (if f.isRoot then "" else "╰─ ")) f.node
        (ps.map fun p => (code.take p.stop).drop p.start)) := by
  obtain ⟨ps, hps, hgapped⟩ := pieces_gapped (length_countedOf found) hnest fullLevels
    (spansOf_eq_some hf)
  refine ⟨ps, hps, ?_⟩
  rw [Found.renderLine, (hgapped hspan).mapM_slice hcode, Option.bind_eq_bind, Option.bind_some,
    Found.writeNodeLine_eq]

/-- What a match at a level writes. -/
def writtenFor (code : List UInt8) (lines : LineFilter) (found : List Found) (nest : Nesting)
    (fullLevels at' : ℕ) (f : Found) : List Write :=
  (if lines.lineInRange (f.node.startRow + 1) then
    lineOf (utf8 (if f.isRoot then "" else "╰─ ")) f.node
      (((pieces (spansOf found) nest fullLevels at').getD []).map fun p =>
        (code.take p.stop).drop p.start)
  else []) ++ [.color .white]

theorem renderFrom_eq (code : List UInt8) (lines : LineFilter) {found : List Found}
    {nest : Nesting} (hnest : layout found = some nest) (fullLevels : ℕ)
    (before rest : List Found) (hfound : found = before ++ rest)
    (hvalid : ∀ f ∈ rest, f.span.start ≤ f.span.stop ∧ f.span.stop ≤ code.length) :
    renderFrom code lines (spansOf found) nest fullLevels before.length rest =
      some ((rest.zipIdx before.length).flatMap fun p =>
        writtenFor code lines found nest fullLevels p.2 p.1) := by
  induction rest generalizing before with
  | nil => rfl
  | cons f rest ih =>
    have hf : found[before.length]? = some f := by simp [hfound]
    obtain ⟨hspan, hcode⟩ := hvalid f List.mem_cons_self
    obtain ⟨ps, hps, hline⟩ := renderLine_total code hnest fullLevels hf hspan hcode
    have hrest := ih (before ++ [f]) (by simp [hfound])
      fun g hg => hvalid g (List.mem_cons_of_mem _ hg)
    rw [List.length_append, List.length_singleton] at hrest
    rw [renderFrom, List.zipIdx_cons, List.flatMap_cons, writtenFor, hps, hrest]
    by_cases hin : lines.lineInRange (f.node.startRow + 1) = true
    · rw [if_pos hin, if_pos hin, Option.bind_eq_bind, Option.bind_some, hline]
      simp
    · rw [if_neg hin, if_neg hin]
      simp

/-- For spans of any order in the source, every match writes its line once and in order. Its pieces
run from its start to its end, and up to `fullLevels` the line is the one the dump writes. -/
theorem renderFound_lines (code : List UInt8) (lines : LineFilter) (fullLevels : ℕ)
    (found : List Found)
    (hvalid : ∀ f ∈ found, f.span.start ≤ f.span.stop ∧ f.span.stop ≤ code.length) :
    ∃ nest, layout found = some nest ∧
      renderFound code lines fullLevels found =
        some (found.zipIdx.flatMap fun p => writtenFor code lines found nest fullLevels p.2 p.1) ∧
      ∀ at' f, found[at']? = some f → ∃ level ps, nest.levels[at']? = some level ∧
        pieces (spansOf found) nest fullLevels at' = some ps ∧ Gapped f.span.stop f.span.start ps ∧
        (level ≤ fullLevels → ∀ parent : Option Node, parent.isNone = f.isRoot →
          f.node.text = (code.take f.span.stop).drop f.span.start →
          writtenFor code lines found nest fullLevels at' f =
            dumpTreeHelper lines f.node parent 1 ++ [.color .white]) := by
  obtain ⟨nest, hnest, -, hlevels, -⟩ := nesting_total (length_countedOf found)
  refine ⟨nest, hnest, ?_, fun at' f hf => ?_⟩
  · rw [renderFound, show layout found = some nest from hnest, Option.bind_eq_bind,
      Option.bind_some]
    exact renderFrom_eq code lines hnest fullLevels [] found rfl hvalid
  · obtain ⟨hat, hget⟩ := List.getElem?_eq_some_iff.mp hf
    have hlength : at' < nest.levels.length := by rw [hlevels, spansOf, List.length_map]; exact hat
    obtain ⟨hspan, -⟩ := hvalid f (hget ▸ List.getElem_mem hat)
    obtain ⟨ps, hps, hgapped⟩ := pieces_gapped (length_countedOf found) hnest fullLevels
      (spansOf_eq_some hf)
    refine ⟨_, ps, getElem?_eq_getD 0 hlength, hps, hgapped hspan, fun hle parent hroot htext => ?_⟩
    have hglyphs : startConnector parent = f.connector := by
      rw [startConnector, Found.connector, hroot]
    rw [writtenFor, pieces_of_level_le (getElem?_eq_getD 0 hlength) hle (spansOf_eq_some hf),
      dumpTreeHelper_one, hglyphs, htext, Found.writeNodeLine_eq]
    rfl

end BigCodeAnalysis.Output.FoundLayout
