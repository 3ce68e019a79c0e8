import BigCodeAnalysis.Output.FoundLayout
import BigCodeAnalysis.Sequences.Slice

/-! The layout of spans in the pre-order of a tree. The stack holds the earlier spans that end
behind the current start, and a byte is printed past the limit by the last match that holds it. -/

namespace BigCodeAnalysis.Output.FoundLayout

open Dump Sequences

variable {spans : List Span} {counted : List Bool}

/-- A later span starts no earlier and lies in an earlier one or behind it. -/
structure TreeOrder (spans : List Span) : Prop where
  start_le_stop : ∀ i < spans.length, startAt spans i ≤ stopAt spans i
  start_le : ∀ i j, i < j → j < spans.length → startAt spans i ≤ startAt spans j
  nested_or_behind : ∀ i j, i < j → j < spans.length →
    stopAt spans j ≤ stopAt spans i ∨ stopAt spans i ≤ startAt spans j

/-- The first later span that starts where this one ends, or behind it. -/
structure FirstOutside (spans : List Span) (i next : ℕ) : Prop where
  gt : i < next
  le : next ≤ spans.length
  before : ∀ j, i < j → j < next → startAt spans j < stopAt spans i
  behind : next < spans.length → stopAt spans i ≤ startAt spans next

theorem TreeOrder.of_pairwise (hspan : ∀ s ∈ spans, s.start ≤ s.stop)
    (hpair : spans.Pairwise fun a b =>
      a.start ≤ b.start ∧ (b.stop ≤ a.stop ∨ a.stop ≤ b.start)) : TreeOrder spans := by
  have hget : ∀ i (hi : i < spans.length), startAt spans i = spans[i].start ∧
      stopAt spans i = spans[i].stop := by
    intro i hi
    simp [startAt, stopAt, hi]
  have hboth : ∀ i j, i < j → j < spans.length → startAt spans i ≤ startAt spans j ∧
      (stopAt spans j ≤ stopAt spans i ∨ stopAt spans i ≤ startAt spans j) := by
    intro i j hij hj
    have hi : i < spans.length := hij.trans hj
    rw [(hget i hi).1, (hget i hi).2, (hget j hj).1, (hget j hj).2]
    exact List.pairwise_iff_getElem.mp hpair i j hi hj hij
  refine ⟨fun i hi => ?_, fun i j hij hj => (hboth i j hij hj).1,
    fun i j hij hj => (hboth i j hij hj).2⟩
  rw [(hget i hi).1, (hget i hi).2]
  exact hspan _ (List.getElem_mem hi)

def holdsOpen (spans : List Span) (start j : ℕ) : Bool := start < stopAt spans j

/-- The counted earlier spans still open at a start, and the span itself. -/
def levelOf (spans : List Span) (counted : List Bool) (i : ℕ) : ℕ :=
  (List.range i).countP (fun j => countedAt counted j && holdsOpen spans (startAt spans i) j) +
    (countedAt counted i).toNat

/-! ### The stack -/

/-- The spans before `at'` that end behind the last start, the last span too. -/
def stackAt (spans : List Span) : ℕ → List ℕ
  | 0 => []
  | at' + 1 =>
    at' :: ((List.range at').filter (holdsOpen spans (startAt spans at'))).reverse

/-- The ends shrink towards the top. -/
theorem TreeOrder.stop_le_of_mem_stackAt (h : TreeOrder spans) {at' i j : ℕ}
    (hat : at' ≤ spans.length) (hj : j ∈ stackAt spans at') (hij : j < i) (hi : i < at') :
    stopAt spans i ≤ stopAt spans j := by
  cases at' with
  | zero => omega
  | succ k =>
    rcases h.nested_or_behind j i hij (by omega) with hnested | hbehind
    · exact hnested
    · have hj' : j ∈ (List.range k).filter (holdsOpen spans (startAt spans k)) := by
        rcases List.mem_cons.mp hj with rfl | hj
        · omega
        · exact List.mem_reverse.mp hj
      have hopen : startAt spans k < stopAt spans j := of_decide_eq_true (List.mem_filter.mp hj').2
      rcases Nat.lt_or_ge i k with hik | hik
      · have := h.start_le i k hik (by omega)
        omega
      · obtain rfl : i = k := by omega
        omega

theorem stackAt_subset {at' j : ℕ} (hj : j ∈ stackAt spans at') : j < at' := by
  cases at' with
  | zero => exact absurd hj List.not_mem_nil
  | succ k =>
    rcases List.mem_cons.mp hj with rfl | hj
    · exact Nat.lt_succ_self _
    · exact (List.mem_range.mp (List.mem_filter.mp (List.mem_reverse.mp hj)).1).trans
        (Nat.lt_succ_self _)

/-- The stack from the top down. -/
theorem pairwise_stackAt (at' : ℕ) : (stackAt spans at').Pairwise (· > ·) := by
  cases at' with
  | zero => exact .nil
  | succ k =>
    refine List.pairwise_cons.mpr ⟨fun j hj => ?_, ?_⟩
    · exact List.mem_range.mp (List.mem_filter.mp (List.mem_reverse.mp hj)).1
    · exact List.pairwise_reverse.mpr (List.Pairwise.filter _ List.pairwise_lt_range)

theorem TreeOrder.pairwise_closedBy (h : TreeOrder spans) {at' : ℕ} (hat : at' ≤ spans.length)
    (start : ℕ) : (stackAt spans at').Pairwise fun i j =>
      closedBy spans start j = true → closedBy spans start i = true := by
  refine (pairwise_stackAt at').imp_of_mem fun {i j} hi hj hij hclosed => ?_
  have hstop := h.stop_le_of_mem_stackAt hat hj hij (stackAt_subset hi)
  exact decide_eq_true (hstop.trans (of_decide_eq_true hclosed))

theorem not_closedBy (start j : ℕ) : (!closedBy spans start j) = holdsOpen spans start j := by
  rw [closedBy, holdsOpen, ← decide_not, decide_eq_decide, Nat.not_le]

/-- What is open at a start was open at the one before or is the span in between. -/
theorem TreeOrder.filter_stackAt (h : TreeOrder spans) {at' : ℕ} (hat : at' < spans.length) :
    (stackAt spans at').filter (holdsOpen spans (startAt spans at')) =
      ((List.range at').filter (holdsOpen spans (startAt spans at'))).reverse := by
  cases at' with
  | zero => rfl
  | succ k =>
    have hle := h.start_le k (k + 1) (Nat.lt_succ_self k) hat
    rw [stackAt, List.range_succ, List.filter_append, List.reverse_append, List.filter_cons,
      List.filter_reverse, List.filter_filter]
    have hsame : ((List.range k).filter fun j => holdsOpen spans (startAt spans (k + 1)) j &&
        holdsOpen spans (startAt spans k) j) =
        (List.range k).filter (holdsOpen spans (startAt spans (k + 1))) := by
      refine List.filter_congr fun j _ => ?_
      simp only [holdsOpen, Bool.and_eq_left_iff_imp, decide_eq_true_eq]
      omega
    rw [hsame]
    cases hopen : holdsOpen spans (startAt spans (k + 1)) k <;> simp [hopen]

/-! ### The pass -/

/-- What the pass has found before `at'`. -/
structure Exact (spans : List Span) (counted : List Bool) (at' : ℕ) (s : Sweep) : Prop where
  opened_eq : s.opened = stackAt spans at'
  levels_eq : s.levels = (List.range at').map (levelOf spans counted)
  closed : ∀ i < at', i ∉ s.opened → ∃ next, s.nextOutside[i]? = some next ∧
    FirstOutside spans i next
  pending : ∀ i < spans.length, (i ∈ s.opened ∨ at' ≤ i) →
    s.nextOutside[i]? = some spans.length
  inside : ∀ i ∈ s.opened, ∀ j, i < j → j < at' → startAt spans j < stopAt spans i

theorem countOf_reverse (js : List ℕ) : countOf counted js.reverse = countOf counted js :=
  List.countP_reverse

theorem TreeOrder.exact_stepped (h : TreeOrder spans) {at' : ℕ} {s : Sweep}
    (hat : at' < spans.length) (hsound : Sound spans counted at' s)
    (hs : Exact spans counted at' s) :
    Exact spans counted (at' + 1) (stepped spans counted s at' (startAt spans at')) := by
  have hpair := h.pairwise_closedBy hat.le (startAt spans at')
  have hkept : s.opened.dropWhile (closedBy spans (startAt spans at')) =
      ((List.range at').filter (holdsOpen spans (startAt spans at'))).reverse := by
    rw [hs.opened_eq, dropWhile_eq_filter hpair, ← h.filter_stackAt hat]
    exact List.filter_congr fun j _ => not_closedBy _ j
  have hgone : ∀ j, j ∈ s.opened.takeWhile (closedBy spans (startAt spans at')) ↔
      j ∈ s.opened ∧ stopAt spans j ≤ startAt spans at' := by
    intro j
    rw [hs.opened_eq, takeWhile_eq_filter hpair, List.mem_filter, closedBy, decide_eq_true_eq]
  have hopen : ∀ j, j ∈ s.opened.dropWhile (closedBy spans (startAt spans at')) ↔
      j < at' ∧ startAt spans at' < stopAt spans j := by
    intro j
    rw [hkept, List.mem_reverse, List.mem_filter, List.mem_range, holdsOpen, decide_eq_true_eq]
  have hlength : s.nextOutside.length = spans.length := hsound.length_nextOutside
  constructor
  · show at' :: _ = _
    rw [hkept]
    rfl
  · show s.levels ++ [countOf counted (at' :: _)] = _
    rw [hs.levels_eq, List.range_succ, List.map_append, hkept, countOf_cons, countOf_reverse,
      List.map_singleton, levelOf, countOf, List.countP_filter]
  · intro i hi hnot
    have hne : i ≠ at' := fun he => hnot (he ▸ List.mem_cons_self)
    by_cases hmem : i ∈ s.opened
    · have hstop : stopAt spans i ≤ startAt spans at' := by
        by_contra hlt
        exact hnot (List.mem_cons_of_mem _ ((hopen i).mpr ⟨by omega, by omega⟩))
      exact ⟨at', setAll_of_mem _ _ ((hgone i).mpr ⟨hmem, hstop⟩) (by omega),
        ⟨by omega, hat.le, hs.inside i hmem, fun _ => hstop⟩⟩
    · obtain ⟨next, hnext, hfirst⟩ := hs.closed i (by omega) hmem
      exact ⟨next, (setAll_of_notMem _ _ fun hin => hmem ((hgone i).mp hin).1).trans hnext, hfirst⟩
  · intro i hi hwhere
    have hkeeps : i ∉ s.opened.takeWhile (closedBy spans (startAt spans at')) ∧
        (i ∈ s.opened ∨ at' ≤ i) := by
      rcases hwhere with hin | hge
      · rcases List.mem_cons.mp hin with rfl | hin
        · exact ⟨fun hg => absurd (hsound.opened_lt _ ((hgone _).mp hg).1) (lt_irrefl _),
            Or.inr le_rfl⟩
        · exact ⟨fun hg => by have := ((hgone i).mp hg).2; have := ((hopen i).mp hin).2; omega,
            Or.inl (List.dropWhile_sublist _ |>.subset hin)⟩
      · exact ⟨fun hg => by have := hsound.opened_lt i ((hgone i).mp hg).1; omega,
          Or.inr (by omega)⟩
    exact (setAll_of_notMem _ _ hkeeps.1).trans (hs.pending i hi hkeeps.2)
  · intro i hi j hij hj
    rcases List.mem_cons.mp hi with rfl | hi
    · omega
    · rcases Nat.lt_or_ge j at' with hlt | hge
      · exact hs.inside i (List.dropWhile_sublist _ |>.subset hi) j hij hlt
      · obtain rfl : j = at' := by omega
        exact ((hopen i).mp hi).2

theorem exact_start : Exact spans counted 0
    ⟨List.replicate spans.length spans.length, [], [], 0⟩ where
  opened_eq := rfl
  levels_eq := rfl
  closed := fun _ hi => absurd hi (Nat.not_lt_zero _)
  pending := by
    intro i hi _
    rw [List.getElem?_replicate, if_pos hi]
  inside := fun _ hi => absurd hi List.not_mem_nil

theorem TreeOrder.nesting_exact (h : TreeOrder spans) (hcounted : counted.length = spans.length) :
    ∃ nest, nesting spans counted = some nest ∧
      nest.levels = (List.range spans.length).map (levelOf spans counted) ∧
      nest.nextOutside.length = spans.length ∧
      ∀ i < spans.length, ∃ next, nest.nextOutside[i]? = some next ∧
        FirstOutside spans i next := by
  obtain ⟨s, hrun, hsound, hs⟩ := nesting_induction (I := Exact spans counted) hcounted
    exact_start fun _ _ hat => h.exact_stepped hat
  refine ⟨_, hrun, hs.levels_eq, hsound.length_nextOutside, fun i hi => ?_⟩
  by_cases hopen : i ∈ s.opened
  · exact ⟨spans.length, hs.pending i hi (Or.inl hopen),
      ⟨hi, le_rfl, hs.inside i hopen, fun hlt => absurd hlt (lt_irrefl _)⟩⟩
  · exact hs.closed i hi hopen

/-! ### The elision -/

/-- A match in `outer` that no match from `next` on holds. -/
def direct (spans : List Span) (outer : Span) (next j : ℕ) : Bool :=
  decide (next ≤ j) && decide (startAt spans j < outer.stop) &&
    decide (startAt spans j < stopAt spans j) &&
    (List.range' next (j - next)).all fun k => stopAt spans k ≤ startAt spans j

theorem direct_iff {outer : Span} {next j : ℕ} : direct spans outer next j = true ↔
    next ≤ j ∧ startAt spans j < outer.stop ∧ startAt spans j < stopAt spans j ∧
      ∀ k, next ≤ k → k < j → stopAt spans k ≤ startAt spans j := by
  simp only [direct, Bool.and_eq_true, decide_eq_true_eq, List.all_eq_true, List.mem_range'_1,
    and_assoc]
  constructor
  · rintro ⟨hle, hstart, hinside, hall⟩
    exact ⟨hle, hstart, hinside, fun k hk hkj => hall k ⟨hk, by omega⟩⟩
  · rintro ⟨hle, hstart, hinside, hall⟩
    exact ⟨hle, hstart, hinside, fun k ⟨hk, hkj⟩ => hall k hk (by omega)⟩

/-- What is printed of `outer` from `cursor` on, with the matches from `next` on left out. -/
structure Printed (spans : List Span) (outer : Span) (cursor next : ℕ) (ps : List Span) :
    Prop where
  holds : ∀ byte, (∃ p ∈ ps, p.Holds byte) ↔ cursor ≤ byte ∧ byte < outer.stop ∧
    ∀ j, next ≤ j → j < spans.length → ¬ (startAt spans j ≤ byte ∧ byte < stopAt spans j)
  length : ps.length = (List.range spans.length).countP (direct spans outer next) + 1

theorem spanAt_eq {j : ℕ} {span : Span} (h : spans[j]? = some span) :
    startAt spans j = span.start ∧ stopAt spans j = span.stop := by
  rw [startAt, stopAt, List.getD_eq_getElem?_getD, h]
  exact ⟨rfl, rfl⟩

/-- The matches up to the first one outside `i` lie in `i`. -/
theorem TreeOrder.stop_le_of_lt (h : TreeOrder spans) {i next k : ℕ}
    (hfirst : FirstOutside spans i next) (hik : i ≤ k) (hk : k < next) :
    stopAt spans k ≤ stopAt spans i := by
  rcases hik.eq_or_lt with rfl | hlt
  · exact le_rfl
  · have hin := hfirst.before k hlt hk
    rcases h.nested_or_behind i k hlt (hk.trans_le hfirst.le) with hnested | hbehind
    · exact hnested
    · omega

theorem TreeOrder.stop_le_start (h : TreeOrder spans) {i next j : ℕ}
    (hfirst : FirstOutside spans i next) (hj : next ≤ j) (hlt : j < spans.length) :
    stopAt spans i ≤ startAt spans j := by
  have hbehind := hfirst.behind (hj.trans_lt hlt)
  rcases hj.eq_or_lt with rfl | hnext
  · exact hbehind
  · exact hbehind.trans (h.start_le next j hnext hlt)

/-- Behind a match that is stepped over, nothing counts from it on but what counts from `next`
on. -/
theorem TreeOrder.direct_of_ne (h : TreeOrder spans) {outer : Span} {i next j : ℕ}
    (hfirst : FirstOutside spans i next) (hj : j < spans.length) (hne : j ≠ i) :
    direct spans outer i j = direct spans outer next j := by
  rw [Bool.eq_iff_iff, direct_iff, direct_iff]
  have hgt := hfirst.gt
  constructor
  · rintro ⟨hij, hstart, hinside, hall⟩
    have hnext : next ≤ j := by
      by_contra hlt
      have hopen := hfirst.before j (by omega) (by omega)
      have hover := hall i le_rfl (by omega)
      omega
    exact ⟨hnext, hstart, hinside, fun k hk hkj => hall k (by omega) hkj⟩
  · rintro ⟨hnext, hstart, hinside, hall⟩
    refine ⟨by omega, hstart, hinside, fun k hk hkj => ?_⟩
    rcases Nat.lt_or_ge k next with hlt | hge
    · exact (h.stop_le_of_lt hfirst hk hlt).trans (h.stop_le_start hfirst hnext hj)
    · exact hall k hge hkj

theorem direct_self {outer : Span} {i : ℕ} (hstart : startAt spans i < outer.stop) :
    direct spans outer i i = decide (startAt spans i < stopAt spans i) := by
  rw [Bool.eq_iff_iff, direct_iff, decide_eq_true_eq]
  exact ⟨fun hd => hd.2.2.1, fun hlt => ⟨le_rfl, hstart, hlt, fun k hk hki => by omega⟩⟩

/-- Two tests that differ at one place, where only the first holds. -/
theorem countP_range_succ_of_ne {p q : ℕ → Bool} {n i : ℕ} (hi : i < n)
    (heq : ∀ j < n, j ≠ i → p j = q j) (hq : q i = false) :
    (List.range n).countP p = (List.range n).countP q + (p i).toNat := by
  induction n with
  | zero => omega
  | succ n ih =>
    rw [List.range_succ, List.countP_append, List.countP_append, List.countP_singleton,
      List.countP_singleton]
    rcases Nat.lt_or_ge i n with hlt | hge
    · rw [ih hlt fun j hj => heq j (by omega), heq n (Nat.lt_succ_self n) (by omega)]
      omega
    · obtain rfl : i = n := by omega
      have hsame : (List.range i).countP p = (List.range i).countP q :=
        List.countP_congr fun j hj => by rw [heq j (by have := List.mem_range.mp hj; omega)
          (by have := List.mem_range.mp hj; omega)]
      rw [hsame, hq]
      cases p i <;> rfl

theorem TreeOrder.countP_direct (h : TreeOrder spans) {outer : Span} {i next : ℕ}
    (hfirst : FirstOutside spans i next) (hi : i < spans.length)
    (hstart : startAt spans i < outer.stop) :
    (List.range spans.length).countP (direct spans outer i) =
      (List.range spans.length).countP (direct spans outer next) +
        (decide (startAt spans i < stopAt spans i)).toNat := by
  rw [← direct_self hstart]
  refine countP_range_succ_of_ne hi (fun j hj hne => h.direct_of_ne hfirst hj hne) ?_
  rw [Bool.eq_false_iff, Ne, direct_iff]
  exact fun hd => absurd (hfirst.gt.trans_le hd.1) (lt_irrefl _)

theorem TreeOrder.start_le_of_le (h : TreeOrder spans) {i j : ℕ} (hij : i ≤ j)
    (hj : j < spans.length) : startAt spans i ≤ startAt spans j := by
  rcases hij.eq_or_lt with rfl | hlt
  · exact le_rfl
  · exact h.start_le i j hlt hj

/-- Nothing is left to step over: the rest is one piece. -/
theorem TreeOrder.printed_last (h : TreeOrder spans) {outer : Span} {cursor next : ℕ}
    (hend : next < spans.length → outer.stop ≤ startAt spans next) :
    Printed spans outer cursor next [⟨cursor, outer.stop⟩] where
  holds := by
    intro byte
    have hbehind : ∀ j, next ≤ j → j < spans.length → outer.stop ≤ startAt spans j :=
      fun j hj hlt => (hend (hj.trans_lt hlt)).trans (h.start_le_of_le hj hlt)
    simp only [List.mem_singleton, exists_eq_left, Span.Holds]
    constructor
    · rintro ⟨hcursor, hstop⟩
      exact ⟨hcursor, hstop, fun j hj hlt hin => by have := hbehind j hj hlt; omega⟩
    · rintro ⟨hcursor, hstop, -⟩
      exact ⟨hcursor, hstop⟩
  length := by
    have hnone : (List.range spans.length).countP (direct spans outer next) = 0 := by
      refine List.countP_eq_zero.mpr fun j hj hdirect => ?_
      obtain ⟨hle, hstart, -⟩ := direct_iff.mp hdirect
      have hlt := List.mem_range.mp hj
      have := (hend (hle.trans_lt hlt)).trans (h.start_le_of_le hle hlt)
      omega
    rw [hnone]
    rfl

/-- A byte ahead of a match that is stepped over lies in no later match, and a byte behind it
lies in a later match only from the first one outside it on. -/
theorem TreeOrder.not_holds_iff (h : TreeOrder spans) {i next byte : ℕ}
    (hfirst : FirstOutside spans i next) (hbyte : stopAt spans i ≤ byte) :
    (∀ j, i ≤ j → j < spans.length → ¬ (startAt spans j ≤ byte ∧ byte < stopAt spans j)) ↔
      ∀ j, next ≤ j → j < spans.length → ¬ (startAt spans j ≤ byte ∧ byte < stopAt spans j) := by
  have hgt := hfirst.gt
  constructor
  · exact fun hall j hj hlt => hall j (by omega) hlt
  · intro hall j hij hlt hin
    rcases Nat.lt_or_ge j next with hlow | hge
    · have := h.stop_le_of_lt hfirst hij hlow
      omega
    · exact hall j hge hlt hin

/-- A match without bytes is stepped over without a gap. -/
theorem Printed.skip (h : TreeOrder spans) {outer : Span} {cursor i next : ℕ} {ps : List Span}
    (hfirst : FirstOutside spans i next) (hi : i < spans.length)
    (hstart : startAt spans i < outer.stop) (hempty : stopAt spans i ≤ startAt spans i)
    (hps : Printed spans outer cursor next ps) : Printed spans outer cursor i ps where
  holds := by
    intro byte
    rw [hps.holds]
    refine and_congr_right fun _ => and_congr_right fun _ => ?_
    constructor
    · intro hall j hij hlt hin
      rcases Nat.lt_or_ge byte (stopAt spans i) with hlow | hge
      · have := h.start_le_of_le hij hlt
        omega
      · exact (h.not_holds_iff hfirst hge).mpr hall j hij hlt hin
    · intro hall j hj hlt
      exact hall j (by have := hfirst.gt; omega) hlt
  length := by
    rw [hps.length, h.countP_direct hfirst hi hstart, decide_eq_false (by omega)]
    rfl

/-- A match with bytes leaves one gap. -/
theorem Printed.gap (h : TreeOrder spans) {outer : Span} {cursor i next : ℕ} {ps : List Span}
    (hfirst : FirstOutside spans i next) (hi : i < spans.length)
    (hcursor : cursor ≤ startAt spans i) (hstart : startAt spans i < outer.stop)
    (hinside : startAt spans i < stopAt spans i)
    (hps : Printed spans outer (stopAt spans i) next ps) :
    Printed spans outer cursor i (⟨cursor, startAt spans i⟩ :: ps) where
  holds := by
    intro byte
    rw [List.exists_mem_cons_iff, hps.holds]
    constructor
    · rintro (⟨hlow, hupto⟩ | ⟨hlow, hstop, hall⟩)
      · refine ⟨hlow, hupto.trans hstart, fun j hij hlt hin => ?_⟩
        have hj := h.start_le_of_le hij hlt
        have hbyte : byte < startAt spans i := hupto
        omega
      · exact ⟨by omega, hstop, (h.not_holds_iff hfirst hlow).mpr hall⟩
    · rintro ⟨hlow, hstop, hall⟩
      rcases Nat.lt_or_ge byte (startAt spans i) with hupto | hfrom
      · exact Or.inl ⟨hlow, hupto⟩
      · have hbehind : stopAt spans i ≤ byte := by
          by_contra hlt
          exact hall i le_rfl hi ⟨hfrom, by omega⟩
        exact Or.inr ⟨hbehind, hstop, (h.not_holds_iff hfirst hbehind).mp hall⟩
  length := by
    rw [List.length_cons, hps.length, h.countP_direct hfirst hi hstart, decide_eq_true hinside]
    rfl

theorem TreeOrder.printed_ownTextFrom (h : TreeOrder spans) {nextOutside : List ℕ}
    (hexact : ∀ i < spans.length, ∃ next, nextOutside[i]? = some next ∧ FirstOutside spans i next)
    {outer : Span} (fuel cursor next : ℕ) {ps : List Span}
    (hcursor : next < spans.length → cursor ≤ startAt spans next)
    (hnested : ∀ j, next ≤ j → j < spans.length →
      stopAt spans j ≤ outer.stop ∨ outer.stop ≤ startAt spans j)
    (hps : ownTextFrom spans nextOutside outer fuel cursor next = some ps) :
    Printed spans outer cursor next ps := by
  induction fuel generalizing cursor next ps with
  | zero => cases hps
  | succ fuel ih =>
    rw [ownTextFrom_succ] at hps
    cases hinner : spans[next]?.filter (fits outer cursor) with
    | none =>
      rw [hinner, Option.elim_none] at hps
      cases hps
      refine h.printed_last fun hlt => ?_
      by_contra hstart
      have hfits : fits outer cursor (spans.getD next default) = true := by
        refine decide_eq_true ⟨hcursor hlt, Nat.lt_of_not_le hstart, ?_⟩
        exact (hnested next le_rfl hlt).resolve_right hstart
      rw [getElem?_eq_getD default hlt, Option.filter_some_pos hfits] at hinner
      cases hinner
    | some inner =>
      obtain ⟨hmem, hfits⟩ := Option.filter_eq_some_iff.mp hinner
      obtain ⟨hlow, hstart, -⟩ := of_decide_eq_true hfits
      obtain ⟨hi, -⟩ := List.getElem?_eq_some_iff.mp hmem
      obtain ⟨hstartAt, hstopAt⟩ := spanAt_eq hmem
      obtain ⟨after, hafter, hfirst⟩ := hexact next hi
      have hgt := hfirst.gt
      rw [hinner, Option.elim_some, hafter, Option.bind_some] at hps
      rw [← hstartAt] at hlow hstart
      by_cases hempty : inner.isEmpty = true
      · rw [if_pos hempty] at hps
        have hclosed : stopAt spans next ≤ startAt spans next := by
          rw [hstartAt, hstopAt]
          simpa [Span.isEmpty] using hempty
        refine Printed.skip h hfirst hi hstart hclosed (ih cursor after (fun hlt => ?_)
          (fun j hj hlt => hnested j (by omega) hlt) hps)
        exact hlow.trans (h.start_le_of_le hgt.le hlt)
      · rw [if_neg hempty] at hps
        obtain ⟨rest, hrest, hcons⟩ := Option.map_eq_some_iff.mp hps
        have hinside : startAt spans next < stopAt spans next := by
          rw [hstartAt, hstopAt]
          exact Span.lt_of_not_isEmpty hempty
        rw [← hstopAt] at hrest
        rw [← hcons, ← hstartAt]
        exact Printed.gap h hfirst hi hlow hstart hinside (ih _ after hfirst.behind
          (fun j hj hlt => hnested j (by omega) hlt) hrest)

/-! ### The lines of a search -/

section

variable {found : List Found}

def spanAt (spans : List Span) (i : ℕ) : Span := ⟨startAt spans i, stopAt spans i⟩

theorem getElem?_eq_spanAt {i : ℕ} (hi : i < spans.length) : spans[i]? = some (spanAt spans i) :=
  getElem?_eq_getD default hi

/-- `f(g(1))` with its calls, the number and an empty match behind them. -/
def nestedCalls : List Found :=
  let leaf := fun start stop : ℕ =>
    Found.mk (.node ⟨"call", 0, (0, start), (0, stop), []⟩ []) ⟨start, stop⟩ false
  [leaf 0 7, leaf 2 6, leaf 4 5, leaf 6 6]

theorem treeOrder_nestedCalls : TreeOrder (spansOf nestedCalls) :=
  .of_pairwise (by decide) (by decide)

/-- For every match the first later one outside it, and the counted matches still open at its
start. -/
theorem layout_exact (h : TreeOrder (spansOf found)) :
    ∃ nest, layout found = some nest ∧
      nest.levels = (List.range (spansOf found).length).map
        (levelOf (spansOf found) (countedOf found)) ∧
      nest.nextOutside.length = (spansOf found).length ∧
      ∀ i < (spansOf found).length, ∃ next, nest.nextOutside[i]? = some next ∧
        FirstOutside (spansOf found) i next :=
  h.nesting_exact (length_countedOf found)

theorem layout_exact_nestedCalls :
    ∃ nest, layout nestedCalls = some nest ∧
      nest.levels = (List.range (spansOf nestedCalls).length).map
        (levelOf (spansOf nestedCalls) (countedOf nestedCalls)) ∧
      nest.nextOutside.length = (spansOf nestedCalls).length ∧
      ∀ i < (spansOf nestedCalls).length, ∃ next, nest.nextOutside[i]? = some next ∧
        FirstOutside (spansOf nestedCalls) i next :=
  layout_exact treeOrder_nestedCalls

example : layout nestedCalls = some ⟨[4, 3, 3, 4], [1, 2, 3, 2]⟩ := by decide

theorem levels_eq_some (h : TreeOrder (spansOf found)) {nest : Nesting}
    (hnest : layout found = some nest) {i : ℕ} (hi : i < (spansOf found).length) :
    nest.levels[i]? = some (levelOf (spansOf found) (countedOf found) i) := by
  obtain ⟨nest', hnest', hlevels, -⟩ := layout_exact h
  cases Option.some.inj (hnest.symm.trans hnest')
  rw [hlevels, List.getElem?_map, List.getElem?_range hi]
  rfl

/-- Up to the limit a match prints its whole span. Past it, it prints the bytes no later match
holds, with one gap for each match directly in it that has bytes. -/
theorem pieces_exact (h : TreeOrder (spansOf found)) (fullLevels : ℕ) :
    ∃ nest, layout found = some nest ∧ ∀ i < (spansOf found).length,
      ∃ ps, pieces (spansOf found) nest fullLevels i = some ps ∧
        Gapped (stopAt (spansOf found) i) (startAt (spansOf found) i) ps ∧
        (levelOf (spansOf found) (countedOf found) i ≤ fullLevels →
          ps = [spanAt (spansOf found) i]) ∧
        (fullLevels < levelOf (spansOf found) (countedOf found) i →
          Printed (spansOf found) (spanAt (spansOf found) i) (startAt (spansOf found) i) (i + 1)
            ps) := by
  obtain ⟨nest, hnest, -, -, hexact⟩ := layout_exact h
  refine ⟨nest, hnest, fun i hi => ?_⟩
  have hspan := getElem?_eq_spanAt hi
  have hlevel := levels_eq_some h hnest hi
  obtain ⟨ps, hps, hgapped⟩ := pieces_gapped (length_countedOf found) hnest fullLevels hspan
  refine ⟨ps, hps, hgapped (h.start_le_stop i hi), fun hle => ?_, fun hlt => ?_⟩
  · rw [pieces_of_level_le hlevel hle hspan] at hps
    exact (Option.some.inj hps).symm
  · rw [pieces, hlevel, Option.bind_eq_bind, Option.bind_some, if_neg (Nat.not_le.mpr hlt), ownText,
      hspan, Option.bind_eq_bind, Option.bind_some] at hps
    exact h.printed_ownTextFrom hexact _ _ _ (fun hlt => h.start_le _ _ (Nat.lt_succ_self i) hlt)
      (fun j hj hlt => h.nested_or_behind i j hj hlt) hps

theorem pieces_exact_nestedCalls :
    ∃ nest, layout nestedCalls = some nest ∧ ∀ i < (spansOf nestedCalls).length,
      ∃ ps, pieces (spansOf nestedCalls) nest 1 i = some ps ∧
        Gapped (stopAt (spansOf nestedCalls) i) (startAt (spansOf nestedCalls) i) ps ∧
        (levelOf (spansOf nestedCalls) (countedOf nestedCalls) i ≤ 1 →
          ps = [spanAt (spansOf nestedCalls) i]) ∧
        (1 < levelOf (spansOf nestedCalls) (countedOf nestedCalls) i →
          Printed (spansOf nestedCalls) (spanAt (spansOf nestedCalls) i)
            (startAt (spansOf nestedCalls) i) (i + 1) ps) :=
  pieces_exact treeOrder_nestedCalls 1

/-- The line of match `i` shows the byte. -/
def printsByte (spans : List Span) (nest : Nesting) (fullLevels byte i : ℕ) : Bool :=
  ((pieces spans nest fullLevels i).getD []).any fun p => decide (p.Holds byte)

theorem printsByte_iff (h : TreeOrder (spansOf found)) {nest : Nesting}
    (hnest : layout found = some nest) (fullLevels byte : ℕ) {i : ℕ}
    (hi : i < (spansOf found).length) :
    printsByte (spansOf found) nest fullLevels byte i = true ↔
      (spanAt (spansOf found) i).Holds byte ∧
        (levelOf (spansOf found) (countedOf found) i ≤ fullLevels ∨
          ∀ j, i < j → j < (spansOf found).length → ¬ (spanAt (spansOf found) j).Holds byte) := by
  obtain ⟨nest', hnest', hexact⟩ := pieces_exact h fullLevels
  cases Option.some.inj (hnest.symm.trans hnest')
  obtain ⟨ps, hps, -, hwhole, hpast⟩ := hexact i hi
  have hprints : printsByte (spansOf found) nest fullLevels byte i = true ↔
      ∃ p ∈ ps, p.Holds byte := by
    simp [printsByte, hps]
  rw [hprints]
  rcases Nat.lt_or_ge fullLevels (levelOf (spansOf found) (countedOf found) i) with hlt | hle
  · rw [(hpast hlt).holds byte, or_iff_right (Nat.not_le.mpr hlt), ← and_assoc]
    rfl
  · rw [hwhole hle, or_iff_left_of_imp fun _ => hle]
    simp [hle]

/-- Of the counted matches up to the limit, each holds a byte one level further in. -/
theorem countP_level_le (fullLevels byte : ℕ) (spans : List Span) (counted : List Bool) (n : ℕ) :
    (List.range n).countP (fun i => countedAt counted i && decide ((spanAt spans i).Holds byte) &&
      decide (levelOf spans counted i ≤ fullLevels)) ≤ fullLevels := by
  induction n with
  | zero => exact Nat.zero_le _
  | succ n ih =>
    rw [List.range_succ, List.countP_append, List.countP_singleton]
    split_ifs with hlast
    · simp only [Bool.and_eq_true, decide_eq_true_eq] at hlast
      obtain ⟨⟨hcounted, hholds⟩, hlevel⟩ := hlast
      have hmono : (List.range n).countP (fun i => countedAt counted i &&
            decide ((spanAt spans i).Holds byte) && decide (levelOf spans counted i ≤ fullLevels)) ≤
          (List.range n).countP fun j =>
            countedAt counted j && holdsOpen spans (startAt spans n) j := by
        refine List.countP_mono_left fun j _ hj => ?_
        simp only [Bool.and_eq_true, decide_eq_true_eq] at hj
        obtain ⟨⟨hj, hin⟩, -⟩ := hj
        rw [Bool.and_eq_true, holdsOpen, decide_eq_true_eq]
        exact ⟨hj, lt_of_le_of_lt hholds.1 hin.2⟩
      rw [levelOf, hcounted] at hlevel
      simp only [Bool.toNat_true] at hlevel
      omega
    · exact ih

theorem countP_le_one {p : ℕ → Bool} {n : ℕ}
    (h : ∀ i j, i < j → j < n → p i = true → p j = false) : (List.range n).countP p ≤ 1 := by
  induction n with
  | zero => exact Nat.zero_le _
  | succ n ih =>
    rw [List.range_succ, List.countP_append, List.countP_singleton]
    split_ifs with hlast
    · have hnone : (List.range n).countP p = 0 := by
        refine List.countP_eq_zero.mpr fun i hi hpi => ?_
        have := h i n (List.mem_range.mp hi) (Nat.lt_succ_self n) hpi
        rw [hlast] at this
        cases this
      omega
    · exact ih fun i j hij hj => h i j hij (by omega)

theorem countP_le_add {α : Type*} {p q r : α → Bool} {l : List α}
    (h : ∀ a ∈ l, p a = true → q a = true ∨ r a = true) : l.countP p ≤ l.countP q + l.countP r := by
  induction l with
  | nil => exact Nat.zero_le _
  | cons a l ih =>
    have hl := ih fun b hb => h b (List.mem_cons_of_mem _ hb)
    rw [List.countP_cons, List.countP_cons, List.countP_cons]
    split_ifs with hp hq hr hr <;> try omega
    rcases h a List.mem_cons_self hp with hqa | hra
    · exact absurd hqa hq
    · exact absurd hra hr

def holdsLast (spans : List Span) (byte i : ℕ) : Bool :=
  decide ((spanAt spans i).Holds byte) &&
    (List.range spans.length).all fun j => decide (i < j → ¬ (spanAt spans j).Holds byte)

theorem countP_holdsLast (spans : List Span) (byte : ℕ) :
    (List.range spans.length).countP (holdsLast spans byte) ≤ 1 := by
  refine countP_le_one fun i j hij hj hi => Bool.eq_false_iff.mpr fun hholds => ?_
  have hnone := List.all_eq_true.mp (Bool.and_eq_true_iff.mp hi).2 j (List.mem_range.mpr hj)
  exact of_decide_eq_true hnone hij (of_decide_eq_true (Bool.and_eq_true_iff.mp hholds).1)

/-- The last match that holds a byte is counted if an earlier one is. -/
theorem TreeOrder.exists_last (h : TreeOrder spans)
    (hcontains : ∀ i j, i < j → j < spans.length → stopAt spans j ≤ stopAt spans i →
      countedAt counted i = true → countedAt counted j = true) {byte : ℕ} (k i : ℕ)
    (hk : spans.length ≤ i + k) (hi : i < spans.length) (hcounted : countedAt counted i = true)
    (hholds : (spanAt spans i).Holds byte) :
    ∃ j < spans.length, countedAt counted j = true ∧ (spanAt spans j).Holds byte ∧
      ∀ j', j < j' → j' < spans.length → ¬ (spanAt spans j').Holds byte := by
  induction k generalizing i with
  | zero => omega
  | succ k ih =>
    by_cases hlater : ∃ j, i < j ∧ j < spans.length ∧ (spanAt spans j).Holds byte
    · obtain ⟨j, hij, hj, hin⟩ := hlater
      have hstop : stopAt spans j ≤ stopAt spans i := by
        rcases h.nested_or_behind i j hij hj with hnested | hbehind
        · exact hnested
        · have hlow : startAt spans j ≤ byte := hin.1
          have hhigh : byte < stopAt spans i := hholds.2
          omega
      exact ih j (by omega) hj (hcontains i j hij hj hstop hcounted) hin
    · exact ⟨i, hi, hcounted, hholds, fun j hij hj hin => hlater ⟨j, hij, hj, hin⟩⟩

/-- A byte is in the lines of at most `fullLevels + 1` counted matches, and where what lies in a
counted match is counted, in the line of at least one if any holds it. -/
theorem printed_at_most (h : TreeOrder (spansOf found)) (fullLevels : ℕ) :
    ∃ nest, layout found = some nest ∧ ∀ byte,
      (List.range (spansOf found).length).countP (fun i => countedAt (countedOf found) i &&
          printsByte (spansOf found) nest fullLevels byte i) ≤ fullLevels + 1 ∧
      ((∀ i j, i < j → j < (spansOf found).length →
          stopAt (spansOf found) j ≤ stopAt (spansOf found) i →
          countedAt (countedOf found) i = true → countedAt (countedOf found) j = true) →
        ∀ i < (spansOf found).length, countedAt (countedOf found) i = true →
          (spanAt (spansOf found) i).Holds byte →
          ∃ j < (spansOf found).length, countedAt (countedOf found) j = true ∧
            printsByte (spansOf found) nest fullLevels byte j = true) := by
  obtain ⟨nest, hnest, -⟩ := layout_exact h
  refine ⟨nest, hnest, fun byte => ⟨?_, fun hcontains i hi hcounted hholds => ?_⟩⟩
  · have hlast := countP_holdsLast (spansOf found) byte
    have hlevels := countP_level_le fullLevels byte (spansOf found) (countedOf found)
      (spansOf found).length
    refine (countP_le_add fun i hi hprints => ?_).trans (Nat.add_le_add hlevels hlast)
    obtain ⟨hcounted, hprints⟩ := Bool.and_eq_true_iff.mp hprints
    obtain ⟨hholds, hwhy⟩ := (printsByte_iff h hnest fullLevels byte (List.mem_range.mp hi)).mp
      hprints
    rcases hwhy with hle | hall
    · left
      simp [hcounted, hholds, hle]
    · right
      refine Bool.and_eq_true_iff.mpr ⟨decide_eq_true hholds, List.all_eq_true.mpr fun j hj => ?_⟩
      exact decide_eq_true fun hij => hall j hij (List.mem_range.mp hj)
  · obtain ⟨j, hj, hcounted, hholds, hall⟩ := h.exists_last hcontains (spansOf found).length i
      (by omega) hi hcounted hholds
    exact ⟨j, hj, hcounted, (printsByte_iff h hnest fullLevels byte hj).mpr
      ⟨hholds, Or.inr hall⟩⟩

theorem printed_at_most_nestedCalls :
    ∃ nest, layout nestedCalls = some nest ∧ ∀ byte,
      (List.range (spansOf nestedCalls).length).countP (fun i =>
          countedAt (countedOf nestedCalls) i &&
            printsByte (spansOf nestedCalls) nest 0 byte i) ≤ 0 + 1 ∧
      ((∀ i j, i < j → j < (spansOf nestedCalls).length →
          stopAt (spansOf nestedCalls) j ≤ stopAt (spansOf nestedCalls) i →
          countedAt (countedOf nestedCalls) i = true →
          countedAt (countedOf nestedCalls) j = true) →
        ∀ i < (spansOf nestedCalls).length, countedAt (countedOf nestedCalls) i = true →
          (spanAt (spansOf nestedCalls) i).Holds byte →
          ∃ j < (spansOf nestedCalls).length, countedAt (countedOf nestedCalls) j = true ∧
            printsByte (spansOf nestedCalls) nest 0 byte j = true) :=
  printed_at_most treeOrder_nestedCalls 0

end

/-- Spans in no order of a tree. -/
theorem renderFound_lines_crossing :
    ∃ nest, layout nestedCalls.reverse = some nest ∧
      renderFound (List.replicate 8 32) ⟨none, none⟩ 0 nestedCalls.reverse =
        some (nestedCalls.reverse.zipIdx.flatMap fun p =>
          writtenFor (List.replicate 8 32) ⟨none, none⟩ nestedCalls.reverse nest 0 p.2 p.1) ∧
      ∀ at' f, nestedCalls.reverse[at']? = some f → ∃ level ps, nest.levels[at']? = some level ∧
        pieces (spansOf nestedCalls.reverse) nest 0 at' = some ps ∧
        Gapped f.span.stop f.span.start ps ∧
        (level ≤ 0 → ∀ parent : Option Node, parent.isNone = f.isRoot →
          f.node.text = ((List.replicate 8 32).take f.span.stop).drop f.span.start →
          writtenFor (List.replicate 8 32) ⟨none, none⟩ nestedCalls.reverse nest 0 at' f =
            dumpTreeHelper ⟨none, none⟩ f.node parent 1 ++ [.color .white]) :=
  renderFound_lines _ _ 0 _ (by decide)

end BigCodeAnalysis.Output.FoundLayout
