import BigCodeAnalysis.Comments.RemovalWalk
import BigCodeAnalysis.Languages.CMacro
import Mathlib.Algebra.GroupWithZero.Nat

/-! Which bytes the removal of comments brings together: two bytes with nothing but removed
comments between them end side by side exactly where no comment between them leaves a line
break or a carriage return. -/

namespace BigCodeAnalysis.Comments

open Sequences

variable {code : Bytes} {ending : LineEnding} {spans : List Span} {i j : ℕ}

/-- Two bytes that stay, with nothing that stays between them. -/
structure Consecutive (spans : List Span) (i j : ℕ) : Prop where
  lt : i < j
  left : Kept spans i
  right : Kept spans j
  between : ∀ k, i < k → k < j → ¬ Kept spans k

/-- The removed comments between two bytes. -/
def between (spans : List Span) (i j : ℕ) : List Span :=
  spans.filter fun s => i < s.start && s.stop ≤ j

theorem Consecutive.tail {s : Span} (h : Consecutive (s :: spans) i j) (hi : s.stop ≤ i) :
    Consecutive spans i j := by
  have htail : ∀ {m}, Kept (s :: spans) m → Kept spans m := fun hkept s' hs' =>
    hkept s' (List.mem_cons_of_mem _ hs')
  refine ⟨h.lt, htail h.left, htail h.right, ?_⟩
  intro k hik hkj hkept
  refine h.between k hik hkj ?_
  intro s' hs'
  rcases List.mem_cons.mp hs' with rfl | hs'
  · exact .inr (by omega)
  · exact hkept s' hs'

theorem InOrder.start_le {len : ℕ} (h : InOrder len i spans) :
    ∀ s ∈ spans, i ≤ s.start ∧ s.start ≤ s.stop := by
  induction spans generalizing i with
  | nil => simp
  | cons s spans ih =>
    intro s' hs'
    rcases List.mem_cons.mp hs' with rfl | hs'
    · exact ⟨h.1, h.2.1⟩
    · have hrest := ih h.2.2 s' hs'
      exact ⟨Nat.le_trans (Nat.le_trans h.1 h.2.1) hrest.1, hrest.2⟩

/-- In front of the first comment everything stays. -/
theorem InOrder.start_le_of_cons {len : ℕ} {s : Span} (h : InOrder len i (s :: spans)) :
    ∀ s' ∈ s :: spans, s.start ≤ s'.start ∧ s'.start ≤ s'.stop :=
  InOrder.start_le (i := s.start) ⟨Nat.le_refl _, h.2⟩

theorem InOrder.kept_of_lt {len k : ℕ} {s : Span} (h : InOrder len i (s :: spans))
    (hk : k < s.start) : Kept (s :: spans) k := fun s' hs' =>
  .inl (Nat.lt_of_lt_of_le hk (h.start_le_of_cons s' hs').1)

theorem InOrder.lt_stop {len : ℕ} {s : Span} (h : InOrder len i (s :: spans)) (hj : j < s.start) :
    ∀ s' ∈ s :: spans, ¬ s'.stop ≤ j := by
  intro s' hs'
  have hle := h.start_le_of_cons s' hs'
  omega

/-- What the comments of a list leave in their places. -/
def fillLength (code : Bytes) (ending : LineEnding) (spans : List Span) : ℕ :=
  (spans.map fun s => (fill code ending s).length).sum

/-- The first byte that stays lands behind what the comments before it leave. -/
theorem outIndex_first (ending : LineEnding) (spans : List Span) : ∀ i, InOrder code.length i spans → i ≤ j →
    Kept spans j → (∀ k, i ≤ k → k < j → ¬ Kept spans k) →
    outIndex code ending i spans j =
      fillLength code ending (spans.filter fun s => s.stop ≤ j) := by
  induction spans with
  | nil =>
    intro i _ hij _ hnone
    by_cases hlt : i < j
    · exact absurd (by simp [Kept]) (hnone i (Nat.le_refl i) hlt)
    · rw [outIndex, Nat.sub_eq_zero_of_le (by omega)]
      rfl
  | cons s spans ih =>
    intro i h hij hkept hnone
    obtain ⟨hstart, hspan, hrest⟩ := id h
    by_cases hbefore : j < s.start
    · have heq : i = j := by
        by_contra hne
        exact hnone i (Nat.le_refl i) (by omega) (h.kept_of_lt (by omega))
      have hfilter : (s :: spans).filter (fun s => decide (s.stop ≤ j)) = [] := by
        rw [List.filter_eq_nil_iff]
        intro s' hs'
        simpa using h.lt_stop hbefore s' hs'
      rw [outIndex, if_pos hbefore, hfilter, heq, Nat.sub_self]
      rfl
    · have hafter := (hkept s List.mem_cons_self).resolve_left hbefore
      have hi : s.start ≤ i := by
        by_contra hlt
        exact hnone i (Nat.le_refl i) (by omega) (h.kept_of_lt (by omega))
      have hnext := ih s.stop hrest hafter (fun s' hs' => hkept s' (List.mem_cons_of_mem _ hs')) ?_
      · rw [outIndex, if_neg hbefore, hnext, Nat.sub_eq_zero_of_le hi, Nat.zero_add,
          List.filter_cons_of_pos (by simpa using hafter)]
        simp [fillLength]
      · intro k hk hkj hkept'
        refine hnone k (by omega) hkj fun s' hs' => ?_
        rcases List.mem_cons.mp hs' with rfl | hs'
        · exact .inr hk
        · exact hkept' s' hs'

/-- Between two consecutive bytes that stay the output has what the comments leave. -/
theorem outIndex_consecutive (spans : List Span) : ∀ m, InOrder code.length m spans → m ≤ i →
    Consecutive spans i j →
    outIndex code ending m spans j =
      outIndex code ending m spans i + 1 + fillLength code ending (between spans i j) := by
  induction spans with
  | nil =>
    intro m _ hm h
    have heq : j = i + 1 := by
      by_contra hne
      have hlt := h.lt
      exact h.between (i + 1) (by omega) (by omega) (by simp [Kept])
    rw [outIndex, outIndex, between]
    simp [fillLength]
    omega
  | cons s spans ih =>
    intro m hm hmi h
    obtain ⟨hstart, hspan, hrest⟩ := id hm
    have hlt := h.lt
    rcases h.left s List.mem_cons_self with hi | hi
    · by_cases hj : j < s.start
      · have heq : j = i + 1 := by
          by_contra hne
          exact h.between (i + 1) (by omega) (by omega) (hm.kept_of_lt (by omega))
        have hbetween : between (s :: spans) i j = [] := by
          rw [between, List.filter_eq_nil_iff]
          intro s' hs'
          have hstop := hm.lt_stop hj s' hs'
          simp [hstop]
        rw [outIndex, outIndex, if_pos hj, if_pos hi, hbetween]
        simp [fillLength]
        omega
      · have hafter := (h.right s List.mem_cons_self).resolve_left hj
        have hlast : s.start = i + 1 := by
          by_contra hne
          exact h.between (i + 1) (by omega) (by omega) (hm.kept_of_lt (by omega))
        have hfirst := outIndex_first ending spans s.stop hrest hafter
          (fun s' hs' => h.right s' (List.mem_cons_of_mem _ hs')) ?_
        · have hbetween : between (s :: spans) i j =
              s :: spans.filter fun s => decide (s.stop ≤ j) := by
            rw [between, List.filter_cons_of_pos (by simp [hi, hafter])]
            congr 1
            refine List.filter_congr fun s' hs' => ?_
            have hle := hrest.start_le s' hs'
            have hi' : i < s'.start := by omega
            simp [hi']
          rw [outIndex, outIndex, if_neg hj, if_pos hi, hfirst, hbetween]
          simp only [fillLength, List.map_cons, List.sum_cons]
          omega
        · intro k hk hkj hkept
          refine h.between k (by omega) hkj fun s' hs' => ?_
          rcases List.mem_cons.mp hs' with rfl | hs'
          · exact .inr hk
          · exact hkept s' hs'
    · have hnext := ih s.stop hrest hi (h.tail hi)
      have hbetween : between (s :: spans) i j = between spans i j := by
        rw [between, List.filter_cons_of_neg (by simp; omega), between]
      rw [outIndex, outIndex, if_neg (by omega), if_neg (by omega), hnext, hbetween]
      omega

/-! ### The result -/

/-- The comment spans a line break, or takes the carriage return of the line it ends. -/
def LeavesBreak (code : Bytes) (s : Span) : Prop :=
  s.lines ≠ 0 ∨ (s.start < s.stop ∧ code[s.stop - 1]? = some carriageReturn ∧
    code[s.stop]? = some lineFeed)

theorem length_fill_pos (s : Span) : 0 < (fill code ending s).length ↔ LeavesBreak code s := by
  have hbreaks : 0 < (breaks ending s).length ↔ s.lines ≠ 0 := by
    rw [List.length_pos_iff, ne_eq, not_iff_not, breaks, List.flatten_eq_nil_iff]
    constructor
    · intro h
      by_contra hlines
      have hnil := h _ (List.mem_replicate.mpr ⟨hlines, rfl⟩)
      cases ending with
      | lf => exact absurd hnil (by decide)
      | crlf => exact absurd hnil (by decide)
    · intro h l hl
      exact absurd h (List.mem_replicate.mp hl).1
  have hrestored : 0 < (restored code s).length ↔ s.start < s.stop ∧
      code[s.stop - 1]? = some carriageReturn ∧ code[s.stop]? = some lineFeed := by
    unfold restored
    split_ifs with h <;> simp [h]
  rw [fill, List.length_append, Nat.add_pos_iff_pos_or_pos, hbreaks, hrestored]
  rfl

theorem fillLength_pos (ending : LineEnding) (spans : List Span) : 0 < fillLength code ending spans ↔
    ∃ s ∈ spans, LeavesBreak code s := by
  induction spans with
  | nil => simp [fillLength]
  | cons s spans ih =>
    have hcons : fillLength code ending (s :: spans) =
        (fill code ending s).length + fillLength code ending spans := by
      simp [fillLength]
    rw [hcons, Nat.add_pos_iff_pos_or_pos, length_fill_pos, ih]
    simp

/-- No two bytes that only removed comments kept apart end side by side in the output where
they would form one token; `fuse` tells of which bytes of the text that is true. -/
def KeepsTokensApart (fuse : ℕ → ℕ → Prop) (code : Bytes) (spans : List Span) : Prop :=
  ∀ i j, Consecutive spans i j → i + 1 < j → fuse i j →
    outIndex code (.detect code) 0 spans j ≠ outIndex code (.detect code) 0 spans i + 1

theorem keepsTokensApart_iff (fuse : ℕ → ℕ → Prop) (code : Bytes) (spans : List Span)
    (h : InOrder code.length 0 spans.reverse) :
    (∃ out, removeFromCode code spans = some out ∧
        (∀ k, Kept spans.reverse k →
          out[outIndex code (.detect code) 0 spans.reverse k]? = code[k]?) ∧
        KeepsTokensApart fuse code spans.reverse) ↔
      ∀ i j, Consecutive spans.reverse i j → i + 1 < j → fuse i j →
        ∃ s ∈ between spans.reverse i j, LeavesBreak code s := by
  have hapart : ∀ i j, Consecutive spans.reverse i j →
      (outIndex code (.detect code) 0 spans.reverse j ≠
          outIndex code (.detect code) 0 spans.reverse i + 1 ↔
        ∃ s ∈ between spans.reverse i j, LeavesBreak code s) := by
    intro i j hij
    rw [← fillLength_pos (.detect code),
      outIndex_consecutive spans.reverse 0 h (Nat.zero_le i) hij]
    omega
  constructor
  · rintro ⟨out, -, -, hkeeps⟩ i j hij hgap hfuse
    exact (hapart i j hij).mp (hkeeps i j hij hgap hfuse)
  · intro hcond
    refine ⟨_, removeFromCode_eq h, ?_, ?_⟩
    · intro k hk
      exact getElem?_copied _ _ 0 h (Nat.zero_le k) hk
    · intro i j hij hgap hfuse
      exact (hapart i j hij).mpr (hcond i j hij hgap hfuse)

/-- Both bytes are identifier characters. -/
def identifierBytes (code : Bytes) (i j : ℕ) : Prop :=
  code[i]?.any Languages.CMacro.isIdentifierPart = true ∧
    code[j]?.any Languages.CMacro.isIdentifierPart = true

/-- `a`, a comment over a line break, `b`. -/
theorem keepsTokensApart_iff_break :
    (∃ out, removeFromCode [97, 47, 42, 10, 42, 47, 98] [⟨1, 6, 1⟩] = some out ∧
        (∀ k, Kept [⟨1, 6, 1⟩] k →
          out[outIndex [97, 47, 42, 10, 42, 47, 98] .lf 0 [⟨1, 6, 1⟩] k]? =
            [97, 47, 42, 10, 42, 47, 98][k]?) ∧
        KeepsTokensApart (identifierBytes [97, 47, 42, 10, 42, 47, 98])
          [97, 47, 42, 10, 42, 47, 98] [⟨1, 6, 1⟩]) ↔
      ∀ i j, Consecutive [⟨1, 6, 1⟩] i j → i + 1 < j →
        identifierBytes [97, 47, 42, 10, 42, 47, 98] i j →
        ∃ s ∈ between [⟨1, 6, 1⟩] i j, LeavesBreak [97, 47, 42, 10, 42, 47, 98] s :=
  keepsTokensApart_iff (identifierBytes [97, 47, 42, 10, 42, 47, 98])
    [97, 47, 42, 10, 42, 47, 98] [⟨1, 6, 1⟩] ⟨by decide, by decide, (by decide : 6 ≤ 7)⟩

/-- `a` and `b` around an empty block comment become `ab`. -/
theorem removeFromCode_fuses :
    removeFromCode [97, 47, 42, 42, 47, 98] [⟨1, 5, 0⟩] = some [97, 98] ∧
      ¬ KeepsTokensApart (identifierBytes [97, 47, 42, 42, 47, 98]) [97, 47, 42, 42, 47, 98]
        [⟨1, 5, 0⟩] := by
  refine ⟨rfl, ?_⟩
  intro h
  refine h 0 5 ⟨by decide, ?_, ?_, ?_⟩ (by decide) ⟨rfl, rfl⟩ rfl
  · simp [Kept]
  · simp [Kept]
  · intro k hk hkj hkept
    have hout := hkept ⟨1, 5, 0⟩ List.mem_cons_self
    dsimp only at hout
    omega

end BigCodeAnalysis.Comments
