import Mathlib.Algebra.Order.Ring.Rat
import Mathlib.Data.Prod.Lex
import Mathlib.Data.Rat.Defs
import Mathlib.Order.Compare

/-! Metric values and which of two is worse. A finite float is the rational it stands for; the
two signed zeros are one value. -/

namespace BigCodeAnalysis.Catalog

inductive F64 where
  | nan
  | infinite (negative : Bool)
  | finite (value : ℚ)
  deriving DecidableEq, Repr

namespace F64

def isNan : F64 → Bool
  | nan => true
  | _ => false

def isFinite : F64 → Bool
  | finite _ => true
  | _ => false

/-- `partial_cmp`, with a NaN equal to everything. -/
def numeric : F64 → F64 → Ordering
  | finite a, finite b => cmp a b
  | infinite s, infinite t => cmp t s
  | infinite s, finite _ => if s then .lt else .gt
  | finite _, infinite s => if s then .gt else .lt
  | _, _ => .eq

def partialCmp (a b : F64) : Option Ordering :=
  if a.isNan || b.isNan then none else some (a.numeric b)

end F64

inductive Direction where
  | higherIsWorse
  | lowerIsWorse
  deriving DecidableEq, Repr

/-- Badness of two values: greater is worse, and a NaN is the worst. -/
def cmpWorse (direction : Direction) (a b : F64) : Ordering :=
  match a.isNan, b.isNan with
  | true, true => .eq
  | true, false => .gt
  | false, true => .lt
  | false, false =>
    match direction with
    | .higherIsWorse => a.numeric b
    | .lowerIsWorse => b.numeric a

/-- The badness of a value in a linear order. -/
def badness (direction : Direction) : F64 → ℕ ×ₗ ℚ
  | .nan => toLex (3, 0)
  | .infinite negative =>
    match direction with
    | .higherIsWorse => toLex (if negative then 0 else 2, 0)
    | .lowerIsWorse => toLex (if negative then 2 else 0, 0)
  | .finite value =>
    match direction with
    | .higherIsWorse => toLex (1, value)
    | .lowerIsWorse => toLex (1, -value)

theorem cmp_toLex {α β : Type*} [LinearOrder α] [LinearOrder β] (m n : α) (a b : β) :
    cmp (toLex (m, a)) (toLex (n, b)) = (cmp m n).then (cmp a b) := by
  rcases lt_trichotomy m n with h | rfl | h
  · have hlex : toLex (m, a) < toLex (n, b) := Prod.Lex.toLex_lt_toLex.mpr (.inl h)
    rw [hlex.cmp_eq_lt, h.cmp_eq_lt]
    rfl
  · rw [cmp_self_eq_eq, Ordering.eq_then]
    rcases lt_trichotomy a b with h | rfl | h
    · have hlex : toLex (m, a) < toLex (m, b) := Prod.Lex.toLex_lt_toLex.mpr (.inr ⟨rfl, h⟩)
      rw [hlex.cmp_eq_lt, h.cmp_eq_lt]
    · rw [cmp_self_eq_eq, cmp_self_eq_eq]
    · have hlex : toLex (m, b) < toLex (m, a) := Prod.Lex.toLex_lt_toLex.mpr (.inr ⟨rfl, h⟩)
      rw [hlex.cmp_eq_gt, h.cmp_eq_gt]
  · have hlex : toLex (n, b) < toLex (m, a) := Prod.Lex.toLex_lt_toLex.mpr (.inl h)
    rw [hlex.cmp_eq_gt, h.cmp_eq_gt]
    rfl

/-- The comparison is that of a linear order. -/
theorem cmpWorse_eq_cmp (direction : Direction) (a b : F64) :
    cmpWorse direction a b = cmp (badness direction a) (badness direction b) := by
  have hneg : ∀ x y : ℚ, cmp (-x) (-y) = cmp y x := by
    intro x y
    rcases lt_trichotomy x y with h | rfl | h
    · rw [h.cmp_eq_gt, (neg_lt_neg h).cmp_eq_gt]
    · rw [cmp_self_eq_eq, cmp_self_eq_eq]
    · rw [h.cmp_eq_lt, (neg_lt_neg h).cmp_eq_lt]
  cases direction with
  | higherIsWorse =>
    rcases a with _ | s | x <;> rcases b with _ | t | y <;>
      dsimp only [badness, cmpWorse, F64.isNan, F64.numeric] <;> rw [cmp_toLex]
    all_goals first | rfl | (cases s <;> first | rfl | (cases t <;> rfl)) | (cases t <;> rfl)
  | lowerIsWorse =>
    rcases a with _ | s | x <;> rcases b with _ | t | y <;>
      dsimp only [badness, cmpWorse, F64.isNan, F64.numeric] <;> rw [cmp_toLex] <;>
      try rw [hneg]
    all_goals first | rfl | (cases s <;> first | rfl | (cases t <;> rfl)) | (cases t <;> rfl)

/-- A value is not worse than a recorded one when its badness is at most that. -/
theorem cmpWorse_ne_gt_iff {direction : Direction} {a b : F64} :
    cmpWorse direction a b ≠ .gt ↔ badness direction a ≤ badness direction b := by
  rw [cmpWorse_eq_cmp, Ne, cmp_eq_gt_iff, not_lt]

theorem isNan_of_isFinite {a : F64} (h : a.isFinite) : a.isNan = false := by
  cases a with
  | nan => cases h
  | infinite => rfl
  | finite => rfl

theorem numeric_eq_cmp {a b : F64} (ha : a.isNan = false) (hb : b.isNan = false) :
    a.numeric b = cmp (badness .higherIsWorse a) (badness .higherIsWorse b) := by
  rw [← cmpWorse_eq_cmp]
  simp [cmpWorse, ha, hb]

theorem badness_injective (direction : Direction) : Function.Injective (badness direction) := by
  intro a b h
  cases direction <;> rcases a with _ | _ | _ <;> rcases b with _ | _ | _ <;>
    simp [badness, Prod.ext_iff] at h ⊢ <;> grind

end BigCodeAnalysis.Catalog
