import BigCodeAnalysis.Sequences.PartitionPoint
import Mathlib.Algebra.GroupWithZero.Nat
import Mathlib.Algebra.Order.Field.Rat
import Mathlib.Algebra.Order.Group.Unbundled.Abs
import Mathlib.Data.List.Sort
import Mathlib.Tactic.Linarith
import Mathlib.Tactic.NormNum

/-! Mid-rank percentiles by binary search, over exact rationals. They are those of a scan
of all values. A value exactly the tolerance below another one counts for it neither as
less nor as tied, and there alone a larger value can rank lower than a smaller one. -/

namespace BigCodeAnalysis.Vcs

open Sequences

variable {tolerance : ℚ} {values : List ℚ} {v w : ℚ}

/-- `TIE_TOLERANCE`. -/
def tieTolerance : ℚ := 1 / 10 ^ 9

def clampUnit (x : ℚ) : ℚ := if x < 0 then 0 else if 1 < x then 1 else x

def midRankPercentiles (tolerance : ℚ) (values : List ℚ) : List ℚ :=
  let n := values.length
  let sorted := values.insertionSort (· ≤ ·)
  values.map fun v =>
    let less := partitionPoint (fun o => decide (o < v - tolerance)) sorted
    let belowBand := partitionPoint (fun o => decide (o - v ≤ -tolerance)) sorted
    let belowOrInBand := partitionPoint (fun o => decide (o - v < tolerance)) sorted
    let equal := belowOrInBand - belowBand
    clampUnit (((less : ℚ) + ((equal : ℚ) - 1) / 2) / ((n : ℚ) - 1))

/-! ### The scan -/

/-- The values strictly below the tolerance band of `v`. -/
def below (tolerance : ℚ) (values : List ℚ) (v : ℚ) : ℕ :=
  values.countP fun o => decide (o < v - tolerance)

/-- The values within the tolerance of `v`, itself among them. -/
def tied (tolerance : ℚ) (values : List ℚ) (v : ℚ) : ℕ :=
  values.countP fun o => decide (|o - v| < tolerance)

/-- The mid-rank percentile of `v`: what is below it and half of the other ties. -/
def midRank (tolerance : ℚ) (values : List ℚ) (v : ℚ) : ℚ :=
  ((below tolerance values v : ℚ) + ((tied tolerance values v : ℚ) - 1) / 2) /
    ((values.length : ℚ) - 1)

/-! ### Counts -/

theorem countP_sorted (values : List ℚ) (p : ℚ → Bool) :
    (values.insertionSort (· ≤ ·)).countP p = values.countP p :=
  (List.perm_insertionSort (· ≤ ·) values).countP_eq p

theorem partitionPoint_sorted {p : ℚ → Bool} (hp : ∀ a b, a ≤ b → p b = true → p a = true) :
    partitionPoint p (values.insertionSort (· ≤ ·)) = values.countP p := by
  rw [partitionPoint_eq (.of_sorted (List.pairwise_insertionSort (· ≤ ·) values) hp),
    countP_sorted]

theorem countP_band (ht : 0 < tolerance) :
    (values.countP fun o => decide (o - v < tolerance)) =
      (values.countP fun o => decide (o - v ≤ -tolerance)) + tied tolerance values v := by
  refine countP_add (fun o => ?_) values
  by_cases hbelow : o - v ≤ -tolerance
  · have hlt : o - v < tolerance := by linarith
    have hout : ¬ |o - v| < tolerance := fun h => by
      have := (abs_lt.mp h).1
      linarith
    simp [hbelow, hlt, hout]
  · by_cases hlt : o - v < tolerance
    · have hin : |o - v| < tolerance := abs_lt.mpr ⟨by linarith, hlt⟩
      simp [hbelow, hlt, hin]
    · have hout : ¬ |o - v| < tolerance := fun h => hlt (abs_lt.mp h).2
      simp [hbelow, hlt, hout]

theorem tied_pos (ht : 0 < tolerance) (hv : v ∈ values) : 0 < tied tolerance values v := by
  refine List.countP_pos_iff.mpr ⟨v, hv, ?_⟩
  simpa using ht

/-- The values before the end of the band, and those a whole tolerance below. -/
theorem countP_end (ht : 0 < tolerance) (values : List ℚ) (v : ℚ) :
    (values.countP fun o => decide (o < v + tolerance)) =
      below tolerance values v + values.count (v - tolerance) + tied tolerance values v := by
  have hedge : (values.countP fun o => decide (o - v ≤ -tolerance)) =
      below tolerance values v + values.count (v - tolerance) := by
    refine countP_add (fun o => ?_) values
    rcases lt_trichotomy o (v - tolerance) with h | h | h
    · have hle : o - v ≤ -tolerance := by linarith
      simp [h, hle, h.ne]
    · have hle : o - v ≤ -tolerance := by linarith
      simp [h]
    · have hgt : ¬ o - v ≤ -tolerance := by
        intro hle
        linarith
      have hne : (o == v - tolerance) = false := beq_false_of_ne h.ne'
      simp [hgt, h.not_gt, hne]
  rw [← hedge, ← countP_band ht]
  exact List.countP_congr fun o _ => by simp [sub_lt_iff_lt_add']

theorem countP_lt_add {x y : ℚ} (h : x ≤ y) (values : List ℚ) :
    (values.countP fun o => decide (o < y)) =
      (values.countP fun o => decide (o < x)) +
        values.countP fun o => decide (x ≤ o ∧ o < y) := by
  refine countP_add (fun o => ?_) values
  by_cases hx : o < x
  · have hy : o < y := hx.trans_le h
    simp [hx, hy, hx.not_ge]
  · simp [hx, not_lt.mp hx]

theorem below_add_tied_le (ht : 0 < tolerance) (values : List ℚ) (v : ℚ) :
    below tolerance values v + tied tolerance values v ≤ values.length := by
  have hend := countP_end ht values v
  have hle := List.countP_le_length (p := fun o => decide (o < v + tolerance)) (l := values)
  omega

/-! ### The percentiles -/

theorem midRank_bounds (ht : 0 < tolerance) (hlen : 2 ≤ values.length) (hv : v ∈ values) :
    0 ≤ midRank tolerance values v ∧ midRank tolerance values v ≤ 1 := by
  have hpos := tied_pos ht hv
  have hsum := below_add_tied_le ht values v
  have hn : (2 : ℚ) ≤ values.length := by exact_mod_cast hlen
  have htied : (1 : ℚ) ≤ tied tolerance values v := by exact_mod_cast hpos
  have hbelow : (0 : ℚ) ≤ below tolerance values v := by positivity
  have hle : (below tolerance values v : ℚ) + tied tolerance values v ≤ values.length := by
    exact_mod_cast hsum
  have hden : (0 : ℚ) < values.length - 1 := by linarith
  constructor
  · exact div_nonneg (by linarith) hden.le
  · rw [midRank, div_le_one₀ hden]
    linarith

theorem clampUnit_midRank (ht : 0 < tolerance) (hlen : 2 ≤ values.length) (hv : v ∈ values) :
    clampUnit (midRank tolerance values v) = midRank tolerance values v := by
  obtain ⟨hlow, hhigh⟩ := midRank_bounds ht hlen hv
  rw [clampUnit, if_neg hlow.not_gt, if_neg hhigh.not_gt]

theorem midRank_le_iff (ht : 0 < tolerance) (hlen : 2 ≤ values.length) (hlt : v < w) :
    midRank tolerance values v ≤ midRank tolerance values w ↔
      values.count (w - tolerance) ≤
        (values.countP fun o => decide (v - tolerance ≤ o ∧ o < w - tolerance)) +
          values.count (v - tolerance) +
          values.countP fun o => decide (v + tolerance ≤ o ∧ o < w + tolerance) := by
  have hn : (2 : ℚ) ≤ values.length := by exact_mod_cast hlen
  have hden : (0 : ℚ) < values.length - 1 := by linarith
  have hends := countP_end ht values v
  have hendw := countP_end ht values w
  have hlow : below tolerance values w = below tolerance values v + _ :=
    countP_lt_add (by linarith : v - tolerance ≤ w - tolerance) values
  have hhigh := countP_lt_add (by linarith : v + tolerance ≤ w + tolerance) values
  have hnat : midRank tolerance values v ≤ midRank tolerance values w ↔
      2 * below tolerance values v + tied tolerance values v ≤
        2 * below tolerance values w + tied tolerance values w := by
    rw [midRank, midRank, div_le_div_iff_of_pos_right hden]
    have hcast : (2 * below tolerance values v + tied tolerance values v ≤
        2 * below tolerance values w + tied tolerance values w) ↔
        (2 * below tolerance values v + tied tolerance values v : ℚ) ≤
          2 * below tolerance values w + tied tolerance values w := by
      exact_mod_cast Iff.rfl
    rw [hcast]
    constructor <;> intro h <;> linarith
  rw [hnat]
  omega

/-- The binary searches count what the scan counts, and the percentiles follow the order
of the values except where a crowd lies exactly the tolerance below the larger one. -/
theorem midRankPercentiles_scan (ht : 0 < tolerance) (hlen : 2 ≤ values.length) :
    midRankPercentiles tolerance values = values.map (midRank tolerance values) ∧
    ∀ v ∈ values, ∀ w ∈ values, v < w →
      (midRank tolerance values v ≤ midRank tolerance values w ↔
        values.count (w - tolerance) ≤
          (values.countP fun o => decide (v - tolerance ≤ o ∧ o < w - tolerance)) +
            values.count (v - tolerance) +
            values.countP fun o => decide (v + tolerance ≤ o ∧ o < w + tolerance)) := by
  constructor
  · refine List.map_congr_left fun v hv => ?_
    have hless : partitionPoint (fun o => decide (o < v - tolerance))
        (values.insertionSort (· ≤ ·)) = below tolerance values v := by
      refine partitionPoint_sorted fun a b hab hb => ?_
      have hb := of_decide_eq_true hb
      exact decide_eq_true (by linarith)
    have hband : partitionPoint (fun o => decide (o - v ≤ -tolerance))
        (values.insertionSort (· ≤ ·)) =
        values.countP fun o => decide (o - v ≤ -tolerance) := by
      refine partitionPoint_sorted fun a b hab hb => ?_
      have hb := of_decide_eq_true hb
      exact decide_eq_true (by linarith)
    have hend : partitionPoint (fun o => decide (o - v < tolerance))
        (values.insertionSort (· ≤ ·)) =
        values.countP fun o => decide (o - v < tolerance) := by
      refine partitionPoint_sorted fun a b hab hb => ?_
      have hb := of_decide_eq_true hb
      exact decide_eq_true (by linarith)
    dsimp only
    rw [hless, hband, hend, countP_band ht, Nat.add_sub_cancel_left]
    exact clampUnit_midRank ht hlen hv
  · intro v _ w _ hlt
    exact midRank_le_iff ht hlen hlt

theorem midRankPercentiles_scan_tie :
    midRankPercentiles tieTolerance [1, 0, 1] = [3 / 4, 0, 3 / 4] ∧
    midRank tieTolerance [1, 0, 1] 0 ≤ midRank tieTolerance [1, 0, 1] 1 := by
  have hscan := midRankPercentiles_scan (by decide +kernel : 0 < tieTolerance)
    (by decide : 2 ≤ [1, 0, (1 : ℚ)].length)
  refine ⟨?_, (hscan.2 0 (by simp) 1 (by simp) (by norm_num)).mpr (by decide +kernel)⟩
  rw [hscan.1]
  decide +kernel

/-- The largest value ranks below the middle one. -/
theorem midRankPercentiles_not_monotone :
    tieTolerance / 2 < tieTolerance ∧
    midRankPercentiles tieTolerance [0, tieTolerance / 2, tieTolerance] =
      [1 / 4, 1 / 2, 1 / 4] := by
  constructor <;> decide +kernel

end BigCodeAnalysis.Vcs
