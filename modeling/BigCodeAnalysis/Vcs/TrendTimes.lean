import BigCodeAnalysis.Sequences.Fallible
import BigCodeAnalysis.Vcs.Window
import Mathlib.Algebra.Order.Group.Int
import Mathlib.Tactic.Linarith

/-! The times at which a trend samples a history. They are spaced evenly exactly where the
oldest one is an `i64` and the span times the number of gaps is: a larger product
saturates and bends the series away from its end. -/

namespace BigCodeAnalysis.Vcs

variable {stop span : ℤ} {points : ℕ}

/-- `saturating_mul` of two `i64`. -/
def saturatingMul (a b : ℤ) : ℤ := max i64Min (min i64Max (a * b))

/-- `i64::try_from(n).unwrap_or(i64::MAX)`. -/
def i64OfCount (n : ℕ) : ℤ := min n i64Max

/-- The time of point `i`; `none` where the sum overflows. -/
def timestampAt (start spanSecs divisor : ℤ) (i : ℕ) : Option ℤ :=
  checkedAdd start ((saturatingMul spanSecs (i64OfCount i)).tdiv divisor)

def timestamps (stop spanSecs : ℤ) (points : ℕ) : Option (List ℤ) :=
  if points ≤ 1 then some [stop]
  else
    let start := saturatingSub stop spanSecs
    let divisor := i64OfCount (points - 1)
    (List.range points).mapM (timestampAt start spanSecs divisor)

/-- Times evenly spaced over the span, the last one at its end. -/
structure EvenlySpaced (stop span : ℤ) (points : ℕ) (times : List ℤ) : Prop where
  length : times.length = points
  first : times.head? = some (stop - span)
  last : times.getLast? = some stop
  ascending : times.Pairwise (· ≤ ·)
  exact : ∀ i < points, times[i]? = some (stop - span + span * i / (points - 1))

/-- Nothing on the way saturates. -/
structure ExactTerms (stop span : ℤ) (points : ℕ) : Prop where
  start : saturatingSub stop span = stop - span
  count : ∀ i < points, i64OfCount i = i
  product : ∀ i < points, saturatingMul span (i64OfCount i) = span * i

theorem saturatingSub_eq {a b : ℤ} (h : IsI64 (a - b)) : saturatingSub a b = a - b := by
  obtain ⟨hlow, hhigh⟩ := h
  rw [saturatingSub]
  omega

theorem saturatingMul_eq {a b : ℤ} (h : IsI64 (a * b)) : saturatingMul a b = a * b := by
  obtain ⟨hlow, hhigh⟩ := h
  rw [saturatingMul, min_eq_right hhigh, max_eq_right hlow]

theorem saturatingMul_of_ge {a b : ℤ} (h : i64Max ≤ a * b) : saturatingMul a b = i64Max := by
  rw [saturatingMul, min_eq_left h]
  decide

theorem i64OfCount_eq {n : ℕ} (h : (n : ℤ) ≤ i64Max) : i64OfCount n = n := min_eq_left h

theorem i64OfCount_of_ge {n : ℕ} (h : i64Max ≤ n) : i64OfCount n = i64Max := min_eq_right h

/-! ### Where the terms are exact -/

theorem exactTerms (hstop : IsI64 stop) (hspan : 0 < span) (hstart : i64Min ≤ stop - span)
    (hproduct : span * (points - 1 : ℤ) ≤ i64Max) : ExactTerms stop span points := by
  have hcount : ∀ i < points, i64OfCount i = i := by
    intro i hi
    refine i64OfCount_eq ?_
    have hone : (points - 1 : ℤ) ≤ span * (points - 1) := by nlinarith
    omega
  have hmin : i64Min ≤ 0 := by decide
  refine ⟨saturatingSub_eq ⟨hstart, ?_⟩, hcount, fun i hi => ?_⟩
  · have := hstop.2
    omega
  · rw [hcount i hi]
    refine saturatingMul_eq ⟨?_, ?_⟩
    · have : 0 ≤ span * (i : ℤ) := by positivity
      omega
    · have hle : (i : ℤ) ≤ points - 1 := by omega
      nlinarith

/-- The offset of a point is at most the span. -/
theorem offset_le (hspan : 0 < span) (hpoints : 2 ≤ points) {i : ℕ} (hi : i < points) :
    0 ≤ span * i / (points - 1 : ℤ) ∧ span * i / (points - 1 : ℤ) ≤ span := by
  have hgaps : (0 : ℤ) < points - 1 := by omega
  constructor
  · exact Int.ediv_nonneg (by positivity) hgaps.le
  · refine Int.ediv_le_of_le_mul hgaps ?_
    have hle : (i : ℤ) ≤ points - 1 := by omega
    nlinarith

theorem timestampAt_eq (hstop : IsI64 stop) (hspan : 0 < span) (hpoints : 2 ≤ points)
    (hstart : i64Min ≤ stop - span) (h : ExactTerms stop span points) {i : ℕ} (hi : i < points) :
    timestampAt (saturatingSub stop span) span (i64OfCount (points - 1)) i =
      some (stop - span + span * i / (points - 1)) := by
  have hlast : i64OfCount (points - 1) = (points - 1 : ℤ) := by
    rw [h.count _ (by omega)]
    omega
  obtain ⟨hnonneg, hle⟩ := offset_le hspan hpoints hi
  have hproduct : 0 ≤ span * (i : ℤ) := by positivity
  rw [timestampAt, h.start, h.product i hi, hlast, Int.tdiv_eq_ediv_of_nonneg hproduct]
  refine toI64_eq_some.mpr ⟨rfl, by omega, ?_⟩
  have := hstop.2
  omega

theorem timestamps_eq (hstop : IsI64 stop) (hspan : 0 < span) (hpoints : 2 ≤ points)
    (hstart : i64Min ≤ stop - span) (h : ExactTerms stop span points) :
    timestamps stop span points =
      some ((List.range points).map fun i : ℕ => stop - span + span * i / (points - 1)) := by
  rw [timestamps, if_neg (by omega)]
  exact Sequences.mapM_eq_some fun i hi =>
    timestampAt_eq hstop hspan hpoints hstart h (List.mem_range.mp hi)

theorem evenlySpaced_map (hspan : 0 < span) (hpoints : 2 ≤ points) :
    EvenlySpaced stop span points
      ((List.range points).map fun i : ℕ => stop - span + span * i / (points - 1)) := by
  have hgaps : (0 : ℤ) < points - 1 := by omega
  have hexact : ∀ i < points, ((List.range points).map fun i : ℕ =>
      stop - span + span * i / (points - 1))[i]? =
        some (stop - span + span * i / (points - 1)) := by
    intro i hi
    rw [List.getElem?_map, List.getElem?_range hi]
    rfl
  refine ⟨by simp, ?_, ?_, ?_, hexact⟩
  · rw [List.head?_eq_getElem?, hexact 0 (by omega)]
    simp
  · rw [List.getLast?_eq_getElem?, List.length_map, List.length_range,
      hexact _ (by omega)]
    have hcast : ((points - 1 : ℕ) : ℤ) = points - 1 := by omega
    rw [hcast, Int.mul_ediv_cancel _ hgaps.ne']
    congr 1
    omega
  · refine List.pairwise_map.mpr (List.pairwise_lt_range.imp fun {i j} hij => ?_)
    have hle : span * (i : ℤ) ≤ span * j := by nlinarith
    have := Int.ediv_le_ediv hgaps hle
    omega

/-! ### Where they are not -/

/-- Two points of the list tell a saturated product: the last one, and for a span of one
second the first point whose number saturates. -/
theorem product_le_of_spaced (hspan : 0 < span) (hpoints : 2 ≤ points)
    (hterms : ∀ i < points, (saturatingMul span (i64OfCount i)).tdiv (i64OfCount (points - 1)) =
      span * i / (points - 1)) : span * (points - 1 : ℤ) ≤ i64Max := by
  by_contra hover
  have hover := not_le.mp hover
  have hgaps : (0 : ℤ) < points - 1 := by omega
  have hmax : 0 < i64Max := by decide
  have hcast : ((points - 1 : ℕ) : ℤ) = points - 1 := by omega
  have hlast := hterms (points - 1) (by omega)
  rw [hcast, Int.mul_ediv_cancel _ hgaps.ne'] at hlast
  by_cases hcount : (points - 1 : ℤ) ≤ i64Max
  · have heq : i64OfCount (points - 1) = (points - 1 : ℤ) := by
      rw [i64OfCount_eq (by omega), hcast]
    rw [heq, saturatingMul_of_ge hover.le, Int.tdiv_eq_ediv_of_nonneg hmax.le] at hlast
    have hlt : i64Max / (points - 1 : ℤ) < span := Int.ediv_lt_of_lt_mul hgaps hover
    omega
  · have heq : i64OfCount (points - 1) = i64Max := i64OfCount_of_ge (by omega)
    have hge : i64Max ≤ span * i64Max := by nlinarith
    rw [heq, saturatingMul_of_ge hge, Int.tdiv_self hmax.ne'] at hlast
    have hfirst := hterms i64Max.toNat (by omega)
    have hnat : ((i64Max.toNat : ℕ) : ℤ) = i64Max := Int.toNat_of_nonneg hmax.le
    rw [heq, i64OfCount_of_ge hnat.ge, saturatingMul_of_ge hge, Int.tdiv_self hmax.ne', hnat,
      ← hlast, one_mul, Int.ediv_eq_zero_of_lt hmax.le (by omega)] at hfirst
    omega

theorem terms_of_spaced (hpoints : 2 ≤ points) {times : List ℤ}
    (h : timestamps stop span points = some times) (heven : EvenlySpaced stop span points times) :
    saturatingSub stop span = stop - span ∧
    ∀ i < points, (saturatingMul span (i64OfCount i)).tdiv (i64OfCount (points - 1)) =
      span * i / (points - 1) := by
  rw [timestamps, if_neg (by omega)] at h
  have hget : ∀ i < points, timestampAt (saturatingSub stop span) span
      (i64OfCount (points - 1)) i = some (stop - span + span * i / (points - 1)) := by
    intro i hi
    rw [Sequences.getElem?_of_mapM h (List.getElem?_range hi)]
    exact heven.exact i hi
  have hstart : saturatingSub stop span = stop - span := by
    have hzero := (toI64_eq_some.mp (hget 0 (by omega))).1
    have hcount : i64OfCount 0 = 0 := by decide
    have hnone : saturatingMul span 0 = 0 := by
      rw [saturatingMul_eq (by rw [mul_zero]; decide), mul_zero]
    rw [hcount, hnone, Int.zero_tdiv] at hzero
    simpa using hzero
  refine ⟨hstart, fun i hi => ?_⟩
  have hi := (toI64_eq_some.mp (hget i hi)).1
  rw [hstart] at hi
  omega

theorem start_of_saturatingSub (h : saturatingSub stop span = stop - span) :
    i64Min ≤ stop - span := by
  rw [← h]
  exact le_max_left _ _

/-- The times are evenly spaced exactly where the oldest of them and the span times the
number of gaps are `i64`. Nothing on the way saturates then. -/
theorem timestamps_evenlySpaced_iff {debug : String → String} {debugChar : Char → String}
    {spec : String} (hstop : IsI64 stop) (hspec : parseWindow debug debugChar spec = .ok span)
    (hpoints : 2 ≤ points) :
    ((∃ times, timestamps stop span points = some times ∧
        EvenlySpaced stop span points times ∧ ExactTerms stop span points) ↔
      i64Min ≤ stop - span ∧ span * (points - 1 : ℤ) ≤ i64Max) ∧
    ((∃ times, timestamps stop span points = some times ∧
        EvenlySpaced stop span points times) →
      ExactTerms stop span points) := by
  have hspan := (parseWindow_ok hspec).1
  have hterms : (∃ times, timestamps stop span points = some times ∧
      EvenlySpaced stop span points times) →
      i64Min ≤ stop - span ∧ span * (points - 1 : ℤ) ≤ i64Max := by
    rintro ⟨times, htimes, heven⟩
    obtain ⟨hstart, hproducts⟩ := terms_of_spaced hpoints htimes heven
    exact ⟨start_of_saturatingSub hstart, product_le_of_spaced hspan hpoints hproducts⟩
  refine ⟨⟨?_, ?_⟩, ?_⟩
  · rintro ⟨times, htimes, heven, -⟩
    exact hterms ⟨times, htimes, heven⟩
  · rintro ⟨hstart, hproduct⟩
    have hexact := exactTerms hstop hspan hstart hproduct
    exact ⟨_, timestamps_eq hstop hspan hpoints hstart hexact,
      evenlySpaced_map hspan hpoints, hexact⟩
  · intro heven
    obtain ⟨hstart, hproduct⟩ := hterms heven
    exact exactTerms hstop hspan hstart hproduct

theorem timestamps_evenlySpaced_day :
    ∃ times, timestamps 0 86400 3 = some times ∧ EvenlySpaced 0 86400 3 times ∧
      ExactTerms 0 86400 3 :=
  (timestamps_evenlySpaced_iff (by decide : IsI64 0)
    (by decide +kernel : parseWindow id toString "1d" = .ok 86400) (by decide)).1.mpr
    ⟨by decide, by decide⟩

/-- The series of a span of 106751991167300 days ends half a span before its end. -/
theorem timestamps_bend :
    parseWindow id toString "106751991167300d" = .ok 9223372036854720000 ∧
    ∃ times, timestamps 0 9223372036854720000 3 = some times ∧
      times.getLast? = some (-4611686018427332097) ∧
      ¬ EvenlySpaced 0 9223372036854720000 3 times := by
  refine ⟨by decide +kernel, [-9223372036854720000, -4611686018427360000, -4611686018427332097],
    by decide +kernel, by decide, fun heven => ?_⟩
  exact absurd heven.last (by decide)

end BigCodeAnalysis.Vcs
