import Mathlib

/-! Double precision. A rational is rounded to 53 significant bits, a tie to the even neighbour,
and to no place below `2 ^ (-1074)`; above, the exponent goes on without end. Rounding is
monotone, commutes with negation, leaves every integer up to `2 ^ 53` as it is, errs by at most
one part in `2 ^ 53`, and the rounded difference of two rounded numbers is zero for equal ones
only. -/

namespace BigCodeAnalysis.Numbers

/-! ### Integers -/

/-- The nearest integer, and the even one of two. -/
def toEven (q : ℚ) : ℤ := if Even ⌊q⌋ then ⌈q - 1 / 2⌉ else ⌊q + 1 / 2⌋

theorem toEven_intCast (k : ℤ) : toEven k = k := by
  unfold toEven
  split_ifs
  · exact Int.ceil_eq_iff.mpr ⟨by linarith, by linarith⟩
  · exact Int.floor_eq_iff.mpr ⟨by linarith, by linarith⟩

theorem floor_le_toEven (q : ℚ) : ⌊q⌋ ≤ toEven q := by
  have hfloor := Int.floor_le q
  unfold toEven
  split_ifs
  · exact Int.le_ceil_iff.mpr (by linarith)
  · exact Int.floor_le_floor (by linarith)

theorem toEven_le (q : ℚ) : toEven q ≤ ⌊q⌋ + 1 := by
  have hfloor := Int.lt_floor_add_one q
  unfold toEven
  split_ifs
  · exact Int.ceil_le.mpr (by push_cast; linarith)
  · exact Int.lt_add_one_iff.mp (Int.floor_lt.mpr (by push_cast; linarith))

theorem toEven_monotone : Monotone toEven := by
  intro p q h
  rcases (Int.floor_le_floor h).eq_or_lt with heq | hlt
  · unfold toEven
    rw [heq]
    split_ifs
    · exact Int.ceil_le_ceil (by linarith)
    · exact Int.floor_le_floor (by linarith)
  · have hp := toEven_le p
    have hq := floor_le_toEven q
    omega

theorem toEven_neg (q : ℚ) : toEven (-q) = -toEven q := by
  by_cases hint : (⌊q⌋ : ℚ) = q
  · rw [← hint, ← Int.cast_neg, toEven_intCast, toEven_intCast]
  · -- the two neighbours have different parities
    have hceil : ⌈q⌉ = ⌊q⌋ + 1 :=
      (Int.ceil_eq_floor_add_one_iff_notMem q).mpr fun ⟨k, hk⟩ => hint (by rw [← hk, Int.floor_intCast])
    have hparity : Even ⌊-q⌋ ↔ ¬ Even ⌊q⌋ := by
      rw [Int.floor_neg, even_neg, hceil, Int.even_add_one]
    unfold toEven
    by_cases heven : Even ⌊q⌋
    · rw [if_neg (not_not.mpr heven ∘ hparity.mp), if_pos heven, ← Int.floor_neg]
      congr 1
      ring
    · rw [if_pos (hparity.mpr heven), if_neg heven, ← Int.ceil_neg]
      congr 1
      ring

theorem abs_toEven_sub_le (q : ℚ) : |(toEven q : ℚ) - q| ≤ 1 / 2 := by
  rw [abs_le]
  unfold toEven
  split_ifs
  · have hle := Int.le_ceil (q - 1 / 2)
    have hlt := Int.ceil_lt_add_one (q - 1 / 2)
    constructor <;> linarith
  · have hle := Int.floor_le (q + 1 / 2)
    have hlt := Int.lt_floor_add_one (q + 1 / 2)
    constructor <;> linarith

/-! ### Rounding -/

/-- The exponent of the last place of `x`. -/
def lastPlace (x : ℚ) : ℤ := max (Int.log 2 |x| - 52) (-1074)

/-- The nearest number of double precision. -/
def binary64 (x : ℚ) : ℚ := toEven (x / 2 ^ lastPlace x) * 2 ^ lastPlace x

theorem two_zpow_pos (e : ℤ) : (0 : ℚ) < 2 ^ e := zpow_pos two_pos e

/-- A power of two is a multiple of the smaller ones. -/
theorem two_zpow_multiple {e f : ℤ} (h : e ≤ f) : ∃ k : ℤ, (2 : ℚ) ^ f = k * 2 ^ e := by
  obtain ⟨d, rfl⟩ := Int.le.dest h
  refine ⟨2 ^ d, ?_⟩
  rw [zpow_add₀ two_ne_zero, zpow_natCast, mul_comm]
  push_cast
  rfl

theorem lastPlace_neg (x : ℚ) : lastPlace (-x) = lastPlace x := by rw [lastPlace, abs_neg, lastPlace]

theorem binary64_neg (x : ℚ) : binary64 (-x) = -binary64 x := by
  rw [binary64, lastPlace_neg, neg_div, toEven_neg, binary64, Int.cast_neg, neg_mul]

section Multiples
variable {x : ℚ} {k : ℤ}

theorem multiple_le (h : k * 2 ^ lastPlace x ≤ x) : k * 2 ^ lastPlace x ≤ binary64 x := by
  have hle : (k : ℚ) ≤ x / 2 ^ lastPlace x := (le_div_iff₀ (two_zpow_pos _)).mpr h
  have hround := toEven_monotone hle
  rw [toEven_intCast] at hround
  exact mul_le_mul_of_nonneg_right (mod_cast hround) (two_zpow_pos _).le

theorem le_multiple (h : x ≤ k * 2 ^ lastPlace x) : binary64 x ≤ k * 2 ^ lastPlace x := by
  have hle : x / 2 ^ lastPlace x ≤ k := (div_le_iff₀ (two_zpow_pos _)).mpr h
  have hround := toEven_monotone hle
  rw [toEven_intCast] at hround
  exact mul_le_mul_of_nonneg_right (mod_cast hround) (two_zpow_pos _).le

/-- A multiple of the last place, or of a higher one, is not rounded. -/
theorem binary64_of_multiple {e : ℤ} (h : x = k * 2 ^ e) (he : lastPlace x ≤ e) :
    binary64 x = x := by
  obtain ⟨m, hm⟩ := two_zpow_multiple he
  have hx : x = ((k * m : ℤ) : ℚ) * 2 ^ lastPlace x := by
    rw [Int.cast_mul, mul_assoc, ← hm]
    exact h
  apply le_antisymm
  · exact (le_multiple hx.le).trans hx.ge
  · exact hx.le.trans (multiple_le hx.ge)

end Multiples

theorem binary64_nonneg {x : ℚ} (h : 0 ≤ x) : 0 ≤ binary64 x := by
  have hle := multiple_le (x := x) (k := 0)
  rw [Int.cast_zero, zero_mul] at hle
  exact hle h

theorem lastPlace_le {x y : ℚ} (hx : 0 < x) (h : x ≤ y) : lastPlace x ≤ lastPlace y := by
  have hlog := Int.log_mono_right (b := 2) (abs_pos.mpr hx.ne') (abs_le_abs_of_nonneg hx.le h)
  exact max_le_max_right _ (by omega)

theorem binary64_le_of_pos {x y : ℚ} (hx : 0 < x) (h : x ≤ y) : binary64 x ≤ binary64 y := by
  have hy := hx.trans_le h
  rcases (lastPlace_le hx h).eq_or_lt with heq | hlt
  · have hdiv : x / 2 ^ lastPlace y ≤ y / 2 ^ lastPlace y :=
      div_le_div_of_nonneg_right h (two_zpow_pos _).le
    rw [binary64, binary64, heq]
    exact mul_le_mul_of_nonneg_right (mod_cast toEven_monotone hdiv) (two_zpow_pos _).le
  · -- the power of two at or below `y` lies between the two
    rw [lastPlace, lastPlace, abs_of_pos hx, abs_of_pos hy] at hlt
    have hlog : Int.log 2 x < Int.log 2 y := by omega
    have hplace : ∀ z : ℚ, 0 < z → lastPlace z = max (Int.log 2 z - 52) (-1074) := by
      intro z hz
      rw [lastPlace, abs_of_pos hz]
    obtain ⟨k, hk⟩ := two_zpow_multiple (e := lastPlace x) (f := Int.log 2 y) (by
      rw [hplace x hx]
      omega)
    obtain ⟨m, hm⟩ := two_zpow_multiple (e := lastPlace y) (f := Int.log 2 y) (by
      rw [hplace y hy]
      omega)
    have hbelow : x ≤ 2 ^ Int.log 2 y := ((Int.lt_zpow_iff_log_lt one_lt_two hx).mpr hlog).le
    have habove : (2 : ℚ) ^ Int.log 2 y ≤ y := Int.zpow_log_le_self one_lt_two hy
    calc binary64 x ≤ k * 2 ^ lastPlace x := le_multiple (hk ▸ hbelow)
      _ = m * 2 ^ lastPlace y := by rw [← hk, hm]
      _ ≤ binary64 y := multiple_le (hm ▸ habove)

theorem binary64_monotone : Monotone binary64 := by
  intro x y h
  rcases lt_or_ge 0 x with hx | hx
  · exact binary64_le_of_pos hx h
  · rcases lt_or_ge y 0 with hy | hy
    · have hneg := binary64_le_of_pos (neg_pos.mpr hy) (neg_le_neg h)
      rw [binary64_neg, binary64_neg] at hneg
      exact neg_le_neg_iff.mp hneg
    · have hneg := binary64_nonneg (neg_nonneg.mpr hx)
      rw [binary64_neg] at hneg
      exact (neg_nonneg.mp hneg).trans (binary64_nonneg hy)

/-! ### Integers, differences and the error -/

theorem binary64_natCast {n : ℕ} (h : n ≤ 2 ^ 53) : binary64 n = n := by
  have hlog : Int.log 2 |(n : ℚ)| = Nat.log 2 n := by rw [Nat.abs_cast, Int.log_natCast]
  rcases h.eq_or_lt with rfl | hlt
  · apply binary64_of_multiple (k := 1) (e := 53)
    · norm_num
    · rw [lastPlace, hlog, Nat.log_pow one_lt_two]
      norm_num
  · apply binary64_of_multiple (k := n) (e := 0)
    · simp
    · have hle := Nat.log_lt_of_lt_pow' (b := 2) (by norm_num) hlt
      rw [lastPlace, hlog]
      omega

theorem exists_multiple (x : ℚ) : ∃ k : ℤ, binary64 x = k * 2 ^ (-1074 : ℤ) := by
  obtain ⟨m, hm⟩ := two_zpow_multiple (le_max_right (Int.log 2 |x| - 52) (-1074))
  refine ⟨toEven (x / 2 ^ lastPlace x) * m, ?_⟩
  rw [Int.cast_mul, mul_assoc, ← hm]
  rfl

/-- Two rounded numbers whose rounded difference is zero are equal. -/
theorem binary64_sub_eq_zero {x y : ℚ} :
    binary64 (binary64 x - binary64 y) = 0 ↔ binary64 x = binary64 y := by
  have hsmallest : binary64 (2 ^ (-1074 : ℤ)) = 2 ^ (-1074 : ℤ) := by
    apply binary64_of_multiple (k := 1) (e := -1074)
    · simp
    · rw [lastPlace, abs_of_pos (two_zpow_pos _)]
      have hlog := Int.log_zpow (R := ℚ) one_lt_two (-1074)
      rw [Nat.cast_two] at hlog
      rw [hlog]
      exact max_le (by omega) le_rfl
  have hpositive : ∀ (z : ℚ) (k : ℤ), z = k * 2 ^ (-1074 : ℤ) → 0 < k → binary64 z ≠ 0 := by
    intro z k hz hk
    have hle : (2 : ℚ) ^ (-1074 : ℤ) ≤ z := by
      rw [hz]
      exact le_mul_of_one_le_left (two_zpow_pos _).le (mod_cast hk)
    have hround := binary64_monotone hle
    rw [hsmallest] at hround
    exact ((two_zpow_pos _).trans_le hround).ne'
  constructor
  · intro hzero
    obtain ⟨k, hk⟩ := exists_multiple x
    obtain ⟨m, hm⟩ := exists_multiple y
    have hsub : binary64 x - binary64 y = ((k - m : ℤ) : ℚ) * 2 ^ (-1074 : ℤ) := by
      rw [hk, hm, Int.cast_sub, sub_mul]
    rcases lt_trichotomy (k - m) 0 with hlt | heq | hgt
    · have hneg : -(binary64 x - binary64 y) = ((m - k : ℤ) : ℚ) * 2 ^ (-1074 : ℤ) := by
        rw [hsub, ← neg_mul, ← Int.cast_neg, neg_sub]
      apply absurd _ (hpositive _ _ hneg (by omega))
      rw [binary64_neg, hzero, neg_zero]
    · rw [heq, Int.cast_zero, zero_mul] at hsub
      exact sub_eq_zero.mp hsub
    · exact absurd hzero (hpositive _ _ hsub hgt)
  · intro heq
    rw [heq, sub_self]
    exact mod_cast binary64_natCast (n := 0) (Nat.zero_le _)

/-- Where no bits are lost below, rounding errs by one part in `2 ^ 53` at most. -/
theorem abs_binary64_sub_le {x : ℚ} (h : (2 : ℚ) ^ (-1022 : ℤ) ≤ |x|) :
    |binary64 x - x| ≤ |x| / 2 ^ 53 := by
  have hpos : 0 < |x| := (two_zpow_pos _).trans_le h
  have hlog : -1022 ≤ Int.log 2 |x| := (Int.zpow_le_iff_le_log one_lt_two hpos).mp h
  have hplace : lastPlace x = Int.log 2 |x| - 52 := max_eq_left (by omega)
  have hlast : (2 : ℚ) ^ lastPlace x / 2 = 2 ^ Int.log 2 |x| / 2 ^ 53 := by
    rw [hplace, zpow_sub₀ two_ne_zero]
    norm_num
    ring
  have hself : x = x / 2 ^ lastPlace x * 2 ^ lastPlace x :=
    (div_mul_cancel₀ x (two_zpow_pos _).ne').symm
  calc |binary64 x - x|
      = |((toEven (x / 2 ^ lastPlace x) : ℚ) - x / 2 ^ lastPlace x) * 2 ^ lastPlace x| := by
        rw [sub_mul, ← hself]
        rfl
    _ = |(toEven (x / 2 ^ lastPlace x) : ℚ) - x / 2 ^ lastPlace x| * 2 ^ lastPlace x := by
        rw [abs_mul, abs_of_pos (two_zpow_pos _)]
    _ ≤ 1 / 2 * 2 ^ lastPlace x :=
        mul_le_mul_of_nonneg_right (abs_toEven_sub_le _) (two_zpow_pos _).le
    _ = 2 ^ Int.log 2 |x| / 2 ^ 53 := by rw [← hlast]; ring
    _ ≤ |x| / 2 ^ 53 :=
        div_le_div_of_nonneg_right (Int.zpow_log_le_self one_lt_two hpos) (by positivity)

end BigCodeAnalysis.Numbers
