import BigCodeAnalysis.Catalog.Metrics
import Mathlib.Algebra.Order.Floor.Ring
import Mathlib.Data.Int.Log
import Mathlib.Data.Rat.Floor
import Mathlib.Tactic.NormNum
import Mathlib.Tactic.Positivity

/-! A limit that was checked against its metric, and the arithmetic of the soft tier; then how bad
a breach is, on one scale for all metrics. Limits and severities are exact numbers, so what the
source does about float overflow has nothing to do here. Two breaches compare as their
severities do, then as their excesses, which is shown to be a linear order. -/

namespace BigCodeAnalysis.Catalog

inductive LimitError where
  | unknownMetric (id : String)
  | notFinite (id : String) (limit : F64)
  | negative (id : String) (limit : ℚ)
  | badRatio (ratio : ℚ)
  deriving DecidableEq, Repr

inductive LimitWarning where
  | outOfDomain (id : String) (limit : ℚ) (min max : F64)
  | cannotFire (id : String) (limit : ℚ)
  deriving DecidableEq, Repr

/-- A limit that passed the checks of its metric. -/
structure Threshold where
  info : MetricInfo
  limit : ℚ
  known : lookup info.id = some info
  nonneg : info.scale = .ratio → 0 ≤ limit
  deriving DecidableEq

namespace Threshold

theorem eq_of_id {a b : Threshold} (hid : a.info.id = b.info.id) (hlimit : a.limit = b.limit) :
    a = b := by
  obtain ⟨info, limit, hknown, _⟩ := a
  obtain ⟨info', limit', hknown', _⟩ := b
  obtain rfl : limit = limit' := hlimit
  have hinfo : info = info' := by
    have h := hknown.symm.trans ((congrArg lookup hid).trans hknown')
    exact Option.some.inj h
  subst hinfo
  rfl

/-- Strictly past the limit in the bad direction. -/
def breaches (threshold : Threshold) (v : F64) : Bool :=
  match threshold.info.direction with
  | .higherIsWorse => v.partialCmp (.finite threshold.limit) = some .gt
  | .lowerIsWorse => v.partialCmp (.finite threshold.limit) = some .lt

/-- A breach is a value worse than the limit; a NaN is none. -/
theorem breaches_iff {threshold : Threshold} {v : F64} :
    threshold.breaches v ↔ v.isNan = false ∧
      badness threshold.info.direction (.finite threshold.limit) <
        badness threshold.info.direction v := by
  have hlimit : (F64.finite threshold.limit).isNan = false := rfl
  rw [← cmp_eq_gt_iff, ← cmpWorse_eq_cmp]
  cases hv : v.isNan with
  | true =>
    have hnone : v.partialCmp (.finite threshold.limit) = none := by simp [F64.partialCmp, hv]
    unfold breaches
    cases threshold.info.direction <;> simp [hnone]
  | false =>
    have hsome : v.partialCmp (.finite threshold.limit) = some (v.numeric (.finite threshold.limit)) := by
      simp [F64.partialCmp, hv, hlimit]
    have hswap : (F64.finite threshold.limit).numeric v =
        (v.numeric (.finite threshold.limit)).swap := by
      rw [numeric_eq_cmp hlimit hv, numeric_eq_cmp hv hlimit, cmp_swap]
    unfold breaches
    cases threshold.info.direction with
    | higherIsWorse => simp [cmpWorse, hv, hsome, hlimit]
    | lowerIsWorse => simp [cmpWorse, hv, hsome, hlimit, hswap]

/-! ### The checks -/

def domainWarning (info : MetricInfo) (limit : ℚ) (min max : F64) : Option LimitWarning :=
  if (F64.finite limit).numeric min = .lt ∨ (F64.finite limit).numeric max = .gt then
    some (.outOfDomain info.id limit min max)
  else
    let onBadEdge : Bool :=
      match info.direction with
      | .lowerIsWorse => (F64.finite limit).numeric min ≠ .gt
      | .higherIsWorse => (F64.finite limit).numeric max ≠ .lt
    if onBadEdge then some (.cannotFire info.id limit) else none

def warning (threshold : Threshold) : Option LimitWarning :=
  match threshold.info.scale with
  | .interval min max _ => domainWarning threshold.info threshold.limit min max
  | .ratio => none

structure Checked where
  threshold : Threshold
  warning : Option LimitWarning

theorem id_of_lookup {id : String} {info : MetricInfo} (h : lookup id = some info) :
    info.id = id := by
  simpa using List.find?_some h

def check (id : String) (limit : F64) : Except LimitError Checked :=
  match h : lookup id with
  | none => .error (.unknownMetric id)
  | some info =>
    match limit with
    | .finite value =>
      if hneg : info.scale = .ratio ∧ value < 0 then .error (.negative info.id value)
      else
        let threshold : Threshold :=
          ⟨info, value, (id_of_lookup h).symm ▸ h, fun hr => not_lt.mp fun hv => hneg ⟨hr, hv⟩⟩
        .ok ⟨threshold, threshold.warning⟩
    | limit => .error (.notFinite info.id limit)

/-- What passes is the limit that was asked about, of the metric that was named. -/
theorem check_ok {id : String} {limit : F64} {checked : Checked} (h : check id limit = .ok checked) :
    checked.threshold.info.id = id ∧ .finite checked.threshold.limit = limit := by
  unfold check at h
  split at h
  · cases h
  next info hlookup =>
  cases limit with
  | nan => cases h
  | infinite => cases h
  | finite value =>
    dsimp only at h
    split_ifs at h
    cases h
    exact ⟨id_of_lookup hlookup, rfl⟩

/-! ### The soft tier -/

def isSoftRatio (ratio : ℚ) : Bool := 0 < ratio ∧ ratio ≤ 1

/-- The largest float. -/
def f64Max : ℚ := (2 ^ 53 - 1) * 2 ^ 971

/-- `x.min(edge).max(limit)`. -/
def clampFloor (x limit : ℚ) : F64 → ℚ
  | .finite edge => max (min x edge) limit
  | .infinite true => limit
  | .infinite false | .nan => max x limit

/-- `x.max(edge).min(limit)`. -/
def clampCeiling (x limit : ℚ) : F64 → ℚ
  | .finite edge => min (max x edge) limit
  | .infinite false => limit
  | .infinite true | .nan => min x limit

/-- The band a ratio asks for, before it is rounded. -/
def softBand (info : MetricInfo) (limit ratio : ℚ) : ℚ :=
  match info.scale, info.direction with
  | .interval _ max unit, .lowerIsWorse => clampFloor (limit + (unit - ratio * unit)) limit max
  | .interval min _ unit, .higherIsWorse => clampCeiling (limit - (unit - ratio * unit)) limit min
  | .ratio, .higherIsWorse => limit * ratio
  | .ratio, .lowerIsWorse => min (limit / ratio) f64Max

theorem softBand_nonneg {info : MetricInfo} {limit ratio : ℚ} (hscale : info.scale = .ratio)
    (hlimit : 0 ≤ limit) (hratio : 0 < ratio) : 0 ≤ softBand info limit ratio := by
  unfold softBand
  rw [hscale]
  cases info.direction with
  | higherIsWorse => exact mul_nonneg hlimit hratio.le
  | lowerIsWorse =>
    have hmax : (0 : ℚ) ≤ f64Max := by decide +kernel
    exact le_min (div_nonneg hlimit hratio.le) hmax

def softLimit (threshold : Threshold) (ratio : ℚ) : Except LimitError Threshold :=
  if h : isSoftRatio ratio then
    .ok { threshold with
      limit := softBand threshold.info threshold.limit ratio
      nonneg := fun hscale =>
        softBand_nonneg hscale (threshold.nonneg hscale) (of_decide_eq_true h).1 }
  else .error (.badRatio ratio)

/-! ### The six-figure grid -/

def softLimitSigFigs : ℤ := 6

def gridSnapUlps : ℚ := 4

def epsilon : ℚ := 1 / 2 ^ 52

/-- `f64::round`: to nearest, a tie away from zero. -/
def round (x : ℚ) : ℤ := if 0 ≤ x then ⌊x + 1 / 2⌋ else ⌈x - 1 / 2⌉

inductive Rounding where
  | nearest
  | strict (direction : Direction) (operand : ℚ)

def strictOffGrid (ticks : ℚ) (direction : Direction) (scale : ℚ) : ℤ :=
  let nearest := round ticks
  if |ticks - nearest| ≤ gridSnapUlps * epsilon * scale then nearest
  else
    match direction with
    | .lowerIsWorse => ⌈ticks⌉
    | .higherIsWorse => ⌊ticks⌋

def roundSigFigs (value : ℚ) (rounding : Rounding) : ℚ :=
  if value = 0 then value
  else
    let magnitude := Int.log 10 |value|
    let decimals := softLimitSigFigs - 1 - magnitude
    let factor := (10 : ℚ) ^ decimals
    let ticks := value * factor
    match rounding with
    | .strict direction operand =>
      if |value| ≤ gridSnapUlps * epsilon * operand then 0
      else strictOffGrid ticks direction (max operand |value| * factor) / factor
    | .nearest => round ticks / factor

theorem round_nonneg {x : ℚ} (h : 0 ≤ x) : 0 ≤ round x := by
  rw [round, if_pos h]
  exact Int.floor_nonneg.mpr (by positivity)

theorem strictOffGrid_nonneg {ticks : ℚ} (h : 0 ≤ ticks) (direction : Direction) (scale : ℚ) :
    0 ≤ strictOffGrid ticks direction scale := by
  unfold strictOffGrid
  dsimp only
  split_ifs
  · exact round_nonneg h
  · cases direction with
    | higherIsWorse => exact Int.floor_nonneg.mpr h
    | lowerIsWorse => exact Int.ceil_nonneg h

theorem roundSigFigs_nonneg {value : ℚ} (h : 0 ≤ value) (rounding : Rounding) :
    0 ≤ roundSigFigs value rounding := by
  unfold roundSigFigs
  split_ifs
  · exact h
  dsimp only
  have hfactor : (0 : ℚ) < 10 ^ (softLimitSigFigs - 1 - Int.log 10 |value|) :=
    zpow_pos (by norm_num) _
  have hticks := mul_nonneg h hfactor.le
  cases rounding with
  | nearest =>
    have hround : (0 : ℚ) ≤ round _ := mod_cast round_nonneg hticks
    exact div_nonneg hround hfactor.le
  | strict direction operand =>
    dsimp only
    split_ifs
    · exact le_rfl
    · apply div_nonneg _ hfactor.le
      exact_mod_cast strictOffGrid_nonneg hticks direction _

/-! ### The limit a gate reads -/

/-- The size of the numbers the band was computed from. -/
def operand (threshold : Threshold) : ℚ :=
  match threshold.info.scale with
  | .interval _ _ unit => max |threshold.limit| unit
  | .ratio => 0

/-- A band on the grid, held on the side of the hard limit it gives. -/
def onGrid (threshold : Threshold) (band : ℚ) : ℚ :=
  let rounded := roundSigFigs band (.strict threshold.info.direction threshold.operand)
  match threshold.info.direction with
  | .lowerIsWorse => max rounded threshold.limit
  | .higherIsWorse => min rounded threshold.limit

theorem onGrid_nonneg {threshold : Threshold} {band : ℚ} (hband : 0 ≤ band)
    (hlimit : 0 ≤ threshold.limit) : 0 ≤ threshold.onGrid band := by
  have hrounded := roundSigFigs_nonneg hband (.strict threshold.info.direction threshold.operand)
  unfold onGrid
  dsimp only
  split
  · exact le_max_of_le_right hlimit
  · exact le_min hrounded hlimit

theorem softLimit_info {threshold soft : Threshold} {ratio : ℚ}
    (h : threshold.softLimit ratio = .ok soft) : soft.info = threshold.info := by
  unfold softLimit at h
  split_ifs at h
  cases h
  rfl

def softLimitRounded (threshold : Threshold) (ratio : ℚ) : Except LimitError Threshold :=
  match h : threshold.softLimit ratio with
  | .error e => .error e
  | .ok soft =>
    if soft.limit = threshold.limit then .ok soft
    else .ok { threshold with
      limit := threshold.onGrid soft.limit
      nonneg := fun hscale =>
        onGrid_nonneg (soft.nonneg (softLimit_info h ▸ hscale)) (threshold.nonneg hscale) }

/-- A ratio errs for no metric or for all. -/
theorem softLimitRounded_ok (threshold : Threshold) {ratio : ℚ} (h : isSoftRatio ratio) :
    ∃ soft, threshold.softLimitRounded ratio = .ok soft := by
  unfold softLimitRounded
  split
  · next e he =>
    unfold softLimit at he
    rw [dif_pos h] at he
    cases he
  · split_ifs
    · exact ⟨_, rfl⟩
    · exact ⟨_, rfl⟩

theorem softLimitRounded_error (threshold : Threshold) {ratio : ℚ} (h : ¬ isSoftRatio ratio) :
    threshold.softLimitRounded ratio = .error (.badRatio ratio) := by
  have herror : threshold.softLimit ratio = .error (.badRatio ratio) := dif_neg h
  unfold softLimitRounded
  split
  · next e he =>
    rw [herror] at he
    cases he
    rfl
  · next soft he =>
    rw [herror] at he
    cases he

theorem breaches_finite (threshold : Threshold) (v : ℚ) :
    threshold.breaches (.finite v) =
      match threshold.info.direction with
      | .higherIsWorse => decide (threshold.limit < v)
      | .lowerIsWorse => decide (v < threshold.limit) := by
  have hcmp : (F64.finite v).partialCmp (.finite threshold.limit) =
      some (cmp v threshold.limit) := rfl
  unfold breaches
  rw [hcmp]
  cases threshold.info.direction with
  | higherIsWorse => exact decide_eq_decide.mpr (by rw [Option.some_inj, cmp_eq_gt_iff])
  | lowerIsWorse => exact decide_eq_decide.mpr (by rw [Option.some_inj, cmp_eq_lt_iff])

/-- The soft tier is never looser than the hard one. -/
theorem softLimitRounded_not_breaches {threshold soft : Threshold} {ratio : ℚ}
    (h : threshold.softLimitRounded ratio = .ok soft) :
    threshold.breaches (.finite soft.limit) = false := by
  have hside : soft.limit = threshold.limit ∨ ∃ band, soft.limit = threshold.onGrid band := by
    unfold softLimitRounded at h
    split at h
    · cases h
    next band hband =>
    split_ifs at h with heq
    · cases h
      exact .inl heq
    · cases h
      exact .inr ⟨_, rfl⟩
  rw [breaches_finite]
  rcases hside with hsame | ⟨band, hgrid⟩
  · rw [hsame]
    cases threshold.info.direction with
    | higherIsWorse => simp
    | lowerIsWorse => simp
  · rw [hgrid]
    unfold onGrid
    dsimp only
    cases threshold.info.direction with
    | higherIsWorse => simp
    | lowerIsWorse => simp

end Threshold

/-! ### Severity -/

namespace F64

/-- Apply an exact operation to a finite value. -/
def mapFinite (f : ℚ → ℚ) : F64 → F64
  | nan => nan
  | infinite negative => infinite negative
  | finite value => finite (f value)

def neg : F64 → F64
  | nan => nan
  | infinite negative => infinite (!negative)
  | finite value => finite (-value)

/-- `f64::total_cmp`, with NaN above every number. -/
def totalCmp (a b : F64) : Ordering :=
  match a.isNan, b.isNan with
  | true, true => .eq
  | true, false => .gt
  | false, true => .lt
  | false, false => a.numeric b

theorem totalCmp_eq_cmp (a b : F64) :
    a.totalCmp b = cmp (badness .higherIsWorse a) (badness .higherIsWorse b) := by
  rw [← cmpWorse_eq_cmp]
  rfl

end F64

namespace Threshold

/-- The distance past the limit in the bad direction. -/
def excess (threshold : Threshold) (v : F64) : F64 :=
  match threshold.info.direction with
  | .higherIsWorse => v.mapFinite (· - threshold.limit)
  | .lowerIsWorse => v.neg.mapFinite (· + threshold.limit)

/-- A ratio floor breached by `v`; the catalog has none. -/
def floorSeverity (limit : ℚ) : F64 → F64
  | .nan => .infinite false
  | .infinite negative => if negative then .infinite false else .finite 0
  | .finite v => if 0 < v then .finite (limit / v) else .infinite false

/-- How badly `v` breaches the limit, where 1 is on the limit. -/
def severity (threshold : Threshold) (v : F64) : F64 :=
  match threshold.info.scale with
  | .interval _ _ unit => (threshold.excess v).mapFinite fun excess => 1 + excess / unit
  | .ratio =>
    match threshold.info.direction with
    | .higherIsWorse =>
      if 0 < threshold.limit then v.mapFinite (· / threshold.limit) else .infinite false
    | .lowerIsWorse => floorSeverity threshold.limit v

/-- Order the breach `a` of one threshold against the breach `b` of another. -/
def cmpBreach (threshold : Threshold) (a : F64) (other : Threshold) (b : F64) : Ordering :=
  ((threshold.severity a).totalCmp (other.severity b)).then
    ((threshold.excess a).totalCmp (other.excess b))

/-- Severity, then excess, in a linear order. -/
def breachKey (threshold : Threshold) (v : F64) : (ℕ ×ₗ ℚ) ×ₗ (ℕ ×ₗ ℚ) :=
  toLex (badness .higherIsWorse (threshold.severity v), badness .higherIsWorse (threshold.excess v))

theorem cmpBreach_eq_cmp (threshold : Threshold) (a : F64) (other : Threshold) (b : F64) :
    threshold.cmpBreach a other b = cmp (threshold.breachKey a) (other.breachKey b) := by
  rw [cmpBreach, F64.totalCmp_eq_cmp, F64.totalCmp_eq_cmp, breachKey, breachKey, cmp_toLex]

end Threshold

end BigCodeAnalysis.Catalog
