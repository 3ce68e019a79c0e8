import BigCodeAnalysis.Catalog.Threshold
import BigCodeAnalysis.Sequences.SortedMap
import Mathlib.Data.String.Basic

/-! The soft tier: its limits before they are resolved, and what a tier makes of a hard table. -/

namespace BigCodeAnalysis.Thresholds

open Catalog Sequences

/-- Limits by canonical metric id. -/
abbrev Limits := SortedMap String F64

inductive SoftLimit where
  | absolute (limit : F64)
  | scale (factor : ℚ)
  deriving DecidableEq, Repr

inductive SoftError where
  | noHardLimit (name : String)
  | limit (error : LimitError)
  deriving DecidableEq, Repr

/-- A limit its metric rejects is returned unscaled: the set that is built from it reports it. -/
def scaleNamedLimit (name : String) (limit : F64) (ratio : ℚ) : Except LimitError F64 :=
  match Threshold.check name limit with
  | .error _ => .ok limit
  | .ok checked =>
    match checked.threshold.softLimitRounded ratio with
    | .error e => .error e
    | .ok soft => .ok (.finite soft.limit)

def SoftLimit.isScale : SoftLimit → Bool
  | .absolute _ => false
  | .scale _ => true

def scaleBase (name : String) (limit : F64) (ratio : ℚ) : Except SoftError F64 :=
  (scaleNamedLimit name limit ratio).mapError .limit

def SoftLimit.resolve (soft : SoftLimit) (name : String) (hard : Option F64) :
    Except SoftError F64 :=
  match soft with
  | .absolute value => .ok value
  | .scale factor =>
    match hard with
    | none => .error (.noHardLimit name)
    | some base => scaleBase name base factor

inductive TierSpec where
  | hard
  | soft (ratio : Option ℚ)
  deriving DecidableEq, Repr

def defaultSoftHeadroom : ℚ := 95 / 100

/-- A soft table that is not empty is merged over the hard limits; only an empty one leaves
the limits to the ratio. -/
def resolveTier (tier : TierSpec) (hard : Limits) (soft : SortedMap String SoftLimit) :
    Except SoftError Limits :=
  match tier with
  | .hard => .ok hard
  | .soft ratio =>
    if soft.entries ≠ [] then
      SortedMap.updateM (fun name softLimit base => softLimit.resolve name base) soft.entries hard
    else
      SortedMap.updateM
        (fun name limit _ => scaleBase name limit (ratio.getD defaultSoftHeadroom))
        hard.entries hard

/-- What a tier makes of one metric: `mode` is whether the soft table is merged, `soft` its
entry for the metric. -/
def tierLimit (tier : TierSpec) (mode : Bool) (name : String) (soft : Option SoftLimit)
    (hard : Option F64) : Except SoftError (Option F64) :=
  match tier with
  | .hard => .ok hard
  | .soft ratio =>
    if mode then
      match soft with
      | none => .ok hard
      | some softLimit => (softLimit.resolve name hard).map some
    else
      match hard with
      | none => .ok none
      | some limit => (scaleBase name limit (ratio.getD defaultSoftHeadroom)).map some

/-! ### A tier acts on each metric alone -/

/-- Whether a soft table is merged or left to the ratio. -/
def mergeMode (soft : SortedMap String SoftLimit) : Bool := soft.entries ≠ []

theorem get_resolveTier {tier : TierSpec} {hard merged : Limits}
    {soft : SortedMap String SoftLimit} (h : resolveTier tier hard soft = .ok merged)
    (name : String) :
    tierLimit tier (mergeMode soft) name (soft.get name) (hard.get name) =
      .ok (merged.get name) := by
  unfold resolveTier at h
  cases tier with
  | hard =>
    cases h
    rfl
  | soft ratio =>
    dsimp only at h
    by_cases hmode : soft.entries ≠ []
    · have hmerge : mergeMode soft = true := decide_eq_true hmode
      rw [if_pos hmode] at h
      simp only [tierLimit, hmerge, if_true]
      cases hsoft : soft.get name with
      | none =>
        have hnot : name ∉ soft.keys := fun hk => by
          rw [← SortedMap.get_isSome, hsoft] at hk
          cases hk
        rw [SortedMap.get_updateM_of_notMem h hnot]
      | some softLimit =>
        obtain ⟨v, hv, hget⟩ := SortedMap.get_updateM_of_mem soft.nodup_keys h
          (SortedMap.get_eq_some.mp hsoft)
        dsimp only at hv hget ⊢
        rw [hv, hget]
        rfl
    · have hmerge : mergeMode soft = false := decide_eq_false hmode
      rw [if_neg hmode] at h
      simp only [tierLimit, hmerge]
      cases hhard : hard.get name with
      | none =>
        have hnot : name ∉ hard.keys := fun hk => by
          rw [← SortedMap.get_isSome, hhard] at hk
          cases hk
        rw [SortedMap.get_updateM_of_notMem h hnot, hhard]
        rfl
      | some limit =>
        obtain ⟨v, hv, hget⟩ := SortedMap.get_updateM_of_mem hard.nodup_keys h
          (SortedMap.get_eq_some.mp hhard)
        dsimp only at hv hget ⊢
        rw [hv, hget]
        rfl

/-- A tier fails on a table only where it fails on one of its metrics. -/
theorem resolveTier_ok {tier : TierSpec} {hard : Limits} {soft : SortedMap String SoftLimit} :
    (∃ merged, resolveTier tier hard soft = .ok merged) ↔
      ∀ name, ∃ limit,
        tierLimit tier (mergeMode soft) name (soft.get name) (hard.get name) = .ok limit := by
  constructor
  · rintro ⟨merged, hmerged⟩ name
    exact ⟨_, get_resolveTier hmerged name⟩
  · intro h
    unfold resolveTier
    cases tier with
    | hard => exact ⟨hard, rfl⟩
    | soft ratio =>
      dsimp only
      by_cases hmode : soft.entries ≠ []
      · have hmerge : mergeMode soft = true := decide_eq_true hmode
        rw [if_pos hmode]
        apply (SortedMap.updateM_ok soft.nodup_keys).mpr
        intro e he
        obtain ⟨limit, hlimit⟩ := h e.1
        simp only [tierLimit, hmerge, if_true, SortedMap.get_eq_some.mpr he] at hlimit
        cases hresolve : e.2.resolve e.1 (hard.get e.1) with
        | ok v => exact ⟨v, rfl⟩
        | error x =>
          rw [hresolve] at hlimit
          cases hlimit
      · have hmerge : mergeMode soft = false := decide_eq_false hmode
        rw [if_neg hmode]
        apply (SortedMap.updateM_ok hard.nodup_keys).mpr
        intro e he
        obtain ⟨limit, hlimit⟩ := h e.1
        simp only [tierLimit, hmerge, SortedMap.get_eq_some.mpr he] at hlimit
        cases hscale : scaleBase e.1 e.2 (ratio.getD defaultSoftHeadroom) with
        | ok v => exact ⟨v, rfl⟩
        | error x =>
          rw [hscale] at hlimit
          cases hlimit

end BigCodeAnalysis.Thresholds
