import BigCodeAnalysis.Thresholds.EagerValidation
import BigCodeAnalysis.Thresholds.Evaluate

/-! The limits a file is gated at. What the layers declare for a metric is stated metric by
metric: the last matching path entry comes before the language's and that before the global one,
the soft tier takes its own limit or scales the hard one, and the command line has the last word.
The resolver folds whole tables, keeps those it has resolved, and answers every file with its
declared limits. A soft limit is no laxer than the hard one, so the soft tier reports whatever the
hard tier does. -/

namespace BigCodeAnalysis.Thresholds

open Catalog Sequences Spaces

variable {π : Type*}

/-! ### Declared limits -/

/-- The soft limit a ratio makes of a hard one. -/
def tightened (name : String) (ratio : ℚ) (limit : F64) : F64 :=
  match scaleNamedLimit name limit ratio with
  | .ok soft => soft
  | .error _ => limit

/-- Some soft entry applies to the folded table: it is absolute, or its metric has a limit. -/
def softApplies (layers : ParsedThresholds π) (file : File π) : Bool :=
  layers.soft.entries.any fun e => !e.2.isScale || (declaredHard layers file e.1).isSome

/-- What the tier makes of the declared hard limit. -/
def declaredTier (tier : TierSpec) (layers : ParsedThresholds π) (file : File π)
    (name : String) : Option F64 :=
  match tier with
  | .hard => declaredHard layers file name
  | .soft ratio =>
    if softApplies layers file then
      match layers.soft.get name with
      | none => declaredHard layers file name
      | some (.absolute limit) => some limit
      | some (.scale factor) => (declaredHard layers file name).map (tightened name factor)
    else
      (declaredHard layers file name).map (tightened name (ratio.getD defaultSoftHeadroom))

/-- The last `--threshold` that names the metric, else the tier's limit. -/
def declaredLimit (cli : List (String × F64)) (tier : TierSpec) (layers : ParsedThresholds π)
    (file : File π) (name : String) : Option F64 :=
  (SortedMap.lastOf cli name).or (declaredTier tier layers file name)

def declaredCeiling (cli : List (String × F64)) (layers : ParsedThresholds π) (file : File π)
    (name : String) : Option F64 :=
  (SortedMap.lastOf cli name).or (declaredHard layers file name)

/-! ### The resolver computes them -/

theorem tightened_of_scaleBase {name : String} {ratio : ℚ} {limit soft : F64}
    (h : scaleBase name limit ratio = .ok soft) : tightened name ratio limit = soft := by
  unfold scaleBase at h
  unfold tightened
  cases hscale : scaleNamedLimit name limit ratio with
  | ok v =>
    rw [hscale] at h
    exact Except.ok.inj h
  | error e =>
    rw [hscale] at h
    cases h

section
variable {shared : SharedLayers} {layers : ParsedThresholds π} {file : File π} {hard : Limits}
  {ratio : Option ℚ}

/-- A table that resolves drops no soft factor but those whose metric it does not limit. -/
theorem softEntrySurvives_eq (htier : shared.tier = .soft ratio)
    (hok : ∀ name, shared.MetricOk hard name) {name : String} {limit : SoftLimit}
    (hsoft : shared.soft.get name = some limit) :
    shared.softEntrySurvives hard name limit = (!limit.isScale || (hard.get name).isSome) := by
  cases hsurvives : shared.softEntrySurvives hard name limit with
  | false =>
    unfold SharedLayers.softEntrySurvives at hsurvives
    exact (Bool.or_eq_false_iff.mp hsurvives).1.symm
  | true =>
    cases limit with
    | absolute v => rfl
    | scale factor =>
      have hget : (shared.softFor hard).get name = some (.scale factor) := by
        rw [SharedLayers.get_softFor, hsoft, Option.filter_some, if_pos hsurvives]
      obtain ⟨v, hv, _⟩ := hok name
      unfold SharedLayers.tierOf tierLimit at hv
      rw [htier, mergeMode_iff.mpr ⟨name, _, hget⟩, hget] at hv
      cases hhard : hard.get name with
      | some b => rfl
      | none =>
        rw [hhard] at hv
        cases hv

theorem mergeMode_eq (htier : shared.tier = .soft ratio) (hsoft : shared.soft = layers.soft)
    (hok : ∀ name, shared.MetricOk hard name)
    (hhard : ∀ name, hard.get name = declaredHard layers file name) :
    mergeMode (shared.softFor hard) = softApplies layers file := by
  rw [Bool.eq_iff_iff, mergeMode_iff, softApplies, List.any_eq_true]
  have hiff : ∀ name limit, (shared.softFor hard).get name = some limit ↔
      (name, limit) ∈ layers.soft.entries ∧
        (!limit.isScale || (declaredHard layers file name).isSome) = true := by
    intro name limit
    rw [SharedLayers.get_softFor, Option.filter_eq_some_iff, ← SortedMap.get_eq_some, ← hsoft]
    refine and_congr_right fun hget => ?_
    rw [softEntrySurvives_eq htier hok hget, hhard]
  constructor
  · rintro ⟨name, limit, hget⟩
    obtain ⟨hmem, happlies⟩ := (hiff name limit).mp hget
    exact ⟨(name, limit), hmem, happlies⟩
  · rintro ⟨⟨name, limit⟩, hmem, happlies⟩
    exact ⟨name, limit, (hiff name limit).mpr ⟨hmem, happlies⟩⟩

theorem map_scaleBase_ok {name : String} {factor : ℚ} {base : F64} {limit : Option F64}
    (h : (scaleBase name base factor).map some = .ok limit) :
    limit = some (tightened name factor base) := by
  cases hscale : scaleBase name base factor with
  | error e =>
    rw [hscale] at h
    cases h
  | ok soft =>
    rw [hscale] at h
    rw [tightened_of_scaleBase hscale]
    exact (Except.ok.inj h).symm

/-- The tier's limit for a metric of a table is the declared one. -/
theorem tierOf_eq (hsoft : shared.soft = layers.soft) (hok : ∀ name, shared.MetricOk hard name)
    (hhard : ∀ name, hard.get name = declaredHard layers file name) {name : String}
    {limit : Option F64} (h : shared.tierOf hard name = .ok limit) :
    limit = declaredTier shared.tier layers file name := by
  unfold SharedLayers.tierOf tierLimit at h
  unfold declaredTier
  cases htier : shared.tier with
  | hard =>
    rw [htier] at h
    rw [← hhard]
    exact (Except.ok.inj h).symm
  | soft ratio =>
    rw [htier, mergeMode_eq htier hsoft hok hhard, hhard] at h
    dsimp only at h ⊢
    cases happlies : softApplies layers file with
    | false =>
      rw [happlies] at h
      simp only [Bool.false_eq_true, if_false] at h ⊢
      cases hdeclared : declaredHard layers file name with
      | none =>
        rw [hdeclared] at h
        exact (Except.ok.inj h).symm
      | some base =>
        rw [hdeclared] at h
        exact map_scaleBase_ok h
    | true =>
      rw [happlies] at h
      simp only [if_true] at h ⊢
      rw [SharedLayers.get_softFor, hsoft] at h
      cases hget : layers.soft.get name with
      | none =>
        rw [hget] at h
        exact (Except.ok.inj h).symm
      | some soft =>
        have hsurvives := softEntrySurvives_eq htier hok (hsoft ▸ hget)
        rw [hget, Option.filter_some, hsurvives, hhard] at h
        cases soft with
        | absolute v => exact (Except.ok.inj h).symm
        | scale factor =>
          cases hdeclared : declaredHard layers file name with
          | none =>
            rw [hdeclared] at h
            exact (Except.ok.inj h).symm
          | some base =>
            rw [hdeclared] at h
            exact map_scaleBase_ok h

/-- A table of a file's declared hard limits resolves to a set of its declared limits. -/
theorem mem_rows_declared {cli : List (String × F64)} {tier : TierSpec} {context : List TableName}
    {set : ThresholdSet} (hset : (SharedLayers.new cli tier layers).resolveOne hard context = .ok set)
    (hhard : ∀ name, hard.get name = declaredHard layers file name) {name : String} {limit : F64}
    {ceiling : Option F64} :
    (name, limit, ceiling) ∈ set.rows ↔
      declaredLimit cli tier layers file name = some limit ∧
        declaredCeiling cli layers file name = ceiling := by
  have hok := SharedLayers.resolveOne_ok.mp ⟨set, hset⟩
  obtain ⟨own, hown, _⟩ := hok name
  have htier := tierOf_eq rfl hok hhard hown
  rw [SharedLayers.mem_rows_resolveOne hset, hhard]
  constructor
  · rintro ⟨own', hown', hlimit, hceiling⟩
    obtain rfl := Except.ok.inj (hown.symm.trans hown')
    rw [htier] at hlimit
    exact ⟨hlimit, hceiling⟩
  · rintro ⟨hlimit, hceiling⟩
    refine ⟨own, hown, ?_, hceiling⟩
    rw [htier]
    exact hlimit

end

/-! ### The hard tier of the same run -/

/-- A tier gates every metric that has a hard limit. -/
theorem isSome_of_tierLimit {tier : TierSpec} {mode : Bool} {name : String}
    {soft : Option SoftLimit} {base : F64} {limit : Option F64}
    (h : tierLimit tier mode name soft (some base) = .ok limit) : limit.isSome := by
  have hmap : ∀ {x : Except SoftError F64}, x.map some = .ok limit → limit.isSome := by
    intro x hx
    cases x with
    | error e => cases hx
    | ok v =>
      cases hx
      rfl
  unfold tierLimit at h
  cases tier with
  | hard =>
    cases h
    rfl
  | soft ratio =>
    cases mode with
    | false => exact hmap h
    | true =>
      cases soft with
      | none =>
        cases h
        rfl
      | some softLimit => exact hmap h

section
variable {cli : List (String × F64)} {tier : TierSpec} {layers : ParsedThresholds π}

/-- A metric that resolves at a tier resolves at the hard one. -/
theorem metricOk_hard {hard : Limits} {name : String}
    (h : (SharedLayers.new cli tier layers).MetricOk hard name) :
    (SharedLayers.new cli .hard layers).MetricOk hard name := by
  obtain ⟨limit, htier, hbuild⟩ := h
  refine ⟨hard.get name, rfl, fun v hv => ?_⟩
  have hceiling : (SharedLayers.new cli tier layers).overridden name (hard.get name) = some v := hv
  rw [hceiling] at hbuild
  rw [hv]
  unfold SharedLayers.overridden at hbuild hv
  have hcli : (SharedLayers.new cli .hard layers).cli = (SharedLayers.new cli tier layers).cli := rfl
  rw [hcli] at hv
  cases hlast : SortedMap.lastOf (SharedLayers.new cli tier layers).cli name with
  | some c =>
    rw [hlast] at hv hbuild
    obtain rfl := Option.some.inj hv
    exact hbuild c rfl
  | none =>
    rw [hlast, Option.none_or] at hv hbuild
    unfold SharedLayers.tierOf at htier
    rw [hv] at htier
    obtain ⟨own, rfl⟩ := Option.isSome_iff_exists.mp (isSome_of_tierLimit htier)
    obtain ⟨entry, hentry⟩ := hbuild own rfl
    exact ResolvedThreshold.build_hard hentry

theorem eagerlyValid_hard (h : (SharedLayers.new cli tier layers).EagerlyValid layers) :
    (SharedLayers.new cli .hard layers).EagerlyValid layers := by
  have hresolves : ∀ {hard : Limits}, (SharedLayers.new cli tier layers).Resolves hard →
      (SharedLayers.new cli .hard layers).Resolves hard := fun hr =>
    SharedLayers.resolves_iff.mpr fun name => metricOk_hard (SharedLayers.resolves_iff.mp hr name)
  exact ⟨fun base hbase => hresolves (h.base base hbase),
    fun base hbase entry hentry => hresolves (h.single base hbase entry hentry)⟩

/-! ### Answers -/

variable {gate : LanguageThresholds π} {file : File π} {set : ThresholdSet}

/-- The set a file is gated at, of the metrics that are kept. -/
def Gates (cli : List (String × F64)) (tier : TierSpec) (layers : ParsedThresholds π)
    (keep : Option (Finset String)) (file : File π) (set : ThresholdSet) : Prop :=
  ∀ name limit ceiling, (name, limit, ceiling) ∈ set.rows ↔
    (∀ names ∈ keep, name ∈ names) ∧ declaredLimit cli tier layers file name = some limit ∧
      declaredCeiling cli layers file name = ceiling

theorem gates_of_answered {ω : Type*} [DecidableEq ω]
    (hgate : (SharedLayers.new cli tier layers).resolveAll layers = .ok gate)
    {keep : Option (Finset String)} {gate' : LanguageThresholds π}
    {s : System ω (File π) MemoKey ThresholdSet ConfigError}
    (hrun : LanguageThresholds.Run gate keep gate' s) {w : ω}
    (hw : s.workers w = .answered file set) : Gates cli tier layers keep file set := by
  have hbuilt := SharedLayers.built_of_resolveAll hgate
  obtain ⟨full, hfull, rfl⟩ := hrun.answered hbuilt hw
  obtain ⟨hard, context, hhard, hanswer⟩ := hbuilt.answer file
  intro name limit ceiling
  rw [PathLayer.mem_rows_narrow, mem_rows_declared (hanswer.symm.trans hfull) hhard, and_comm]

/-! ### Offenders -/

/-- An entry of the hard tier and the soft one of the same metric. -/
structure Softens (hard soft : ResolvedThreshold) : Prop where
  extractor : soft.extractor = hard.extractor
  ceiling : soft.hardLimit = some hard.threshold
  own : hard.hardLimit = some hard.threshold

theorem isSome_declaredTier {name : String} (h : (declaredHard layers file name).isSome) :
    (declaredTier tier layers file name).isSome := by
  unfold declaredTier
  cases tier with
  | hard => exact h
  | soft ratio =>
    dsimp only
    split_ifs
    · cases layers.soft.get name with
      | none => exact h
      | some soft =>
        cases soft with
        | absolute limit => rfl
        | scale factor => rwa [Option.isSome_map]
    · rwa [Option.isSome_map]

theorem hardLimit_eq {entry : ResolvedThreshold} {ceiling : Threshold}
    (hname : ceiling.info.id = entry.extractor.name)
    (h : entry.hardLimit.map (fun t => F64.finite t.limit) = some (.finite ceiling.limit)) :
    entry.hardLimit = some ceiling := by
  obtain ⟨own, hown, hlimit⟩ := Option.map_eq_some_iff.mp h
  have hid := (entry.hardNamed own hown).trans hname.symm
  rw [hown, Threshold.eq_of_id hid (F64.finite.inj hlimit)]

theorem exists_softens {keep : Option (Finset String)} {hardSet softSet : ThresholdSet}
    (hhard : Gates cli .hard layers keep file hardSet)
    (hsoft : Gates cli tier layers keep file softSet) {entry : ResolvedThreshold}
    (hentry : entry ∈ hardSet.entries) : ∃ soft ∈ softSet.entries, Softens entry soft := by
  have hrow : entry.row ∈ hardSet.rows := List.mem_map_of_mem hentry
  obtain ⟨hkeep, hlimit, hceiling⟩ := (hhard _ _ _).mp hrow
  have hdeclared : declaredCeiling cli layers file entry.extractor.name =
      some (.finite entry.threshold.limit) := hlimit
  obtain ⟨own, hown⟩ : ∃ own, declaredLimit cli tier layers file entry.extractor.name =
      some own := by
    rw [← Option.isSome_iff_exists, declaredLimit, Option.isSome_or]
    have hsome : (declaredCeiling cli layers file entry.extractor.name).isSome := by
      rw [hdeclared]
      rfl
    rw [declaredCeiling, Option.isSome_or, Bool.or_eq_true] at hsome
    exact Bool.or_eq_true_iff.mpr (hsome.imp_right isSome_declaredTier)
  obtain ⟨soft, hmem, hsoftRow⟩ := List.mem_map.mp ((hsoft _ _ _).mpr ⟨hkeep, hown, hdeclared⟩)
  obtain ⟨hname, hrest⟩ := Prod.mk.inj hsoftRow
  have hextractor : soft.extractor = entry.extractor :=
    Option.some.inj (soft.known.symm.trans ((congrArg lookupExtractor hname).trans entry.known))
  refine ⟨soft, hmem, hextractor, ?_, ?_⟩
  · apply hardLimit_eq
    · rw [hextractor]
      exact entry.named
    · exact (Prod.mk.inj hrest).2
  · exact hardLimit_eq entry.named (hceiling.symm.trans hdeclared)

theorem Softens.info {hard soft : ResolvedThreshold} (h : Softens hard soft) :
    soft.threshold.info = hard.threshold.info := by
  have hid : soft.threshold.info.id = hard.threshold.info.id := by
    rw [soft.named, h.extractor, hard.named]
  exact Option.some.inj (soft.threshold.known.symm.trans
    ((congrArg lookup hid).trans hard.threshold.known))

theorem threshold_of_violationFor {entry : ResolvedThreshold} {R ρ : Type*}
    {reading : Reading R} {space : FuncSpace R} {qualified : String} {path : ρ}
    {ctx : SuppressionContext} {violation : Violation ρ}
    (h : entry.violationFor reading space qualified path ctx = some violation) :
    violation.threshold = entry.threshold := by
  unfold ResolvedThreshold.violationFor at h
  split_ifs at h
  dsimp only at h
  split_ifs at h
  cases h
  rfl

/-- What the hard tier reports of a space, the soft tier reports with its own limit. -/
theorem Softens.violationFor {hard soft : ResolvedThreshold} (h : Softens hard soft) {R ρ : Type*}
    {reading : Reading R} {space : FuncSpace R} {qualified : String} {path : ρ}
    {ctx : SuppressionContext} {violation : Violation ρ}
    (hv : hard.violationFor reading space qualified path ctx = some violation) :
    soft.violationFor reading space qualified path ctx =
      some { violation with threshold := soft.threshold } := by
  unfold ResolvedThreshold.violationFor at hv ⊢
  rw [h.extractor, h.info, h.ceiling]
  rw [h.own] at hv
  split_ifs at hv with hscope hempty
  dsimp only at hv ⊢
  rw [if_neg hscope, if_neg hempty]
  split_ifs at hv with hbreach hsuppressed
  have hhard : hard.threshold.breaches (reading.extract hard.extractor.name space.metrics) := by
    simpa using hbreach
  have hsoft := @ResolvedThreshold.breaches_of_hard soft hard.threshold h.ceiling _ hhard
  rw [if_neg (by simp [hsoft]), if_neg hsuppressed]
  cases hv
  rfl

/-- The soft run's offenders include the hard run's. -/
theorem evaluate_softens {keep : Option (Finset String)} {hardSet softSet : ThresholdSet}
    (hhard : Gates cli .hard layers keep file hardSet)
    (hsoft : Gates cli tier layers keep file softSet) {R ρ : Type*} {reading : Reading R}
    {path : ρ} {space : FuncSpace R} {policy : SuppressionPolicy} {reportSuppressed : Bool}
    {violation : Violation ρ}
    (hv : violation ∈
      hardSet.evaluateWithPolicy reading path space policy reportSuppressed) :
    ∃ threshold, threshold.info = violation.threshold.info ∧
      { violation with threshold } ∈
        softSet.evaluateWithPolicy reading path space policy reportSuppressed := by
  obtain ⟨v, hvisit, entry, hentry, hviolation⟩ := ThresholdSet.mem_evaluateWithPolicy.mp hv
  obtain ⟨soft, hmem, hsoftens⟩ := exists_softens hhard hsoft hentry
  refine ⟨soft.threshold, ?_, ThresholdSet.mem_evaluateWithPolicy.mpr
    ⟨v, hvisit, soft, hmem, hsoftens.violationFor hviolation⟩⟩
  rw [threshold_of_violationFor hviolation]
  exact hsoftens.info

end

/-! ### The law -/

/-- In every run of a gate that was built, a file is answered the set of its declared limits and
ceilings, the same one in every run; a value past a ceiling is past the limit; and the gate of
the hard tier can be built too, and reports nothing that this one does not. -/
theorem threshold_layering {ω : Type*} [DecidableEq ω] (cli : List (String × F64))
    (tier : TierSpec) (layers : ParsedThresholds π) (gate : LanguageThresholds π)
    (hgate : (SharedLayers.new cli tier layers).resolveAll layers = .ok gate) :
    (∀ keep gate' (s : System ω (File π) MemoKey ThresholdSet ConfigError) w file set,
      LanguageThresholds.Run gate keep gate' s → s.workers w = .answered file set →
        (∀ name limit ceiling, (name, limit, ceiling) ∈ set.rows ↔
          (∀ names ∈ keep, name ∈ names) ∧
            declaredLimit cli tier layers file name = some limit ∧
            declaredCeiling cli layers file name = ceiling) ∧
        ∀ entry ∈ set.entries, ∀ hard ∈ entry.hardLimit, ∀ v,
          hard.breaches v → entry.threshold.breaches v) ∧
    (∀ keep gate₁ gate₂ (s₁ s₂ : System ω (File π) MemoKey ThresholdSet ConfigError) w₁ w₂ file
      set₁ set₂, LanguageThresholds.Run gate keep gate₁ s₁ →
        LanguageThresholds.Run gate keep gate₂ s₂ → s₁.workers w₁ = .answered file set₁ →
          s₂.workers w₂ = .answered file set₂ → set₁ = set₂) ∧
    ∃ hardGate, (SharedLayers.new cli .hard layers).resolveAll layers = .ok hardGate ∧
      ∀ keep gate₁ gate₂ (s₁ s₂ : System ω (File π) MemoKey ThresholdSet ConfigError) w₁ w₂ file
        hardSet softSet, LanguageThresholds.Run hardGate keep gate₁ s₁ →
          LanguageThresholds.Run gate keep gate₂ s₂ → s₁.workers w₁ = .answered file hardSet →
            s₂.workers w₂ = .answered file softSet →
              ∀ (R ρ : Type) (reading : Reading R) (path : ρ) space policy reportSuppressed,
                ∀ violation ∈
                  hardSet.evaluateWithPolicy reading path space policy reportSuppressed,
                  ∃ threshold, threshold.info = violation.threshold.info ∧
                    { violation with threshold } ∈
                      softSet.evaluateWithPolicy reading path space policy reportSuppressed := by
  have hbuilt := SharedLayers.built_of_resolveAll hgate
  refine ⟨?_, ?_, ?_⟩
  · intro keep gate' s w file set hrun hw
    refine ⟨gates_of_answered hgate hrun hw, fun entry _ hard hhard v hv => ?_⟩
    exact entry.breaches_of_hard hhard hv
  · intro keep gate₁ gate₂ s₁ s₂ w₁ w₂ file set₁ set₂ hrun₁ hrun₂ hw₁ hw₂
    obtain ⟨full₁, hfull₁, rfl⟩ := hrun₁.answered hbuilt hw₁
    obtain ⟨full₂, hfull₂, rfl⟩ := hrun₂.answered hbuilt hw₂
    rw [Except.ok.inj (hfull₁.symm.trans hfull₂)]
  · have hvalid := SharedLayers.eagerlyValid_iff.mpr ⟨gate, hgate⟩
    obtain ⟨hardGate, hhardGate⟩ := SharedLayers.eagerlyValid_iff.mp (eagerlyValid_hard hvalid)
    refine ⟨hardGate, hhardGate, ?_⟩
    intro keep gate₁ gate₂ s₁ s₂ w₁ w₂ file hardSet softSet hrun₁ hrun₂ hw₁ hw₂ R ρ reading path
      space policy reportSuppressed violation hviolation
    exact evaluate_softens (gates_of_answered hhardGate hrun₁ hw₁)
      (gates_of_answered hgate hrun₂ hw₂) hviolation

/-- The file that matches both entries has a band on the one metric the soft table names. -/
theorem threshold_layering_overlapping :
    ∃ gate, (SharedLayers.new overlappingCli (.soft none) overlappingLayers).resolveAll
        overlappingLayers = .ok gate ∧
      ∀ gate' (s : System ℕ (File String) MemoKey ThresholdSet ConfigError) w set,
        LanguageThresholds.Run gate none gate' s →
          s.workers w = .answered ⟨"rust", fun _ => "gen/a.rs"⟩ set →
            ("nargs", .finite (63 / 10), some (.finite 7)) ∈ set.rows ∧
              ("cyclomatic", .finite 50, some (.finite 50)) ∈ set.rows := by
  obtain ⟨gate, hgate⟩ := SharedLayers.eagerlyValid_iff.mp overlapping_eagerlyValid
  refine ⟨gate, hgate, fun gate' s w set hrun hw => ?_⟩
  have hrows := ((threshold_layering overlappingCli (.soft none) overlappingLayers gate hgate).1
    none gate' s w _ set hrun hw).1
  constructor
  · refine (hrows _ _ _).mpr ⟨?_, by decide +kernel, by decide +kernel⟩
    rintro names ⟨⟩
  · refine (hrows _ _ _).mpr ⟨?_, by decide +kernel, by decide +kernel⟩
    rintro names ⟨⟩

end BigCodeAnalysis.Thresholds
