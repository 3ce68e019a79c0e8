import BigCodeAnalysis.Output.CodeClimate
import BigCodeAnalysis.Sequences.Occurrence
import Mathlib.Data.Set.Function
import Mathlib.Tactic.FieldSimp
import Mathlib.Tactic.GCongr
import Mathlib.Tactic.Linarith
import Mathlib.Tactic.NormNum

/-! Which issues of a report share a fingerprint, what a fingerprint depends on, and how the bands
follow the values. The input of the hash can be read back to its key and its ordinal as long as
the texts of the key have no separator, so with a hash that is injective on the inputs of a report
the fingerprints differ. A band is a function of the badness, which a worse value does not lower.
-/

namespace BigCodeAnalysis.Output

open Catalog (F64 Threshold)
open Sequences

/-! ### The bytes of a fingerprint -/

theorem hexDigitLower_inj : ∀ m < 16, ∀ n < 16, hexDigitLower m = hexDigitLower n → m = n := by
  decide

theorem prefixCode_hexByte : PrefixCode Set.univ
    fun b : UInt8 => [hexDigitLower (b.toNat / 16), hexDigitLower (b.toNat % 16)] where
  ne_nil := fun _ _ => List.cons_ne_nil _ _
  eq_of_prefix := by
    intro a _ b _ h
    have heq := h.eq_of_length rfl
    obtain ⟨hhigh, hlow⟩ := List.cons_eq_cons.mp heq
    have ha := UInt8.toNat_lt a
    have hb := UInt8.toNat_lt b
    have h₁ := hexDigitLower_inj _ (by omega) _ (by omega) hhigh
    have h₂ := hexDigitLower_inj _ (by omega) _ (by omega) (List.cons_eq_cons.mp hlow).1
    apply UInt8.toNat_inj.mp
    omega

theorem hexLowerBytes_injective : Function.Injective hexLowerBytes := by
  intro bytes bytes' h
  have htext := String.ofList_injective h
  exact prefixCode_hexByte.flatMap_injective (fun _ _ => Set.mem_univ _)
    (fun _ _ => Set.mem_univ _) htext

theorem toLeBytes_injective : Function.Injective toLeBytes := by
  intro m n h
  simp only [toLeBytes, List.cons.injEq, and_true] at h
  obtain ⟨h₀, h₁, h₂, h₃⟩ := h
  have key : ∀ k : UInt32, k.toNat = k.toUInt8.toNat + 256 * (k >>> 8).toUInt8.toNat +
      65536 * (k >>> 16).toUInt8.toNat + 16777216 * (k >>> 24).toUInt8.toNat := by
    intro k
    have hk := UInt32.toNat_lt k
    have hshift : ∀ s : UInt32, s.toNat < 32 →
        (k >>> s).toUInt8.toNat = k.toNat / 2 ^ s.toNat % 256 := by
      intro s hs
      rw [UInt32.toNat_toUInt8, UInt32.toNat_shiftRight, Nat.shiftRight_eq_div_pow,
        Nat.mod_eq_of_lt hs]
    rw [hshift 8 (by decide), hshift 16 (by decide), hshift 24 (by decide), UInt32.toNat_toUInt8]
    simp only [UInt32.reduceToNat]
    omega
  apply UInt32.toNat_inj.mp
  rw [key m, key n, h₀, h₁, h₂, h₃]

/-- No separator occurs in the texts of the key. -/
def NoNul (key : Key) : Prop :=
  '\x00' ∉ key.1.toList ∧ '\x00' ∉ (key.2.1.getD "").toList ∧ '\x00' ∉ key.2.2.toList

theorem zero_notMem_utf8 {text : String} (h : '\x00' ∉ text.toList) : (0 : UInt8) ∉ utf8 text :=
  fun hmem => h (mem_of_mem_utf8 (c := '\x00') (by decide) hmem)

/-- Texts without a separator can be read off the input of the hash, and so can the ordinal. -/
theorem fingerprintInput_inj {key key' : Key} (h : NoNul key) (h' : NoNul key') {m n : UInt32}
    (heq : fingerprintInput key.1 key.2.1 key.2.2 m = fingerprintInput key'.1 key'.2.1 key'.2.2 n) :
    key.1 = key'.1 ∧ key.2.1.getD "" = key'.2.1.getD "" ∧ key.2.2 = key'.2.2 ∧ m = n := by
  obtain ⟨hpath, hname, hmetric⟩ := h
  obtain ⟨hpath', hname', hmetric'⟩ := h'
  obtain ⟨hpaths, hrest⟩ :=
    append_separator_inj (zero_notMem_utf8 hpath) (zero_notMem_utf8 hpath') heq
  obtain ⟨hnames, hlast⟩ :=
    append_separator_inj (zero_notMem_utf8 hname) (zero_notMem_utf8 hname') hrest
  refine ⟨utf8_injective hpaths, utf8_injective hnames, ?_⟩
  have hzero := zero_notMem_utf8 hmetric
  have hzero' := zero_notMem_utf8 hmetric'
  have hlow : ∀ k : UInt32, ¬ 0 < k → k = 0 := by
    intro k hk
    have hle := UInt32.not_lt.mp hk
    exact UInt32.le_antisymm hle (UInt32.zero_le)
  by_cases hm : 0 < m
  · by_cases hn : 0 < n
    · rw [if_pos hm, if_pos hn] at hlast
      obtain ⟨hmetrics, hbytes⟩ := append_separator_inj hzero hzero' hlast
      exact ⟨utf8_injective hmetrics, toLeBytes_injective hbytes⟩
    · rw [if_pos hm, if_neg hn, List.append_nil] at hlast
      refine absurd ?_ hzero'
      rw [← hlast]
      exact List.mem_append_right _ (List.mem_cons_self ..)
  · by_cases hn : 0 < n
    · rw [if_neg hm, if_pos hn, List.append_nil] at hlast
      refine absurd ?_ hzero
      rw [hlast]
      exact List.mem_append_right _ (List.mem_cons_self ..)
    · rw [if_neg hm, if_neg hn, List.append_nil, List.append_nil] at hlast
      exact ⟨utf8_injective hlast, (hlow m hm).trans (hlow n hn).symm⟩

/-! ### The fingerprints of a report -/

/-- What a record shares with the other records of its finding, if the report shows it. -/
def findingKey (record : OffenderRecord) : Option Key :=
  ((pathToStr record.path).bind normalizePath).map fun path =>
    (path, record.function, record.metric)

variable (sha256 : List UInt8 → List UInt8) (messageMetric : F64 → String)

/-- The fingerprint of a record with `n` earlier ones of its key. -/
def fingerprintOf (key : Key) (n : ℕ) : String :=
  fingerprint sha256 key.1 key.2.1 key.2.2 (UInt32.ofNat n)

/-- The keys of the issues, numbered. -/
def numberedKeys (records : List OffenderRecord) : List (Key × ℕ) :=
  numbered (fun _ => 0) (records.filterMap findingKey)

theorem writeIssues_fingerprints (records : List OffenderRecord) (seen : Key → ℕ) :
    (writeIssues sha256 messageMetric records fun key => UInt32.ofNat (seen key)).map
        CodeClimateIssue.fingerprint =
      (numbered seen (records.filterMap findingKey)).map fun p => fingerprintOf sha256 p.1 p.2 := by
  induction records generalizing seen with
  | nil => rfl
  | cons record rest ih =>
    rw [writeIssues]
    cases hraw : pathToStr record.path with
    | none =>
      have hkey : findingKey record = none := by rw [findingKey, hraw]; rfl
      rw [List.filterMap_cons_none hkey]
      exact ih seen
    | some pathRaw =>
      cases hpath : normalizePath pathRaw with
      | none =>
        have hkey : findingKey record = none := by
          rw [findingKey, hraw, Option.bind_some, hpath]; rfl
        rw [List.filterMap_cons_none hkey]
        simp only [hpath]
        exact ih seen
      | some path =>
        have hkey : findingKey record = some (path, record.function, record.metric) := by
          rw [findingKey, hraw, Option.bind_some, hpath]; rfl
        rw [List.filterMap_cons_some hkey, numbered]
        simp only [hpath, List.map_cons]
        -- the counter of the key wraps around as the number of its records does
        have hseen : Function.update (fun key => UInt32.ofNat (seen key))
            (path, record.function, record.metric)
            (UInt32.ofNat (seen (path, record.function, record.metric)) + 1) =
            fun key => UInt32.ofNat (Function.update seen (path, record.function, record.metric)
              (seen (path, record.function, record.metric) + 1) key) := by
          funext key
          by_cases h : key = (path, record.function, record.metric)
          · subst h
            rw [Function.update_self, Function.update_self, UInt32.ofNat_add]
            rfl
          · rw [Function.update_of_ne h, Function.update_of_ne h]
        rw [hseen, ih]
        rfl

theorem writeCodeClimate_fingerprints (records : List OffenderRecord) :
    (writeCodeClimate sha256 messageMetric records).map CodeClimateIssue.fingerprint =
      (numberedKeys records).map fun p => fingerprintOf sha256 p.1 p.2 :=
  writeIssues_fingerprints sha256 messageMetric records fun _ => 0

theorem writeIssues_severities (records : List OffenderRecord) (seen : Key → UInt32) :
    (writeIssues sha256 messageMetric records seen).map CodeClimateIssue.severity =
      (records.filter fun record => (findingKey record).isSome).map fun record =>
        severityBand record.metric record.value record.limit record.severity := by
  induction records generalizing seen with
  | nil => rfl
  | cons record rest ih =>
    rw [writeIssues, List.filter_cons, findingKey]
    cases hraw : pathToStr record.path with
    | none => exact ih seen
    | some pathRaw =>
      rw [Option.bind_some]
      cases hpath : normalizePath pathRaw with
      | none =>
        simp only [hpath]
        exact ih seen
      | some path =>
        simp only [hpath, Option.map_some, Option.isSome_some, if_true, List.map_cons, ih]

/-- The fingerprints of the issues of one key, in the order of the report. -/
def fingerprintsOf (key : Key) (records : List OffenderRecord) : List String :=
  ((records.filterMap findingKey).zip (writeCodeClimate sha256 messageMetric records)).filterMap
    fun p => if p.1 = key then some p.2.fingerprint else none

theorem fingerprintsOf_eq (key : Key) (records : List OffenderRecord) :
    fingerprintsOf sha256 messageMetric key records =
      (List.range ((records.filterMap findingKey).count key)).map (fingerprintOf sha256 key) := by
  have hmap : ∀ (keys : List Key) (issues : List CodeClimateIssue),
      (keys.zip issues).filterMap (fun p => if p.1 = key then some p.2.fingerprint else none) =
        (keys.zip (issues.map CodeClimateIssue.fingerprint)).filterMap
          fun p => if p.1 = key then some p.2 else none := by
    intro keys issues
    rw [List.zip_map_right, List.filterMap_map]
    rfl
  have hzip : (records.filterMap findingKey).zip
      ((numberedKeys records).map fun p => fingerprintOf sha256 p.1 p.2) =
      (numberedKeys records).map fun p => (p.1, fingerprintOf sha256 p.1 p.2) := by
    have hkeys : records.filterMap findingKey = (numberedKeys records).map Prod.fst :=
      (map_fst_numbered _ _).symm
    rw [hkeys, List.zip_map']
  rw [fingerprintsOf, hmap, writeCodeClimate_fingerprints, hzip, List.filterMap_map]
  have hfilter : (numberedKeys records).filterMap
      ((fun p : Key × String => if p.1 = key then some p.2 else none) ∘
        fun p => (p.1, fingerprintOf sha256 p.1 p.2)) =
      ((numberedKeys records).filter fun p => p.1 = key).map
        fun p => fingerprintOf sha256 p.1 p.2 := by
    rw [← List.filterMap_eq_map, List.filterMap_filter]
    apply List.filterMap_congr
    intro p _
    by_cases h : p.1 = key
    · simp [h]
    · simp [h]
  rw [hfilter, numberedKeys, filter_numbered, List.map_map]
  apply List.map_congr_left
  intro n _
  exact congrArg (fingerprintOf sha256 key) (Nat.zero_add n)

/-! ### Distinct fingerprints -/

/-- Everything the report hashes. -/
def hashed (records : List OffenderRecord) : List (List UInt8) :=
  (numberedKeys records).map fun p => fingerprintInput p.1.1 p.1.2.1 p.1.2.2 (UInt32.ofNat p.2)

/-- No text has a separator in it, no path and metric come both without a function and with an
empty one, and no key repeats past the counter. -/
structure Separable (keys : List Key) : Prop where
  noNul : ∀ key ∈ keys, NoNul key
  named : ∀ path metric, ¬ ((path, none, metric) ∈ keys ∧ (path, some "", metric) ∈ keys)
  few : ∀ key, keys.count key ≤ 2 ^ 32

/-- Only the missing and the empty function are one text. -/
theorem Separable.eq_of_texts {keys : List Key} (h : Separable keys) {key key' : Key}
    (hkey : key ∈ keys) (hkey' : key' ∈ keys) (hpath : key.1 = key'.1)
    (hname : key.2.1.getD "" = key'.2.1.getD "") (hmetric : key.2.2 = key'.2.2) : key = key' := by
  obtain ⟨path, function, metric⟩ := key
  obtain ⟨path', function', metric'⟩ := key'
  obtain rfl : path = path' := hpath
  obtain rfl : metric = metric' := hmetric
  cases function with
  | none =>
    cases function' with
    | none => rfl
    | some name =>
      obtain rfl : "" = name := hname
      exact absurd ⟨hkey, hkey'⟩ (h.named path metric)
  | some name =>
    cases function' with
    | none =>
      obtain rfl : name = "" := hname
      exact absurd ⟨hkey', hkey⟩ (h.named path metric)
    | some name' =>
      obtain rfl : name = name' := hname
      rfl

theorem nodup_fingerprints {records : List OffenderRecord}
    (hsha : Set.InjOn (fun bytes => (sha256 bytes).take fingerprintByteLen)
      {bytes | bytes ∈ hashed records})
    (hkeys : Separable (records.filterMap findingKey)) :
    ((writeCodeClimate sha256 messageMetric records).map CodeClimateIssue.fingerprint).Nodup := by
  rw [writeCodeClimate_fingerprints]
  apply List.Nodup.map_on _ (nodup_numbered _ _)
  rintro ⟨key, m⟩ hm ⟨key', n⟩ hn hprint
  have hhash := hexLowerBytes_injective hprint
  have hin := hsha (List.mem_map_of_mem hm) (List.mem_map_of_mem hn) hhash
  obtain ⟨hmem, -, hlt⟩ := mem_numbered _ _ hm
  obtain ⟨hmem', -, hlt'⟩ := mem_numbered _ _ hn
  obtain ⟨hpath, hname, hmetric, hord⟩ :=
    fingerprintInput_inj (hkeys.noNul key hmem) (hkeys.noNul key' hmem') hin
  obtain rfl := hkeys.eq_of_texts hmem hmem' hpath hname hmetric
  have hfew := hkeys.few key
  dsimp only at hlt hlt'
  have hnat := congrArg UInt32.toNat hord
  rw [UInt32.toNat_ofNat', UInt32.toNat_ofNat', Nat.mod_eq_of_lt (show m < 2 ^ 32 by omega),
    Nat.mod_eq_of_lt (show n < 2 ^ 32 by omega)] at hnat
  rw [hnat]

/-! ### The bands follow the values -/

theorem severityRank_worstSeverity (a b : String) :
    severityRank (worstSeverity a b) = max (severityRank a) (severityRank b) := by
  unfold worstSeverity
  split_ifs with h
  · exact (max_eq_left h).symm
  · exact (max_eq_right (by omega)).symm

theorem severityRank_floorBand {a b : Severity} (h : a.level ≤ b.level) :
    severityRank (floorBand a) ≤ severityRank (floorBand b) := by
  cases a <;> cases b <;> first | decide | exact absurd h (by decide)

/-- On the scale where a NaN is above every number, `<=` is the order. -/
theorem le_iff {x : F64} {limit : ℚ} :
    le x limit ↔
      Catalog.badness .higherIsWorse x ≤ Catalog.badness .higherIsWorse (.finite limit) := by
  rw [← Catalog.cmpWorse_ne_gt_iff]
  cases x with
  | nan => simp [le, F64.partialCmp, F64.isNan, Catalog.cmpWorse]
  | infinite negative =>
    cases negative <;> simp [le, F64.partialCmp, F64.isNan, Catalog.cmpWorse, F64.numeric]
  | finite value =>
    have hcmp : (F64.finite value).partialCmp (.finite limit) = some (cmp value limit) := rfl
    have hworse : Catalog.cmpWorse .higherIsWorse (.finite value) (.finite limit) =
        cmp value limit := rfl
    rw [le, hcmp, hworse]
    generalize cmp value limit = order
    cases order <;> simp

theorem severityRank_bandOf {s t : F64}
    (h : Catalog.badness .higherIsWorse s ≤ Catalog.badness .higherIsWorse t) :
    severityRank (bandOf s) ≤ severityRank (bandOf t) := by
  have hle : ∀ limit, le t limit → le s limit := fun limit ht => le_iff.mpr (h.trans (le_iff.mp ht))
  unfold bandOf
  by_cases h₁ : le t (3 / 2)
  · rw [if_pos h₁, if_pos (hle _ h₁)]
  · rw [if_neg h₁]
    by_cases h₂ : le t 2
    · rw [if_pos h₂, if_pos (hle _ h₂)]
      split_ifs <;> decide
    · rw [if_neg h₂]
      by_cases h₃ : le t 4
      · rw [if_pos h₃, if_pos (hle _ h₃)]
        split_ifs <;> decide
      · rw [if_neg h₃]
        split_ifs <;> decide

theorem unit_pos (threshold : Threshold) {min max : F64} {unit : ℚ}
    (h : threshold.info.scale = .interval min max unit) : 0 < unit := by
  have hmem := List.mem_of_find?_eq_some threshold.known
  have hall : ∀ info ∈ Catalog.metrics, ∀ min max unit,
      info.scale = .interval min max unit → 0 < unit := by
    intro info hinfo min max unit hscale
    simp only [Catalog.metrics, List.mem_cons, List.not_mem_nil, or_false] at hinfo
    rcases hinfo with rfl | rfl | rfl | rfl | rfl | rfl | rfl | rfl | rfl | rfl | rfl | rfl | rfl |
      rfl | rfl | rfl | rfl | rfl | rfl | rfl | rfl | rfl | rfl | rfl | rfl <;> cases hscale <;>
      norm_num [Catalog.miOriginalUnit, Catalog.miVisualStudioUnit]
  exact hall _ hmem _ _ _ h

/-- Of two finite values of one limit the worse has the higher severity. -/
theorem badness_severity (threshold : Threshold) {x y : ℚ}
    (h : Catalog.badness threshold.info.direction (.finite x) ≤
      Catalog.badness threshold.info.direction (.finite y)) :
    Catalog.badness .higherIsWorse (threshold.severity (.finite x)) ≤
      Catalog.badness .higherIsWorse (threshold.severity (.finite y)) := by
  have hfinite : ∀ {a b : ℚ}, a ≤ b → Catalog.badness .higherIsWorse (.finite a) ≤
      Catalog.badness .higherIsWorse (.finite b) :=
    fun hab => Prod.Lex.toLex_le_toLex.mpr (.inr ⟨rfl, hab⟩)
  have htop : ∀ a : ℚ, Catalog.badness .higherIsWorse (.finite a) ≤
      Catalog.badness .higherIsWorse (.infinite false) :=
    fun a => Prod.Lex.toLex_le_toLex.mpr (.inl (by simp))
  unfold Threshold.severity
  cases hdir : threshold.info.direction with
  | higherIsWorse =>
    rw [hdir] at h
    have hxy : x ≤ y := by
      rcases Prod.Lex.toLex_le_toLex.mp h with hlt | ⟨-, hle⟩
      · exact absurd hlt (lt_irrefl _)
      · exact hle
    cases hscale : threshold.info.scale with
    | interval min max unit =>
      have hunit := unit_pos threshold hscale
      have hexcess : ∀ v : ℚ, threshold.excess (.finite v) = .finite (v - threshold.limit) := by
        intro v
        rw [Threshold.excess, hdir]
        rfl
      rw [hexcess, hexcess]
      apply hfinite
      show 1 + (x - threshold.limit) / unit ≤ 1 + (y - threshold.limit) / unit
      gcongr
    | ratio =>
      dsimp only
      split_ifs with hlimit
      · apply hfinite
        show x / threshold.limit ≤ y / threshold.limit
        gcongr
      · exact le_rfl
  | lowerIsWorse =>
    rw [hdir] at h
    have hyx : y ≤ x := by
      rcases Prod.Lex.toLex_le_toLex.mp h with hlt | ⟨-, hle⟩
      · exact absurd hlt (lt_irrefl _)
      · exact neg_le_neg_iff.mp hle
    cases hscale : threshold.info.scale with
    | interval min max unit =>
      have hunit := unit_pos threshold hscale
      have hexcess : ∀ v : ℚ, threshold.excess (.finite v) = .finite (-v + threshold.limit) := by
        intro v
        rw [Threshold.excess, hdir]
        rfl
      rw [hexcess, hexcess]
      apply hfinite
      show 1 + (-x + threshold.limit) / unit ≤ 1 + (-y + threshold.limit) / unit
      gcongr
    | ratio =>
      have hlimit := threshold.nonneg hscale
      dsimp only [Threshold.floorSeverity]
      by_cases hy : 0 < y
      · rw [if_pos hy, if_pos (hy.trans_le hyx)]
        apply hfinite
        gcongr
      · rw [if_neg hy]
        split_ifs with hx
        · exact htop _
        · exact le_rfl

/-- A worse finite value does not get a milder band, unless a lesser severity is declared. -/
theorem severityRank_severityBand {metric : String} {limit a b : F64} {s t : Severity}
    {checked : Threshold.Checked} (hcheck : Threshold.check metric limit = .ok checked)
    (ha : checked.threshold.breaches a) (hb : checked.threshold.breaches b)
    (hfinite : b.isFinite) (hworse : checked.threshold.info.cmpWorse a b ≠ .gt)
    (hdeclared : s.level ≤ t.level) :
    severityRank (severityBand metric a limit s) ≤ severityRank (severityBand metric b limit t) := by
  have hle := Catalog.cmpWorse_ne_gt_iff.mp hworse
  have hlt := (Threshold.breaches_iff.mp ha).2
  cases b with
  | nan => cases hfinite
  | infinite => cases hfinite
  | finite y =>
    cases a with
    | finite x =>
      simp only [severityBand, F64.isFinite, hcheck, ha, hb, Bool.not_true, Bool.false_eq_true,
        if_false]
      rw [severityRank_worstSeverity, severityRank_worstSeverity]
      exact max_le_max (severityRank_bandOf (badness_severity _ hle))
        (severityRank_floorBand hdeclared)
    | nan | infinite =>
      -- a value that is not finite stays at the floor
      rw [severityBand]
      simp only [F64.isFinite, Bool.not_false, if_true]
      refine (severityRank_floorBand hdeclared).trans ?_
      simp only [severityBand, F64.isFinite, hcheck, hb, Bool.not_true, Bool.false_eq_true,
        if_false]
      rw [severityRank_worstSeverity]
      exact le_max_right _ _

/-- A fingerprint depends on the key and on the number of earlier records with it, so what is done
to the records of other keys, or to lines and values, changes none. The fingerprints of separable
records are distinct where the truncated hash is injective. Of two finite breaches of one limit
the worse does not get a milder band, unless it declares a lesser severity. -/
theorem codeClimate_issues :
    (∀ records i,
      ((writeCodeClimate sha256 messageMetric records)[i]?).map CodeClimateIssue.fingerprint =
        ((records.filterMap findingKey)[i]?).map fun key =>
          fingerprintOf sha256 key (((records.filterMap findingKey).take i).count key)) ∧
    (∀ records records' key,
      (records.filterMap findingKey).count key = (records'.filterMap findingKey).count key →
      fingerprintsOf sha256 messageMetric key records =
        fingerprintsOf sha256 messageMetric key records') ∧
    (∀ records, Set.InjOn (fun bytes => (sha256 bytes).take fingerprintByteLen)
        {bytes | bytes ∈ hashed records} →
      Separable (records.filterMap findingKey) →
      ((writeCodeClimate sha256 messageMetric records).map CodeClimateIssue.fingerprint).Nodup) ∧
    (∀ records, (writeCodeClimate sha256 messageMetric records).map CodeClimateIssue.severity =
      (records.filter fun record => (findingKey record).isSome).map fun record =>
        severityBand record.metric record.value record.limit record.severity) ∧
    ∀ (metric : String) (limit a b : F64) (s t : Severity) (checked : Threshold.Checked),
      Threshold.check metric limit = .ok checked →
      checked.threshold.breaches a → checked.threshold.breaches b → b.isFinite →
      checked.threshold.info.cmpWorse a b ≠ .gt → s.level ≤ t.level →
      severityRank (severityBand metric a limit s) ≤
        severityRank (severityBand metric b limit t) := by
  refine ⟨?_, ?_, ?_, ?_, ?_⟩
  · intro records i
    rw [← List.getElem?_map, writeCodeClimate_fingerprints, List.getElem?_map, numberedKeys,
      getElem?_numbered, Option.map_map]
    apply Option.map_congr
    intro key _
    exact congrArg (fingerprintOf sha256 key) (Nat.zero_add _)
  · intro records records' key hcount
    rw [fingerprintsOf_eq, fingerprintsOf_eq, hcount]
  · intro records hsha hkeys
    exact nodup_fingerprints sha256 messageMetric hsha hkeys
  · intro records
    exact writeIssues_severities sha256 messageMetric records _
  · intro metric limit a b s t checked hcheck ha hb hfinite hworse hdeclared
    exact severityRank_severityBand hcheck ha hb hfinite hworse hdeclared

/-- A function whose cyclomatic complexity is above ten. -/
def overTen (value : ℚ) (severity : Severity) : OffenderRecord where
  path := utf8 "src/foo.rs"
  function := some "f"
  startLine := 42
  endLine := 50
  startCol := some 5
  metric := "cyclomatic"
  value := .finite value
  limit := .finite 10
  severity := severity

/-- SHA-256 on what two records of one key feed it. -/
def sampleSha256 (bytes : List UInt8) : List UInt8 :=
  if bytes = fingerprintInput "src/foo.rs" (some "f") "cyclomatic" 0 then
    [32, 156, 65, 199, 202, 167, 14, 41, 111, 11, 184, 41, 70, 204, 231, 204, 54, 98, 123, 95,
      76, 211, 28, 155, 66, 132, 64, 85, 239, 17, 75, 113]
  else if bytes = fingerprintInput "src/foo.rs" (some "f") "cyclomatic" 1 then
    [191, 36, 44, 68, 49, 34, 46, 223, 78, 64, 109, 66, 124, 121, 148, 147, 35, 174, 96, 206,
      90, 132, 213, 187, 100, 66, 20, 36, 89, 46, 100, 83]
  else []

/-- Whole numbers as the messages write them. -/
def integerMetric : F64 → String
  | .finite value => toString value.num
  | _ => ""

theorem codeClimate_issues_twins :
    ((writeCodeClimate sampleSha256 integerMetric [overTen 11 .warning, overTen 12 .warning]).map
      CodeClimateIssue.fingerprint).Nodup := by
  apply (codeClimate_issues sampleSha256 integerMetric).2.2.1
  · have hhashed : hashed [overTen 11 .warning, overTen 12 .warning] =
        [fingerprintInput "src/foo.rs" (some "f") "cyclomatic" 0,
          fingerprintInput "src/foo.rs" (some "f") "cyclomatic" 1] := by decide +kernel
    rw [hhashed]
    have hne : (sampleSha256 (fingerprintInput "src/foo.rs" (some "f") "cyclomatic" 0)).take 16 ≠
        (sampleSha256 (fingerprintInput "src/foo.rs" (some "f") "cyclomatic" 1)).take 16 := by
      decide +kernel
    rintro bytes hbytes bytes' hbytes' heq
    simp only [Set.mem_ofPred_eq, List.mem_cons, List.not_mem_nil, or_false] at hbytes hbytes'
    rcases hbytes with rfl | rfl <;> rcases hbytes' with rfl | rfl
    · rfl
    · exact absurd heq hne
    · exact absurd heq.symm hne
    · rfl
  · have hkeys : [overTen 11 .warning, overTen 12 .warning].filterMap findingKey =
        [("src/foo.rs", some "f", "cyclomatic"), ("src/foo.rs", some "f", "cyclomatic")] := by
      decide +kernel
    rw [hkeys]
    refine ⟨?_, ?_, ?_⟩
    · simp only [NoNul]
      decide +kernel
    · rintro path metric ⟨hnone, -⟩
      simp at hnone
    · intro key
      exact (List.count_le_length ..).trans (by norm_num)

/-- The band of a breach that was declared an error is not reached by a worse warning. -/
theorem milder_warning : ¬ ∀ (metric : String) (limit a b : F64) (s t : Severity)
    (checked : Threshold.Checked), Threshold.check metric limit = .ok checked →
    checked.threshold.breaches a → checked.threshold.breaches b →
    checked.threshold.info.cmpWorse a b = .lt →
    severityRank (severityBand metric a limit s) ≤ severityRank (severityBand metric b limit t) := by
  intro h
  have hcyclomatic := h "cyclomatic" (.finite 10) (.finite 11) (.finite 12) .error .warning
  cases hcheck : Threshold.check "cyclomatic" (.finite 10) with
  | error e =>
    have hok : (Threshold.check "cyclomatic" (.finite 10)).isOk = true := by decide +kernel
    rw [hcheck] at hok
    cases hok
  | ok checked =>
    have hrank : ¬ severityRank (severityBand "cyclomatic" (.finite 11) (.finite 10) .error) ≤
        severityRank (severityBand "cyclomatic" (.finite 12) (.finite 10) .warning) := by
      decide +kernel
    obtain ⟨hid, hlimit⟩ := Threshold.check_ok hcheck
    have hlookup := checked.threshold.known
    rw [hid] at hlookup
    have hdir : checked.threshold.info.direction = .higherIsWorse :=
      congrArg (fun info => (info.map Catalog.MetricInfo.direction).getD .lowerIsWorse) hlookup.symm
    have hlim : checked.threshold.limit = 10 := F64.finite.inj hlimit
    refine hrank (hcyclomatic checked hcheck ?_ ?_ ?_)
    · rw [Threshold.breaches, hdir, hlim]
      decide +kernel
    · rw [Threshold.breaches, hdir, hlim]
      decide +kernel
    · rw [Catalog.MetricInfo.cmpWorse, hdir]
      decide +kernel

end BigCodeAnalysis.Output
