import BigCodeAnalysis.Sequences.Fallible
import BigCodeAnalysis.Thresholds.Soft

/-! The thresholds a file is gated at. Every entry was checked when the set was built. -/

namespace BigCodeAnalysis.Thresholds

open Catalog Sequences Spaces

/-- The name of a threshold and the metric family it is read from. -/
structure MetricExtractor where
  name : String
  metric : Metric
  deriving DecidableEq, Repr

def extractors : List MetricExtractor :=
  [ ⟨"cognitive", .cognitive⟩, ⟨"cyclomatic", .cyclomatic⟩, ⟨"cyclomatic.modified", .cyclomatic⟩,
    ⟨"halstead.volume", .halstead⟩, ⟨"halstead.difficulty", .halstead⟩,
    ⟨"halstead.effort", .halstead⟩, ⟨"halstead.time", .halstead⟩, ⟨"halstead.bugs", .halstead⟩,
    ⟨"loc.sloc", .loc⟩, ⟨"loc.ploc", .loc⟩, ⟨"loc.lloc", .loc⟩, ⟨"loc.cloc", .loc⟩,
    ⟨"loc.blank", .loc⟩, ⟨"loc.dloc", .loc⟩, ⟨"nom", .nom⟩, ⟨"tokens", .tokens⟩,
    ⟨"nexits", .nexits⟩, ⟨"nargs", .nargs⟩, ⟨"mi.original", .mi⟩, ⟨"mi.sei", .mi⟩,
    ⟨"mi.visual_studio", .mi⟩, ⟨"abc", .abc⟩, ⟨"wmc", .wmc⟩, ⟨"npm", .npm⟩, ⟨"npa", .npa⟩ ]

def lookupExtractor (name : String) : Option MetricExtractor :=
  extractors.find? fun e => e.name = name

theorem name_of_lookupExtractor {name : String} {extractor : MetricExtractor}
    (h : lookupExtractor name = some extractor) : extractor.name = name := by
  simpa using List.find?_some h

def checkedThreshold (name : String) (limit : F64) : Except LimitError Threshold :=
  (Threshold.check name limit).map Threshold.Checked.threshold

theorem checkedThreshold_ok {name : String} {limit : F64} {threshold : Threshold}
    (h : checkedThreshold name limit = .ok threshold) :
    threshold.info.id = name ∧ .finite threshold.limit = limit := by
  unfold checkedThreshold at h
  cases hcheck : Threshold.check name limit with
  | error e =>
    rw [hcheck] at h
    cases h
  | ok checked =>
    rw [hcheck] at h
    cases h
    exact Threshold.check_ok hcheck

/-- One gated metric. The ceiling is the hard limit, which a soft-tier limit is never looser
than. -/
structure ResolvedThreshold where
  extractor : MetricExtractor
  threshold : Threshold
  hardLimit : Option Threshold
  known : lookupExtractor extractor.name = some extractor
  named : threshold.info.id = extractor.name
  hardNamed : ∀ hard ∈ hardLimit, hard.info.id = extractor.name
  tighter : ∀ hard ∈ hardLimit, hard.breaches (.finite threshold.limit) = false

inductive BuildError where
  | unknownMetric (name : String)
  | limit (error : LimitError)
  | looser (name : String) (soft : F64) (hard : ℚ)
  deriving DecidableEq, Repr

/-- The hard ceiling of a metric, if it has one. -/
def checkedHard (name : String) : Option F64 → Except LimitError (Option Threshold)
  | none => .ok none
  | some hard => (checkedThreshold name hard).map some

theorem checkedHard_ok {name : String} {hard : Option F64} {hardLimit : Option Threshold}
    (h : checkedHard name hard = .ok hardLimit) :
    (∀ t ∈ hardLimit, t.info.id = name) ∧ hardLimit.map (fun t => F64.finite t.limit) = hard := by
  cases hard with
  | none =>
    cases h
    refine ⟨?_, rfl⟩
    rintro t ⟨⟩
  | some limit =>
    rw [checkedHard] at h
    cases hcheck : checkedThreshold name limit with
    | error e =>
      rw [hcheck] at h
      cases h
    | ok t =>
      rw [hcheck] at h
      cases h
      obtain ⟨hid, hlimit⟩ := checkedThreshold_ok hcheck
      exact ⟨fun t' ht' => Option.some.inj ht' ▸ hid, congrArg some hlimit⟩

/-- One entry of a set, from the limit of the tier and the hard limit. -/
def ResolvedThreshold.build (name : String) (limit : F64) (hard : Option F64) :
    Except BuildError ResolvedThreshold :=
  match hextractor : lookupExtractor name with
  | none => .error (.unknownMetric name)
  | some extractor =>
    match hlimit : checkedThreshold extractor.name limit with
    | .error e => .error (.limit e)
    | .ok threshold =>
      match hhard : checkedHard extractor.name hard with
      | .error e => .error (.limit e)
      | .ok none => .ok
        { extractor, threshold, hardLimit := none
          known := name_of_lookupExtractor hextractor ▸ hextractor
          named := (checkedThreshold_ok hlimit).1
          hardNamed := fun _ h => by cases h
          tighter := fun _ h => by cases h }
      | .ok (some ceiling) =>
        if hloose : ceiling.breaches limit then .error (.looser name limit ceiling.limit)
        else .ok
          { extractor, threshold, hardLimit := some ceiling
            known := name_of_lookupExtractor hextractor ▸ hextractor
            named := (checkedThreshold_ok hlimit).1
            hardNamed := (checkedHard_ok hhard).1
            tighter := fun _ h => by
              rw [(checkedThreshold_ok hlimit).2, ← Option.some.inj h]
              exact Bool.eq_false_iff.mpr hloose }

namespace ResolvedThreshold

/-- An entry has the two limits it was built from. -/
theorem build_ok {name : String} {limit : F64} {hard : Option F64} {entry : ResolvedThreshold}
    (h : build name limit hard = .ok entry) :
    entry.extractor.name = name ∧ .finite entry.threshold.limit = limit ∧
      entry.hardLimit.map (fun t => F64.finite t.limit) = hard := by
  unfold build at h
  split at h
  · cases h
  next extractor hextractor =>
  have hname := name_of_lookupExtractor hextractor
  split at h
  · cases h
  next threshold hlimit =>
  have hvalue := (checkedThreshold_ok hlimit).2
  split at h
  · cases h
  · next hhard =>
    cases h
    exact ⟨hname, hvalue, (checkedHard_ok hhard).2⟩
  · next ceiling hhard =>
    split_ifs at h
    cases h
    exact ⟨hname, hvalue, (checkedHard_ok hhard).2⟩

theorem not_breaches_self (t : Threshold) : t.breaches (.finite t.limit) = false := by
  rw [Threshold.breaches_finite]
  cases t.info.direction with
  | higherIsWorse => simp
  | lowerIsWorse => simp

/-- A metric whose hard limit is accepted next to a limit can be gated at the hard limit. -/
theorem build_hard {name : String} {limit hard : F64} {entry : ResolvedThreshold}
    (h : build name limit (some hard) = .ok entry) :
    ∃ entry', build name hard (some hard) = .ok entry' := by
  unfold build at h
  split at h
  · cases h
  next extractor hextractor =>
  split at h
  · cases h
  split at h
  · cases h
  · next hhard =>
    have hnone := (checkedHard_ok hhard).2
    cases hnone
  next ceiling hhard =>
  have hceiling : checkedThreshold extractor.name hard = .ok ceiling := by
    rw [checkedHard] at hhard
    cases hcheck : checkedThreshold extractor.name hard with
    | error e =>
      rw [hcheck] at hhard
      cases hhard
    | ok t =>
      rw [hcheck] at hhard
      cases hhard
      rfl
  have hself : ceiling.breaches hard = false := by
    rw [← (checkedThreshold_ok hceiling).2]
    exact not_breaches_self ceiling
  unfold build
  split
  · next he =>
    rw [hextractor] at he
    cases he
  next extractor' he =>
  obtain rfl := Option.some.inj (hextractor.symm.trans he)
  split
  · next e he =>
    rw [hceiling] at he
    cases he
  split
  · next e he =>
    rw [hhard] at he
    cases he
  · next he =>
    rw [hhard] at he
    cases he
  · next c he =>
    rw [hhard] at he
    cases he
    rw [dif_neg (by rw [hself]; exact Bool.false_ne_true)]
    exact ⟨_, rfl⟩

/-- A value past the hard ceiling is past the limit of the tier. -/
theorem breaches_of_hard (entry : ResolvedThreshold) {hard : Threshold}
    (hhard : hard ∈ entry.hardLimit) {v : F64} (hv : hard.breaches v) :
    entry.threshold.breaches v := by
  have hinfo : hard.info = entry.threshold.info := by
    have hid := (entry.hardNamed hard hhard).trans entry.named.symm
    have h := hard.known.symm.trans ((congrArg lookup hid).trans entry.threshold.known)
    exact Option.some.inj h
  have hside : ¬ hard.breaches (.finite entry.threshold.limit) := by
    rw [entry.tighter hard hhard]
    exact Bool.false_ne_true
  rw [Threshold.breaches_iff, hinfo] at hside hv
  rw [Threshold.breaches_iff]
  refine ⟨hv.1, lt_of_le_of_lt ?_ hv.2⟩
  exact not_lt.mp fun h => hside ⟨rfl, h⟩

end ResolvedThreshold

/-! ### Sets -/

/-- Entries in the order of their names. -/
structure ThresholdSet where
  entries : List ResolvedThreshold
  sorted : entries.Pairwise fun a b => a.extractor.name < b.extractor.name

/-- What a set says of a metric: its name, the limit and the hard ceiling. -/
def ResolvedThreshold.row (entry : ResolvedThreshold) : String × F64 × Option F64 :=
  (entry.extractor.name, .finite entry.threshold.limit,
    entry.hardLimit.map fun t => .finite t.limit)

namespace ThresholdSet

def rows (set : ThresholdSet) : List (String × F64 × Option F64) :=
  set.entries.map ResolvedThreshold.row

def buildEntry (hard : Limits) (e : String × F64) : Except BuildError ResolvedThreshold :=
  ResolvedThreshold.build e.1 e.2 (hard.get e.1)

theorem sorted_of_mapE {raw hard : Limits} {entries : List ResolvedThreshold}
    (h : mapE (buildEntry hard) raw.entries = .ok entries) :
    entries.Pairwise fun a b => a.extractor.name < b.extractor.name := by
  have hnames : entries.map (fun e => e.extractor.name) = raw.entries.map Prod.fst :=
    map_of_mapE (fun _ _ hbuild => (ResolvedThreshold.build_ok hbuild).1) h
  have hsorted : (entries.map fun e => e.extractor.name).Pairwise (· < ·) := by
    rw [hnames]
    exact List.pairwise_map.mpr raw.sorted
  exact List.pairwise_map.mp hsorted

def buildTiered (raw hard : Limits) : Except BuildError ThresholdSet :=
  match h : mapE (buildEntry hard) raw.entries with
  | .error e => .error e
  | .ok entries => .ok ⟨entries, sorted_of_mapE h⟩

theorem buildTiered_ok {raw hard : Limits} :
    (∃ set, buildTiered raw hard = .ok set) ↔
      ∀ name limit, raw.get name = some limit →
        ∃ entry, ResolvedThreshold.build name limit (hard.get name) = .ok entry := by
  have hall : (∃ set, buildTiered raw hard = .ok set) ↔
      ∃ entries, mapE (buildEntry hard) raw.entries = .ok entries := by
    unfold buildTiered
    split
    · next e he => simp [he]
    · next entries he => simp [he]
  rw [hall, mapE_ok]
  constructor
  · intro h name limit hget
    exact h (name, limit) (SortedMap.get_eq_some.mp hget)
  · intro h e he
    exact h e.1 e.2 (SortedMap.get_eq_some.mpr he)

/-- A set gates the metrics of the table it was built from, and no others. -/
theorem mem_rows_buildTiered {raw hard : Limits} {set : ThresholdSet}
    (h : buildTiered raw hard = .ok set) {name : String} {limit : F64} {ceiling : Option F64} :
    (name, limit, ceiling) ∈ set.rows ↔ raw.get name = some limit ∧ hard.get name = ceiling := by
  unfold buildTiered at h
  split at h
  · cases h
  next entries hentries =>
  cases h
  rw [rows, List.mem_map]
  constructor
  · rintro ⟨entry, hentry, hrow⟩
    obtain ⟨e, he, hbuild⟩ := (mem_of_mapE hentries).mp hentry
    obtain ⟨hname, hlimit, hceiling⟩ := ResolvedThreshold.build_ok hbuild
    rw [ResolvedThreshold.row, hname, hlimit, hceiling] at hrow
    cases hrow
    exact ⟨SortedMap.get_eq_some.mpr he, rfl⟩
  · rintro ⟨hlimit, rfl⟩
    have he := SortedMap.get_eq_some.mp hlimit
    obtain ⟨entry, hbuild⟩ := mapE_ok.mp ⟨entries, hentries⟩ _ he
    refine ⟨entry, (mem_of_mapE hentries).mpr ⟨_, he, hbuild⟩, ?_⟩
    obtain ⟨hname, hvalue, hceiling⟩ := ResolvedThreshold.build_ok hbuild
    rw [ResolvedThreshold.row, hname, hvalue, hceiling]

def narrowedTo (set : ThresholdSet) (keep : Finset String) : ThresholdSet where
  entries := set.entries.filter fun e => e.extractor.name ∈ keep
  sorted := set.sorted.filter _

theorem mem_rows_narrowedTo {set : ThresholdSet} {keep : Finset String}
    {row : String × F64 × Option F64} :
    row ∈ (set.narrowedTo keep).rows ↔ row ∈ set.rows ∧ row.1 ∈ keep := by
  simp only [rows, narrowedTo, List.mem_map, List.mem_filter, decide_eq_true_eq]
  constructor
  · rintro ⟨entry, ⟨hentry, hkeep⟩, rfl⟩
    exact ⟨⟨entry, hentry, rfl⟩, hkeep⟩
  · rintro ⟨⟨entry, hentry, rfl⟩, hkeep⟩
    exact ⟨entry, ⟨hentry, hkeep⟩, rfl⟩

/-- The metric families the set reads, each once. -/
def selectedMetrics (set : ThresholdSet) : List Metric :=
  set.entries.foldl
    (fun selected entry =>
      if entry.extractor.metric ∈ selected then selected
      else selected ++ [entry.extractor.metric])
    []

end ThresholdSet

end BigCodeAnalysis.Thresholds
