import BigCodeAnalysis.Thresholds.Folding

/-! What a gate answers in any run, and why validating single path entries is enough. Whatever was
resolved before and in whatever order the workers ask, a file gets the set its declared tables
resolve to: the invariant of a run says so of every set in the memo. A file may match any set of
path entries, and only single entries are resolved up front. A metric of a fold has the value it
has over one of them, and what else the fold holds can only turn the soft table from unread to
merged, which leaves a metric the table does not name at its hard limit. -/

namespace BigCodeAnalysis.Thresholds

open Catalog Sequences

section

variable {π : Type*} {shared : SharedLayers} {layers : ParsedThresholds π}

/-! ### Narrowed gates -/

theorem PathLayer.mem_rows_narrow {keep : Option (Finset String)} {set : ThresholdSet}
    {row : String × F64 × Option F64} :
    row ∈ (narrow keep set).rows ↔ row ∈ set.rows ∧ ∀ names ∈ keep, row.1 ∈ names := by
  cases keep with
  | none =>
    refine ⟨fun h => ⟨h, ?_⟩, And.left⟩
    rintro names ⟨⟩
  | some names =>
    refine ThresholdSet.mem_rows_narrowedTo.trans (and_congr_right fun _ => ?_)
    refine ⟨fun h names' hnames => ?_, fun h => h names rfl⟩
    exact Option.some.inj hnames ▸ h

namespace LanguageThresholds
variable {gate₀ gate : LanguageThresholds π}

/-- A gate whose sets resolved so far are narrowed, and whose layer narrows what it resolves
later, answers as if everything had been narrowed. -/
theorem service_narrowedTo (hkeep : ∀ layer, gate.path = some layer → layer.keep = none)
    (memo : Table MemoKey ThresholdSet) (names : Finset String) :
    ((gate.withMemo memo).narrowedTo names).service =
      gate.service.map fun set => set.narrowedTo names := by
  obtain ⟨global, perLanguage, path⟩ := gate
  unfold Service.map service
  congr 1
  · funext file
    unfold route withMemo narrowedTo
    dsimp only
    rw [SortedMap.get_map]
    cases path with
    | none => cases perLanguage.get file.lang <;> rfl
    | some layer =>
      have hmatched : (({ layer with memo } : PathLayer π).narrowedTo names).matched file.form =
          layer.matched file.form := rfl
      simp only [Option.map_some, hmatched]
      cases layer.matched file.form with
      | nil => cases perLanguage.get file.lang <;> rfl
      | cons i rest => cases perLanguage.get file.lang <;> rfl
  · funext key
    cases path with
    | none => rfl
    | some layer =>
      have hnone := hkeep layer rfl
      have hnarrowed : (({ layer with memo } : PathLayer π).narrowedTo names).resolve key =
          (layer.resolver.resolveOne (layer.fold key).1 (layer.fold key).2).map
            fun set => set.narrowedTo names := rfl
      simp only [withMemo, narrowedTo, Option.map_some]
      rw [hnarrowed, PathLayer.resolve_of_keep_none hnone]

theorem memo_narrowedTo (memo : Table MemoKey ThresholdSet) (names : Finset String)
    {compute : MemoKey → Except ConfigError ThresholdSet} (h : memo.Sound compute) :
    ((gate.withMemo memo).narrowedTo names).memo.Sound fun key =>
      (compute key).map fun set => set.narrowedTo names := by
  obtain ⟨global, perLanguage, path⟩ := gate
  cases path with
  | none => exact Table.sound_empty _
  | some layer => exact h.map _

/-! ### Runs -/

theorem Built.keep (h : gate.Built shared layers) (layer : PathLayer π)
    (hlayer : gate.path = some layer) : layer.keep = none :=
  (h.path layer hlayer).keep

theorem Built.memo (h : gate.Built shared layers) : gate.memo.Sound gate.service.compute := by
  unfold LanguageThresholds.memo service
  cases hpath : gate.path with
  | none => exact Table.sound_empty _
  | some layer => exact (h.path layer hpath).memo

variable {ω : Type*} [DecidableEq ω] {keep : Option (Finset String)}
  {s : System ω (File π) MemoKey ThresholdSet ConfigError}

/-- The invariant of a run. -/
structure Serves (gate₀ : LanguageThresholds π) (keep : Option (Finset String))
    (gate : LanguageThresholds π) (s : System ω (File π) MemoKey ThresholdSet ConfigError) :
    Prop where
  sound : s.Sound gate.service
  answer : ∀ file, gate.service.answer file = (gate₀.service.answer file).map (PathLayer.narrow keep)
  same : keep = none → gate = gate₀

theorem Run.serves (hbuilt : gate₀.Built shared layers) (hrun : Run gate₀ keep gate s) :
    Serves gate₀ keep gate s := by
  induction hrun with
  | start =>
    refine ⟨System.sound_initial hbuilt.memo, fun file => ?_, fun _ => rfl⟩
    cases gate₀.service.answer file <;> rfl
  | step _ hstep ih => exact ⟨ih.sound.step hstep, ih.answer, ih.same⟩
  | @narrow gate s names _ ih =>
    obtain rfl := ih.same rfl
    have hservice := service_narrowedTo hbuilt.keep s.table names
    refine ⟨System.sound_initial ?_, fun file => ?_, fun h => by cases h⟩
    · rw [hservice]
      exact memo_narrowedTo s.table names ih.sound.table
    · rw [hservice, Service.answer_map]
      rfl

/-- What a worker was answered is the set its file's declared tables resolve to. -/
theorem Run.answered (hbuilt : gate₀.Built shared layers) (hrun : Run gate₀ keep gate s) {w : ω}
    {file : File π} {set : ThresholdSet} (hw : s.workers w = .answered file set) :
    ∃ full, gate₀.service.answer file = .ok full ∧ set = PathLayer.narrow keep full := by
  have hserves := hrun.serves hbuilt
  have hsound := hserves.sound.workers w
  rw [hw] at hsound
  have hanswer := (hserves.answer file).symm.trans hsound
  cases hfull : gate₀.service.answer file with
  | error e =>
    rw [hfull] at hanswer
    cases hanswer
  | ok full =>
    rw [hfull] at hanswer
    exact ⟨full, rfl, (Except.ok.inj hanswer).symm⟩

/-- A worker aborts only when a file's declared tables do not resolve. -/
theorem Run.aborted (hbuilt : gate₀.Built shared layers) (hrun : Run gate₀ keep gate s) {w : ω}
    {e : ConfigError} (hw : s.workers w = .aborted e) :
    ∃ file, gate₀.service.answer file = .error e := by
  have hserves := hrun.serves hbuilt
  have hsound := hserves.sound.workers w
  rw [hw] at hsound
  obtain ⟨file, hfile⟩ := hsound
  refine ⟨file, ?_⟩
  rw [hserves.answer file] at hfile
  cases hfull : gate₀.service.answer file with
  | error e' =>
    rw [hfull] at hfile
    exact hfile
  | ok full =>
    rw [hfull] at hfile
    cases hfile

end LanguageThresholds

end

section

variable {π : Type*} {shared : SharedLayers} {layers : ParsedThresholds π}

/-! ### Tables within tables -/

theorem mergeMode_iff {soft : SortedMap String SoftLimit} :
    mergeMode soft = true ↔ ∃ name limit, soft.get name = some limit := by
  unfold mergeMode
  rw [decide_eq_true_iff, List.ne_nil_iff_exists_cons]
  constructor
  · rintro ⟨e, es, hes⟩
    exact ⟨e.1, e.2, SortedMap.get_eq_some.mpr (hes ▸ List.mem_cons_self ..)⟩
  · rintro ⟨name, limit, hget⟩
    exact List.exists_cons_of_ne_nil (List.ne_nil_of_mem (SortedMap.get_eq_some.mp hget))

namespace SharedLayers

theorem get_softFor (hard : Limits) (name : String) :
    (shared.softFor hard).get name =
      (shared.soft.get name).filter (shared.softEntrySurvives hard name) :=
  SortedMap.get_filter ..

/-- Whether a soft entry applies depends on the limit of its own metric alone. -/
theorem softEntrySurvives_congr {part hard : Limits} {name : String}
    (h : part.get name = hard.get name) :
    shared.softEntrySurvives part name = shared.softEntrySurvives hard name := by
  funext limit
  rw [softEntrySurvives, softEntrySurvives, h]

/-- A table that limits more metrics merges the soft table if the smaller one does. -/
theorem mergeMode_mono {part hard : Limits}
    (h : ∀ name, (part.get name).isSome → (hard.get name).isSome)
    (hmode : mergeMode (shared.softFor part) = true) : mergeMode (shared.softFor hard) = true := by
  obtain ⟨name, limit, hget⟩ := mergeMode_iff.mp hmode
  rw [get_softFor, Option.filter_eq_some_iff] at hget
  refine mergeMode_iff.mpr ⟨name, limit, ?_⟩
  rw [get_softFor, Option.filter_eq_some_iff]
  refine ⟨hget.1, ?_⟩
  have hsurvives := hget.2
  unfold softEntrySurvives at hsurvives ⊢
  cases hpart : (part.get name).isSome with
  | true => simp [h name hpart]
  | false =>
    rw [hpart, Bool.or_false] at hsurvives
    rw [Bool.or_right_comm, hsurvives, Bool.true_or]

/-- A metric that resolves in a part of a table with the value it has in the table resolves in
the table. -/
theorem MetricOk.of_part {part hard : Limits} {name : String} (hok : shared.MetricOk part name)
    (hkeys : ∀ name, (part.get name).isSome → (hard.get name).isSome)
    (hget : part.get name = hard.get name) : shared.MetricOk hard name := by
  have hsoft : (shared.softFor part).get name = (shared.softFor hard).get name := by
    rw [get_softFor, get_softFor, softEntrySurvives_congr hget]
  have hsame : mergeMode (shared.softFor part) = mergeMode (shared.softFor hard) →
      shared.MetricOk hard name := by
    intro hmode
    unfold MetricOk tierOf at hok ⊢
    rw [← hmode, ← hsoft, ← hget]
    exact hok
  cases hpart : mergeMode (shared.softFor part) with
  | true => exact hsame (hpart.trans (mergeMode_mono hkeys hpart).symm)
  | false =>
    cases hhard : mergeMode (shared.softFor hard) with
    | false => exact hsame (hpart.trans hhard.symm)
    | true =>
      -- the part left its limits to the ratio, so no soft entry names the metric
      have hnone : (shared.softFor hard).get name = none := by
        rw [← hsoft]
        by_contra hsome
        obtain ⟨limit, hlimit⟩ := Option.ne_none_iff_exists'.mp hsome
        rw [mergeMode_iff.mpr ⟨name, limit, hlimit⟩] at hpart
        cases hpart
      obtain ⟨limit, htier, hbuild⟩ := hok
      cases htierSpec : shared.tier with
      | hard =>
        refine ⟨limit, ?_, fun v hv => hget ▸ hbuild v hv⟩
        unfold tierOf tierLimit at htier ⊢
        rw [htierSpec] at htier ⊢
        rw [← hget]
        exact htier
      | soft ratio =>
        refine ⟨hard.get name, ?_, fun v hv => ?_⟩
        · unfold tierOf tierLimit
          rw [htierSpec, hhard, hnone]
          rfl
        rw [hv]
        cases hcli : SortedMap.lastOf shared.cli name with
        | some c =>
          unfold overridden at hv hbuild
          rw [hcli] at hv hbuild
          obtain rfl := Option.some.inj hv
          exact hbuild c rfl
        | none =>
          unfold overridden at hv hbuild
          rw [hcli, Option.none_or] at hv
          simp only [hcli, Option.none_or, hget, hv] at hbuild
          unfold tierOf tierLimit at htier
          rw [htierSpec, hpart, hget, hv] at htier
          dsimp only at htier
          obtain ⟨scaled, _, rfl⟩ : ∃ scaled,
              scaleBase name v (ratio.getD defaultSoftHeadroom) = .ok scaled ∧
                some scaled = limit := by
            cases hscale : scaleBase name v (ratio.getD defaultSoftHeadroom) with
            | error e =>
              rw [hscale] at htier
              cases htier
            | ok scaled =>
              rw [hscale] at htier
              exact ⟨scaled, rfl, Except.ok.inj htier⟩
          obtain ⟨entry, hentry⟩ := hbuild scaled rfl
          exact ResolvedThreshold.build_hard hentry

/-! ### Combinations -/

/-- A hard table resolves, whatever tables its errors would blame. -/
def Resolves (shared : SharedLayers) (hard : Limits) : Prop :=
  ∀ context, ∃ set, shared.resolveOne hard context = .ok set

theorem resolves_iff {hard : Limits} :
    shared.Resolves hard ↔ ∀ name, shared.MetricOk hard name :=
  ⟨fun h => resolveOne_ok.mp (h []), fun h _ => resolveOne_ok.mpr h⟩

/-- The tables entries are folded onto. -/
def IsBase (layers : ParsedThresholds π) (base : Limits) : Prop :=
  base = layers.hard ∨
    ∃ slug overrides, layers.lang.get slug = some overrides ∧ base = langHard layers overrides

/-- What is resolved before any file is walked. -/
structure EagerlyValid (shared : SharedLayers) (layers : ParsedThresholds π) : Prop where
  base : ∀ base, IsBase layers base → shared.Resolves base
  single : ∀ base, IsBase layers base → ∀ entry ∈ layers.path,
    shared.Resolves (base.extend entry.limits)

theorem EagerlyValid.combination (h : shared.EagerlyValid layers) {base : Limits}
    (hbase : IsBase layers base) {tables : List Limits}
    (htables : ∀ table ∈ tables, ∃ entry ∈ layers.path, entry.limits = table) :
    shared.Resolves (tables.foldl SortedMap.extend base) := by
  refine resolves_iff.mpr fun name => ?_
  have hfound : ∀ table ∈ tables, ∀ name, (table.get name).isSome →
      (tables.reverse.findSome? fun t => t.get name).isSome := by
    intro table htable name hname
    rw [List.findSome?_isSome_iff]
    exact ⟨table, List.mem_reverse.mpr htable, hname⟩
  cases hfind : tables.reverse.findSome? fun t => t.get name with
  | none =>
    apply (resolves_iff.mp (h.base base hbase) name).of_part
    · intro name' hname'
      rw [get_foldl_extend, Option.isSome_or, hname', Bool.or_true]
    · rw [get_foldl_extend, hfind]
      rfl
  | some v =>
    obtain ⟨table, htable, hv⟩ := List.exists_of_findSome?_eq_some hfind
    obtain ⟨entry, hentry, rfl⟩ := htables table (List.mem_reverse.mp htable)
    apply (resolves_iff.mp (h.single base hbase entry hentry) name).of_part
    · intro name' hname'
      rw [SortedMap.get_extend, Option.isSome_or, Bool.or_eq_true] at hname'
      rw [get_foldl_extend, Option.isSome_or, Bool.or_eq_true]
      exact hname'.imp_left (hfound _ (List.mem_reverse.mp htable) name')
    · rw [get_foldl_extend, hfind, SortedMap.get_extend, hv]

end SharedLayers

/-! ### Keys -/

namespace PathLayer
variable {layer : PathLayer π}

theorem isBase_of_get {slug : WithBot String} {base : BaseTable}
    (h : (SharedLayers.bases layers).get slug = some base) :
    SharedLayers.IsBase layers base.hard := by
  cases slug with
  | bot =>
    rw [SharedLayers.get_bases_bot] at h
    cases h
    exact .inl rfl
  | coe slug =>
    rw [SharedLayers.get_bases_lang, Option.map_eq_some_iff] at h
    obtain ⟨overrides, hlang, rfl⟩ := h
    exact .inr ⟨slug, overrides, hlang, rfl⟩

theorem limits_of_mem {origins : List String} {entries : List (PathThreshold π)}
    {compiled : List (CompiledEntry π)}
    (h : List.Forall₂ (CompiledEntry.Compiles origins) entries compiled) :
    compiled.map CompiledEntry.limits = entries.map PathThreshold.limits := by
  induction h with
  | nil => rfl
  | cons hc _ ih => rw [List.map_cons, List.map_cons, hc.2.2, ih]

/-- A key folds some entries onto some base. -/
theorem fold_eq (hentries : layer.entries.map CompiledEntry.limits =
      layers.path.map PathThreshold.limits)
    (hbases : layer.bases = SharedLayers.bases layers) (key : MemoKey) :
    ∃ base, SharedLayers.IsBase layers base ∧
      (layer.fold key).1 =
        ((key.2.filterMap (layer.entries[·]?)).map CompiledEntry.limits).foldl
          SortedMap.extend base ∧
      ∀ table ∈ (key.2.filterMap (layer.entries[·]?)).map CompiledEntry.limits,
        ∃ entry ∈ layers.path, entry.limits = table := by
  have hbase : ∃ base, (layer.bases.get key.1).or (layer.bases.get ⊥) = some base ∧
      SharedLayers.IsBase layers base.hard := by
    rw [hbases]
    cases hget : (SharedLayers.bases layers).get key.1 with
    | some base => exact ⟨base, rfl, isBase_of_get hget⟩
    | none => exact ⟨_, SharedLayers.get_bases_bot layers, .inl rfl⟩
  obtain ⟨base, hget, hisBase⟩ := hbase
  refine ⟨base.hard, hisBase, ?_, ?_⟩
  · unfold fold
    dsimp only
    rw [fst_foldl_entries, hget]
    rfl
  · intro table htable
    obtain ⟨compiled, hcompiled, rfl⟩ := List.mem_map.mp htable
    obtain ⟨i, _, hi⟩ := List.mem_filterMap.mp hcompiled
    have hmem : compiled.limits ∈ layers.path.map PathThreshold.limits := by
      rw [← hentries]
      exact List.mem_map_of_mem (List.mem_of_getElem? hi)
    exact List.mem_map.mp hmem

/-- No combination of entries over any base errs when what is validated up front does not. -/
theorem resolve_ok (hvalid : layer.resolver.EagerlyValid layers)
    (hentries : layer.entries.map CompiledEntry.limits = layers.path.map PathThreshold.limits)
    (hbases : layer.bases = SharedLayers.bases layers) (key : MemoKey) :
    ∃ set, layer.resolve key = .ok set := by
  obtain ⟨base, hbase, hfold, htables⟩ := fold_eq hentries hbases key
  have hcomb := hvalid.combination hbase htables
  rw [← hfold] at hcomb
  obtain ⟨set, hset⟩ := hcomb (layer.fold key).2
  rw [resolve, hset]
  exact ⟨_, rfl⟩

/-- Every single entry over every base is one of the keys resolved up front. -/
theorem Built.exists_eagerKey {shared : SharedLayers}
    (h : layer.Built layers.path (SharedLayers.bases layers) shared) {base : Limits}
    (hbase : SharedLayers.IsBase layers base) {entry : PathThreshold π}
    (hentry : entry ∈ layers.path) :
    ∃ key ∈ layer.eagerKeys, (layer.fold key).1 = base.extend entry.limits := by
  obtain ⟨slug, table, hget, rfl⟩ : ∃ slug table,
      (SharedLayers.bases layers).get slug = some table ∧ table.hard = base := by
    rcases hbase with rfl | ⟨slug, overrides, hlang, rfl⟩
    · exact ⟨⊥, _, SharedLayers.get_bases_bot layers, rfl⟩
    · refine ⟨slug, SharedLayers.langTable layers slug overrides, ?_, rfl⟩
      rw [SharedLayers.get_bases_lang, hlang]
      rfl
  obtain ⟨compiled, hcompiled, hlimits⟩ : ∃ compiled ∈ layer.entries,
      compiled.limits = entry.limits := by
    have hmem : entry.limits ∈ layer.entries.map CompiledEntry.limits := by
      rw [limits_of_mem h.entries]
      exact List.mem_map_of_mem hentry
    exact List.mem_map.mp hmem
  obtain ⟨i, hlt, hi⟩ := List.mem_iff_getElem.mp hcompiled
  have hread : layer.entries[i]? = some compiled := by rw [List.getElem?_eq_getElem hlt, hi]
  refine ⟨(slug, [i]), ?_, ?_⟩
  · have hslug : slug ∈ layer.bases.keys := by
      rw [h.bases, ← SortedMap.get_isSome, hget]
      rfl
    exact List.mem_flatMap.mpr ⟨slug, hslug, List.mem_map.mpr ⟨i, List.mem_range.mpr hlt, rfl⟩⟩
  · unfold fold
    dsimp only
    rw [fst_foldl_entries, h.bases, hget, List.filterMap_cons_some hread, ← hlimits]
    rfl

end PathLayer

/-- Every file of a built gate has its set. -/
theorem LanguageThresholds.Built.answer_ok {gate : LanguageThresholds π}
    (h : gate.Built shared layers) (hvalid : shared.EagerlyValid layers) (file : File π) :
    ∃ set, gate.service.answer file = .ok set := by
  unfold Service.answer
  cases gate.service.route file with
  | inl set => exact ⟨set, rfl⟩
  | inr key =>
    dsimp only [LanguageThresholds.service]
    cases hpath : gate.path with
    | none => exact ⟨_, rfl⟩
    | some layer =>
      have hlayer := h.path layer hpath
      have hresolver : layer.resolver.EagerlyValid layers := hlayer.resolver ▸ hvalid
      exact PathLayer.resolve_ok hresolver (PathLayer.limits_of_mem hlayer.entries) hlayer.bases key

/-! ### What the construction of the gate checks -/

namespace SharedLayers
variable {gate : LanguageThresholds π}

/-- The gate is built exactly when the eager validation passes. -/
theorem eagerlyValid_iff : shared.EagerlyValid layers ↔ ∃ gate, shared.resolveAll layers = .ok gate := by
  constructor
  · intro h
    obtain ⟨perLanguage, hlang⟩ := (SortedMap.mapE_ok
      (f := fun slug overrides => shared.resolveOne (langHard layers overrides) [.lang slug])
      (m := layers.lang)).mpr fun slug overrides hget =>
        h.base _ (.inr ⟨slug, overrides, hget, rfl⟩) [.lang slug]
    obtain ⟨global, hglobal⟩ := h.base _ (.inl rfl) []
    unfold resolveAll
    rw [hlang]
    dsimp only
    rw [hglobal]
    dsimp only
    split
    · exact ⟨_, rfl⟩
    next entry entries hpath =>
    obtain ⟨layer, hlayer⟩ : ∃ layer, PathLayer.new (entry :: entries) (bases layers) shared =
        .ok layer := by
      rw [← hpath]
      unfold PathLayer.new
      dsimp only
      let layer : PathLayer π :=
        ⟨(compileEntries [] layers.path).1, (compileEntries [] layers.path).2, bases layers, shared,
          .empty, none⟩
      have hlimits := PathLayer.limits_of_mem (compileEntries_spec [] layers.path).2
      have htotal : ∀ key ∈ layer.eagerKeys, ∃ set, layer.resolve key = .ok set :=
        fun key _ => PathLayer.resolve_ok h hlimits rfl key
      obtain ⟨memo, hmemo⟩ : ∃ memo,
          Table.requestAll layer.resolve layer.eagerKeys layer.memo = .ok memo :=
        Table.requestAll_total htotal
      rw [hmemo]
      exact ⟨_, rfl⟩
    rw [hlayer]
    exact ⟨_, rfl⟩
  · rintro ⟨gate, hgate⟩
    have hbuilt := built_of_resolveAll hgate
    have hresolves : ∀ {hard context set}, shared.resolveOne hard context = .ok set →
        shared.Resolves hard := fun hset => resolves_iff.mpr (resolveOne_ok.mp ⟨_, hset⟩)
    refine ⟨fun base hbase => ?_, fun base hbase entry hentry => ?_⟩
    · rcases hbase with rfl | ⟨slug, overrides, hlang, rfl⟩
      · exact hresolves hbuilt.global
      · rcases hbuilt.perLanguage slug with ⟨hnone, _⟩ | ⟨overrides', set, hsome, _, hset⟩
        · rw [hlang] at hnone
          cases hnone
        · obtain rfl := Option.some.inj (hlang.symm.trans hsome)
          exact hresolves hset
    · cases hpath : gate.path with
      | none =>
        rw [hbuilt.noPath hpath] at hentry
        cases hentry
      | some layer =>
        have hlayer := hbuilt.path layer hpath
        obtain ⟨key, hkey, hfold⟩ := hlayer.exists_eagerKey hbase hentry
        obtain ⟨set, hset⟩ := hlayer.eager key hkey
        rw [PathLayer.resolve_of_keep_none hlayer.keep, hlayer.resolver, hfold] at hset
        exact hresolves hset

end SharedLayers

/-! ### No worker aborts -/

/-- When the tables and the single path entries of a run resolve, so does every combination of
entries over every base, the gate is built, and in no run does a worker abort. -/
theorem eager_validation_complete {ω : Type*} [DecidableEq ω] (cli : List (String × F64))
    (tier : TierSpec) (layers : ParsedThresholds π)
    (hvalid : (SharedLayers.new cli tier layers).EagerlyValid layers) :
    (∀ base, SharedLayers.IsBase layers base →
      ∀ entries : List (PathThreshold π), (∀ entry ∈ entries, entry ∈ layers.path) →
        (SharedLayers.new cli tier layers).Resolves
          (entries.foldl (fun hard entry => hard.extend entry.limits) base)) ∧
      ∃ gate, (SharedLayers.new cli tier layers).resolveAll layers = .ok gate ∧
        ∀ keep gate' (s : System ω (File π) MemoKey ThresholdSet ConfigError),
          LanguageThresholds.Run gate keep gate' s → ∀ w e, s.workers w ≠ .aborted e := by
  constructor
  · intro base hbase entries hentries
    rw [← List.foldl_map]
    refine hvalid.combination hbase fun table htable => ?_
    obtain ⟨entry, hentry, rfl⟩ := List.mem_map.mp htable
    exact ⟨entry, hentries entry hentry, rfl⟩
  · obtain ⟨gate, hgate⟩ := SharedLayers.eagerlyValid_iff.mp hvalid
    have hbuilt := SharedLayers.built_of_resolveAll hgate
    refine ⟨gate, hgate, fun keep gate' s hrun w e haborted => ?_⟩
    obtain ⟨file, hfile⟩ := hrun.aborted hbuilt haborted
    obtain ⟨set, hset⟩ := hbuilt.answer_ok hvalid file
    rw [hfile] at hset
    cases hset

/-- Two path entries that overlap, over a language table. A file that matches both merges the
soft table, which the first entry alone leaves to the ratio. -/
def overlappingLayers : ParsedThresholds String where
  hard := SortedMap.empty.insertAll [("cognitive", .finite 20), ("cyclomatic", .finite 10)]
  soft := SortedMap.empty.insertAll [("nargs", .scale (9 / 10))]
  lang := SortedMap.empty.insertAll
    [("rust", SortedMap.empty.insertAll [("cognitive", .finite 30)])]
  path :=
    [ ⟨"gen/*", fun path => path = "gen/a.rs", "/", 1, "bca.toml",
        SortedMap.empty.insertAll [("cyclomatic", .finite 50)]⟩,
      ⟨"**", fun _ => true, "/", 2, "bca.toml",
        SortedMap.empty.insertAll [("nargs", .finite 7)]⟩ ]

def overlappingCli : List (String × F64) := [("loc.sloc", .finite 500)]

theorem overlapping_eagerlyValid :
    (SharedLayers.new overlappingCli (.soft none) overlappingLayers).EagerlyValid
      overlappingLayers := by
  have hok : ((SharedLayers.new overlappingCli (.soft none) overlappingLayers).resolveAll
      overlappingLayers).toOption.isSome = true := by decide +kernel
  apply SharedLayers.eagerlyValid_iff.mpr
  cases hgate : (SharedLayers.new overlappingCli (.soft none) overlappingLayers).resolveAll
      overlappingLayers with
  | ok gate => exact ⟨gate, rfl⟩
  | error e =>
    rw [hgate] at hok
    cases hok

theorem eager_validation_complete_overlapping :
    ∃ gate, (SharedLayers.new overlappingCli (.soft none) overlappingLayers).resolveAll
        overlappingLayers = .ok gate ∧
      ∀ keep gate' (s : System ℕ (File String) MemoKey ThresholdSet ConfigError),
        LanguageThresholds.Run gate keep gate' s → ∀ w e, s.workers w ≠ .aborted e :=
  (eager_validation_complete overlappingCli (.soft none) overlappingLayers
    overlapping_eagerlyValid).2

end

end BigCodeAnalysis.Thresholds
