import BigCodeAnalysis.Sequences.Memo
import BigCodeAnalysis.Thresholds.Set
import Mathlib.Order.WithBot

/-! The layers of a configuration, and the sets files are gated at. One routine resolves a hard
table through the tier and the command line. It makes the global set, one for each language
table, and one for each combination of path entries over one of those, which is resolved when a
file first asks. -/

namespace BigCodeAnalysis.Thresholds

open Catalog Sequences

/-- The tables a message blames. -/
inductive TableName where
  | lang (slug : String)
  | path (ordinal : ℕ) (glob source : String)
  deriving DecidableEq, Repr

/-- One path entry. Its pattern is matched against the form a file's path takes under the
directory of the config that declared it. -/
structure PathThreshold (π : Type*) where
  glob : String
  pattern : π → Bool
  origin : String
  ordinal : ℕ
  source : String
  limits : Limits

def PathThreshold.context {π : Type*} (entry : PathThreshold π) : TableName :=
  .path entry.ordinal entry.glob entry.source

/-- The tables of a run, still unresolved: language tables and path entries hold only what they
override. -/
structure ParsedThresholds (π : Type*) where
  hard : Limits
  soft : SortedMap String SoftLimit
  lang : SortedMap String Limits
  path : List (PathThreshold π)

inductive ConfigError where
  | soft (error : SoftError)
  | build (tables : List TableName) (error : BuildError)
  deriving DecidableEq, Repr

/-- What every table of a run shares. -/
structure SharedLayers where
  cli : List (String × F64)
  tier : TierSpec
  soft : SortedMap String SoftLimit
  hardSomewhere : Finset String

namespace SharedLayers

def new {π : Type*} (cli : List (String × F64)) (tier : TierSpec) (layers : ParsedThresholds π) :
    SharedLayers where
  cli := cli
  tier := tier
  soft := layers.soft
  hardSomewhere :=
    (layers.hard.keys ++ layers.lang.entries.flatMap (fun e => e.2.keys) ++
      layers.path.flatMap fun entry => entry.limits.keys).toFinset

variable (shared : SharedLayers)

/-- A factor for a metric that only other tables limit is dropped. -/
def softEntrySurvives (hard : Limits) (name : String) (limit : SoftLimit) : Bool :=
  !limit.isScale || (hard.get name).isSome || name ∉ shared.hardSomewhere

/-- The soft table as one hard table sees it. -/
def softFor (hard : Limits) : SortedMap String SoftLimit :=
  shared.soft.filter (shared.softEntrySurvives hard)

/-- The command line comes last, over the limit and over the ceiling. -/
def resolveOne (hard : Limits) (context : List TableName) : Except ConfigError ThresholdSet :=
  match resolveTier shared.tier hard (shared.softFor hard) with
  | .error e => .error (.soft e)
  | .ok merged =>
    match ThresholdSet.buildTiered (merged.insertAll shared.cli) (hard.insertAll shared.cli) with
    | .error e => .error (.build context e)
    | .ok set => .ok set

/-! ### One metric of one table -/

/-- The tier's limit for a metric of a table. -/
def tierOf (hard : Limits) (name : String) : Except SoftError (Option F64) :=
  tierLimit shared.tier (mergeMode (shared.softFor hard)) name ((shared.softFor hard).get name)
    (hard.get name)

/-- What a command line makes of a limit. -/
def overridden (name : String) (limit : Option F64) : Option F64 :=
  (SortedMap.lastOf shared.cli name).or limit

/-- A metric of a table is resolved without an error. -/
def MetricOk (hard : Limits) (name : String) : Prop :=
  ∃ limit, shared.tierOf hard name = .ok limit ∧
    ∀ v, shared.overridden name limit = some v →
      ∃ entry, ResolvedThreshold.build name v (shared.overridden name (hard.get name)) = .ok entry

theorem get_insertAll_cli (limits : Limits) (name : String) :
    (limits.insertAll shared.cli).get name = shared.overridden name (limits.get name) :=
  SortedMap.get_insertAll ..

variable {shared}

theorem resolveOne_eq {hard : Limits} {context : List TableName} {set : ThresholdSet}
    (h : shared.resolveOne hard context = .ok set) :
    ∃ merged, resolveTier shared.tier hard (shared.softFor hard) = .ok merged ∧
      ThresholdSet.buildTiered (merged.insertAll shared.cli) (hard.insertAll shared.cli) =
        .ok set := by
  unfold resolveOne at h
  split at h
  · cases h
  next merged hmerged =>
  split at h
  · cases h
  next set' hset =>
  cases h
  exact ⟨merged, hmerged, hset⟩

/-- A set holds each metric with the tier's limit and the hard one, both under the command
line. -/
theorem mem_rows_resolveOne {hard : Limits} {context : List TableName} {set : ThresholdSet}
    (h : shared.resolveOne hard context = .ok set) {name : String} {v : F64}
    {ceiling : Option F64} :
    (name, v, ceiling) ∈ set.rows ↔
      ∃ limit, shared.tierOf hard name = .ok limit ∧ shared.overridden name limit = some v ∧
        shared.overridden name (hard.get name) = ceiling := by
  obtain ⟨merged, hmerged, hset⟩ := resolveOne_eq h
  have htier := get_resolveTier hmerged name
  rw [ThresholdSet.mem_rows_buildTiered hset, get_insertAll_cli, get_insertAll_cli]
  constructor
  · rintro ⟨hv, hceiling⟩
    exact ⟨merged.get name, htier, hv, hceiling⟩
  · rintro ⟨limit, hlimit, hv, hceiling⟩
    obtain rfl := Except.ok.inj (htier.symm.trans hlimit)
    exact ⟨hv, hceiling⟩

/-- A table fails only where one of its metrics does. -/
theorem resolveOne_ok {hard : Limits} {context : List TableName} :
    (∃ set, shared.resolveOne hard context = .ok set) ↔ ∀ name, shared.MetricOk hard name := by
  constructor
  · rintro ⟨set, hset⟩ name
    obtain ⟨merged, hmerged, hbuild⟩ := resolveOne_eq hset
    refine ⟨merged.get name, get_resolveTier hmerged name, fun v hv => ?_⟩
    rw [← get_insertAll_cli] at hv ⊢
    exact ThresholdSet.buildTiered_ok.mp ⟨set, hbuild⟩ name v hv
  · intro h
    have htier : ∀ name, ∃ limit, shared.tierOf hard name = .ok limit := fun name =>
      (h name).imp fun _ => And.left
    obtain ⟨merged, hmerged⟩ := resolveTier_ok.mpr htier
    have hentries : ∀ name v, (merged.insertAll shared.cli).get name = some v →
        ∃ entry, ResolvedThreshold.build name v ((hard.insertAll shared.cli).get name) =
          .ok entry := by
      intro name v hv
      obtain ⟨limit, hlimit, hbuild⟩ := h name
      obtain rfl := Except.ok.inj ((get_resolveTier hmerged name).symm.trans hlimit)
      rw [get_insertAll_cli] at hv ⊢
      exact hbuild v hv
    obtain ⟨set, hset⟩ := ThresholdSet.buildTiered_ok.mpr hentries
    refine ⟨set, ?_⟩
    unfold resolveOne
    rw [hmerged]
    dsimp only
    rw [hset]

end SharedLayers

/-! ### The sets of a gate -/

/-- The hard limits entries are folded onto. -/
structure BaseTable where
  hard : Limits
  context : Option TableName

/-- `origin` is a place in the layer's list of directories. -/
structure CompiledEntry (π : Type*) where
  glob : String
  matcher : π → Bool
  origin : ℕ
  limits : Limits
  context : TableName

/-- The base, `⊥` for the global one, and the entries that matched. -/
abbrev MemoKey := WithBot String × List ℕ

structure PathLayer (π : Type*) where
  entries : List (CompiledEntry π)
  origins : List String
  bases : SortedMap (WithBot String) BaseTable
  resolver : SharedLayers
  memo : Table MemoKey ThresholdSet
  keep : Option (Finset String)

variable {π : Type*}

/-! ### Compilation -/

/-- The place of a directory in the list, which gets it when it has it not. -/
def originIndex (origins : List String) (dir : String) : ℕ × List String :=
  match origins.findIdx? (· = dir) with
  | some i => (i, origins)
  | none => (origins.length, origins ++ [dir])

def compileEntries : List String → List (PathThreshold π) → List (CompiledEntry π) × List String
  | origins, [] => ([], origins)
  | origins, entry :: entries =>
    let (origin, origins) := originIndex origins entry.origin
    let (compiled, origins) := compileEntries origins entries
    (⟨entry.glob, entry.pattern, origin, entry.limits, entry.context⟩ :: compiled, origins)

namespace PathLayer

/-! ### Resolution -/

variable (layer : PathLayer π)

/-- The hard limits the matched entries fold to: the last one that names a metric wins. -/
def fold (key : MemoKey) : Limits × List TableName :=
  let base := (layer.bases.get key.1).or (layer.bases.get ⊥)
  let hard := (base.map BaseTable.hard).getD .empty
  let context := (base.bind BaseTable.context).toList
  (key.2.filterMap (layer.entries[·]?)).foldl
    (fun acc entry => (acc.1.extend entry.limits, acc.2 ++ [entry.context])) (hard, context)

/-- A set narrowed to the metrics that are kept. -/
def narrow (keep : Option (Finset String)) (set : ThresholdSet) : ThresholdSet :=
  match keep with
  | none => set
  | some keep => set.narrowedTo keep

/-- What `resolved_for` computes on a miss. -/
def resolve (key : MemoKey) : Except ConfigError ThresholdSet :=
  (layer.resolver.resolveOne (layer.fold key).1 (layer.fold key).2).map (narrow layer.keep)

/-- Every base with every single entry. -/
def eagerKeys : List MemoKey :=
  layer.bases.keys.flatMap fun slug => (List.range layer.entries.length).map fun i => (slug, [i])

/-- Every single entry is resolved over every base, which seeds the memo. -/
def new (entries : List (PathThreshold π)) (bases : SortedMap (WithBot String) BaseTable)
    (resolver : SharedLayers) : Except ConfigError (PathLayer π) :=
  let (entries, origins) := compileEntries [] entries
  let layer : PathLayer π := ⟨entries, origins, bases, resolver, .empty, none⟩
  match Table.requestAll layer.resolve layer.eagerKeys layer.memo with
  | .error e => .error e
  | .ok memo => .ok { layer with memo }

/-- The entries whose pattern matches a file, by their place. `form` spells the file's path for
a directory. -/
def matched (form : String → π) : List ℕ :=
  let forms := layer.origins.map form
  (layer.entries.zipIdx.filter fun e => (forms[e.1.origin]?).any e.1.matcher).map Prod.snd

def narrowedTo (keep : Finset String) : PathLayer π :=
  { layer with
    memo := fun key => (layer.memo key).map fun set => set.narrowedTo keep
    keep := some keep }

end PathLayer

/-! ### The gate -/

/-- A file as the gate sees it. -/
structure File (π : Type*) where
  lang : String
  form : String → π

structure LanguageThresholds (π : Type*) where
  global : ThresholdSet
  perLanguage : SortedMap String ThresholdSet
  path : Option (PathLayer π)

namespace LanguageThresholds

variable (gate : LanguageThresholds π)

/-- `for_file`: the language's set or the global one, unless a path entry matches. -/
def route (file : File π) : ThresholdSet ⊕ MemoKey :=
  let base := gate.perLanguage.get file.lang
  let own := base.getD gate.global
  let slug : WithBot String := if base.isSome then file.lang else ⊥
  match gate.path with
  | none => .inl own
  | some layer =>
    match layer.matched file.form with
    | [] => .inl own
    | i :: matched => .inr (slug, i :: matched)

/-- The gate as the workers share it. Without a path layer nothing is ever computed. -/
def service : Service (File π) MemoKey ThresholdSet ConfigError where
  route := gate.route
  compute key :=
    match gate.path with
    | none => .ok gate.global
    | some layer => layer.resolve key

def memo : Table MemoKey ThresholdSet :=
  match gate.path with
  | none => .empty
  | some layer => layer.memo

def withMemo (memo : Table MemoKey ThresholdSet) : LanguageThresholds π :=
  { gate with path := gate.path.map fun layer => { layer with memo } }

def narrowedTo (keep : Finset String) : LanguageThresholds π where
  global := gate.global.narrowedTo keep
  perLanguage := gate.perLanguage.map fun set => set.narrowedTo keep
  path := gate.path.map fun layer => layer.narrowedTo keep

/-- What can happen to a gate: any number of workers ask it for files, and at some moment a
copy narrowed to some metrics may replace it. A run narrows once: the preview of a candidate
limit does, right after the gate is resolved. -/
inductive Run {ω : Type*} [DecidableEq ω] (gate₀ : LanguageThresholds π) :
    Option (Finset String) → LanguageThresholds π →
      System ω (File π) MemoKey ThresholdSet ConfigError → Prop where
  | start : Run gate₀ none gate₀ (.initial gate₀.memo)
  | step {keep gate s s'} : Run gate₀ keep gate s → System.Step gate.service s s' →
      Run gate₀ keep gate s'
  | narrow {gate s} (keep : Finset String) : Run gate₀ none gate s →
      Run gate₀ (some keep) ((gate.withMemo s.table).narrowedTo keep)
        (.initial ((gate.withMemo s.table).narrowedTo keep).memo)

end LanguageThresholds

namespace SharedLayers

variable (shared : SharedLayers)

/-- A language's hard table: the global one under its overrides. -/
def langHard (layers : ParsedThresholds π) (overrides : Limits) : Limits :=
  layers.hard.extend overrides

def langTable (layers : ParsedThresholds π) (slug : String) (overrides : Limits) : BaseTable :=
  ⟨langHard layers overrides, some (.lang slug)⟩

def bases (layers : ParsedThresholds π) : SortedMap (WithBot String) BaseTable :=
  (SortedMap.empty.insertAll
    (layers.lang.entries.map fun e => ((e.1 : WithBot String), langTable layers e.1 e.2))).insert
      ⊥ ⟨layers.hard, none⟩

def resolveAll (layers : ParsedThresholds π) : Except ConfigError (LanguageThresholds π) :=
  match layers.lang.mapE fun slug overrides =>
      shared.resolveOne (langHard layers overrides) [.lang slug] with
  | .error e => .error e
  | .ok perLanguage =>
    match shared.resolveOne layers.hard [] with
    | .error e => .error e
    | .ok global =>
      match layers.path with
      | [] => .ok ⟨global, perLanguage, none⟩
      | entry :: entries =>
        match PathLayer.new (entry :: entries) (bases layers) shared with
        | .error e => .error e
        | .ok layer => .ok ⟨global, perLanguage, some layer⟩

end SharedLayers

end BigCodeAnalysis.Thresholds
