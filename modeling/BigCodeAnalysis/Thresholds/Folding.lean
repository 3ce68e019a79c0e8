import BigCodeAnalysis.Thresholds.Layers

/-! The hard limits a file's tables declare, and that the gate folds exactly these. -/

namespace BigCodeAnalysis.Thresholds

open Catalog Sequences
open scoped List

variable {π : Type*}

/-! ### Declared limits -/

/-- The path entries that match a file, in the order of their declaration. -/
def matching (layers : ParsedThresholds π) (file : File π) : List (PathThreshold π) :=
  layers.path.filter fun entry => entry.pattern (file.form entry.origin)

/-- The value of the last matching path entry that names the metric, else the language's, else
the global one. -/
def declaredHard (layers : ParsedThresholds π) (file : File π) (name : String) : Option F64 :=
  ((matching layers file).reverse.findSome? fun entry => entry.limits.get name).or
    (((layers.lang.get file.lang).bind fun overrides => overrides.get name).or
      (layers.hard.get name))

/-! ### Folds -/

theorem get_foldl_extend (tables : List Limits) (hard : Limits) (name : String) :
    (tables.foldl SortedMap.extend hard).get name =
      (tables.reverse.findSome? fun table => table.get name).or (hard.get name) := by
  induction tables generalizing hard with
  | nil => rfl
  | cons table tables ih =>
    rw [List.foldl_cons, ih, SortedMap.get_extend, List.reverse_cons, List.findSome?_append,
      Option.or_assoc]
    cases h : table.get name with
    | none => simp [h]
    | some v => simp [h]

/-- The limits of a fold, without the tables it blames. -/
theorem fst_foldl_entries (entries : List (CompiledEntry π)) (hard : Limits)
    (context : List TableName) :
    (entries.foldl
      (fun acc entry => (acc.1.extend entry.limits, acc.2 ++ [entry.context]))
      (hard, context)).1 =
    (entries.map CompiledEntry.limits).foldl SortedMap.extend hard := by
  induction entries generalizing hard context with
  | nil => rfl
  | cons entry entries ih => exact ih ..

/-! ### Compilation keeps every entry -/

theorem originIndex_spec (origins : List String) (dir : String) :
    (originIndex origins dir).2[(originIndex origins dir).1]? = some dir ∧
      origins <+: (originIndex origins dir).2 := by
  unfold originIndex
  split
  · next i hi =>
    obtain ⟨hlt, hdir, _⟩ := List.findIdx?_eq_some_iff_getElem.mp hi
    refine ⟨?_, List.prefix_refl _⟩
    rw [List.getElem?_eq_getElem hlt]
    exact congrArg some (of_decide_eq_true hdir)
  · refine ⟨?_, List.prefix_append ..⟩
    simp

/-- What a compiled entry says under the directories it was compiled with. -/
def CompiledEntry.Compiles (origins : List String) (entry : PathThreshold π)
    (compiled : CompiledEntry π) : Prop :=
  compiled.matcher = entry.pattern ∧ origins[compiled.origin]? = some entry.origin ∧
    compiled.limits = entry.limits

theorem compileEntries_spec (origins : List String) (entries : List (PathThreshold π)) :
    origins <+: (compileEntries origins entries).2 ∧
      List.Forall₂ (CompiledEntry.Compiles (compileEntries origins entries).2) entries
        (compileEntries origins entries).1 := by
  induction entries generalizing origins with
  | nil => exact ⟨List.prefix_refl _, .nil⟩
  | cons entry entries ih =>
    obtain ⟨hindex, hpre⟩ := originIndex_spec origins entry.origin
    obtain ⟨hrest, hentries⟩ := ih (originIndex origins entry.origin).2
    refine ⟨hpre.trans hrest, .cons ⟨rfl, ?_, rfl⟩ hentries⟩
    obtain ⟨more, hmore⟩ := hrest
    have hlt := (List.getElem?_eq_some_iff.mp hindex).1
    change (compileEntries (originIndex origins entry.origin).2 entries).2[
      (originIndex origins entry.origin).1]? = _
    rw [← hmore, List.getElem?_append_left hlt]
    exact hindex

/-! ### Matched entries -/

/-- Filtering a list by place and reading the places back is filtering the list. -/
theorem filterMap_filter_zipIdx {α : Type*} (p : α → Bool) (l : List α) :
    ((l.zipIdx.filter fun e => p e.1).map Prod.snd).filterMap (l[·]?) = l.filter p := by
  have hread : ∀ e ∈ l.zipIdx.filter fun e => p e.1, l[e.2]? = some e.1 := by
    intro e he
    exact List.mk_mem_zipIdx_iff_getElem?.mp (List.mem_of_mem_filter he)
  rw [List.filterMap_map]
  calc (l.zipIdx.filter fun e => p e.1).filterMap ((l[·]?) ∘ Prod.snd)
      = (l.zipIdx.filter fun e => p e.1).filterMap (fun e => some e.1) :=
        List.filterMap_congr hread
    _ = (l.zipIdx.filter fun e => p e.1).map Prod.fst := by rw [List.filterMap_eq_map']
    _ = (l.zipIdx.map Prod.fst).filter p := (List.filter_map ..).symm
    _ = l.filter p := by rw [List.zipIdx_map_fst]

theorem limits_filter_compiles {origins : List String} {entries : List (PathThreshold π)}
    {compiled : List (CompiledEntry π)}
    (h : List.Forall₂ (CompiledEntry.Compiles origins) entries compiled) (form : String → π) :
    ((compiled.filter fun e => ((origins.map form)[e.origin]?).any e.matcher).map
        CompiledEntry.limits) =
      (entries.filter fun e => e.pattern (form e.origin)).map PathThreshold.limits := by
  induction h with
  | nil => rfl
  | @cons entry c entries compiled hc _ ih =>
    obtain ⟨hmatcher, horigin, hlimits⟩ := hc
    have hsame : ((origins.map form)[c.origin]?).any c.matcher =
        entry.pattern (form entry.origin) := by
      rw [List.getElem?_map, horigin, hmatcher]
      rfl
    rw [List.filter_cons, List.filter_cons, hsame]
    split_ifs
    · rw [List.map_cons, List.map_cons, hlimits, ih]
    · exact ih

/-! ### Bases -/

namespace SharedLayers
variable (layers : ParsedThresholds π)

theorem get_bases_bot : (bases layers).get ⊥ = some ⟨layers.hard, none⟩ := by
  rw [bases, SortedMap.get_insert, if_pos rfl]

theorem get_bases_lang (slug : String) :
    (bases layers).get (slug : WithBot String) =
      (layers.lang.get slug).map (langTable layers slug) := by
  have hnone : (SortedMap.empty : SortedMap (WithBot String) BaseTable).get slug = none := rfl
  rw [bases, SortedMap.get_insert, if_neg (WithBot.coe_ne_bot), SortedMap.get_insertAll, hnone,
    Option.or_none, SortedMap.lastOf_map WithBot.coe_injective, SortedMap.lastOf_entries]

end SharedLayers

/-! ### The gate -/

namespace PathLayer

/-- A layer that was built: its entries are compiled, its memo holds what would be computed,
and every single entry resolved over every base. -/
structure Built (entries : List (PathThreshold π)) (bases : SortedMap (WithBot String) BaseTable)
    (resolver : SharedLayers) (layer : PathLayer π) : Prop where
  entries : List.Forall₂ (CompiledEntry.Compiles layer.origins) entries layer.entries
  bases : layer.bases = bases
  resolver : layer.resolver = resolver
  keep : layer.keep = none
  memo : layer.memo.Sound layer.resolve
  eager : ∀ key ∈ layer.eagerKeys, ∃ set, layer.resolve key = .ok set

theorem built_of_new {entries : List (PathThreshold π)}
    {bases : SortedMap (WithBot String) BaseTable} {resolver : SharedLayers} {layer : PathLayer π}
    (h : new entries bases resolver = .ok layer) : Built entries bases resolver layer := by
  unfold new at h
  dsimp only at h
  split at h
  · cases h
  next memo hmemo =>
  cases h
  obtain ⟨hsound, heager⟩ := Table.requestAll_ok (Table.sound_empty _) hmemo
  exact ⟨(compileEntries_spec [] entries).2, rfl, rfl, rfl, hsound, heager⟩

theorem resolve_of_keep_none {layer : PathLayer π} (h : layer.keep = none) (key : MemoKey) :
    layer.resolve key = layer.resolver.resolveOne (layer.fold key).1 (layer.fold key).2 := by
  rw [resolve, h]
  cases layer.resolver.resolveOne (layer.fold key).1 (layer.fold key).2 <;> rfl

/-- The hard limits a key folds to. -/
theorem get_fold {layer : PathLayer π} {key : MemoKey}
    {tables : List Limits} {base : BaseTable}
    (htables : (key.2.filterMap (layer.entries[·]?)).map CompiledEntry.limits = tables)
    (hbase : (layer.bases.get key.1).or (layer.bases.get ⊥) = some base) (name : String) :
    (layer.fold key).1.get name =
      (tables.reverse.findSome? fun table => table.get name).or (base.hard.get name) := by
  unfold fold
  dsimp only
  rw [fst_foldl_entries, htables, get_foldl_extend, hbase]
  rfl

end PathLayer

/-- The sets of a gate are those of the tables it was resolved from. -/
structure LanguageThresholds.Built (shared : SharedLayers) (layers : ParsedThresholds π)
    (gate : LanguageThresholds π) : Prop where
  global : shared.resolveOne layers.hard [] = .ok gate.global
  perLanguage : ∀ slug,
    (layers.lang.get slug = none ∧ gate.perLanguage.get slug = none) ∨
      ∃ overrides set, layers.lang.get slug = some overrides ∧
        gate.perLanguage.get slug = some set ∧
        shared.resolveOne (SharedLayers.langHard layers overrides) [.lang slug] = .ok set
  noPath : gate.path = none → layers.path = []
  path : ∀ layer, gate.path = some layer →
    layer.Built layers.path (SharedLayers.bases layers) shared

namespace SharedLayers
variable {shared : SharedLayers} {layers : ParsedThresholds π} {gate : LanguageThresholds π}

theorem built_of_resolveAll (h : shared.resolveAll layers = .ok gate) :
    gate.Built shared layers := by
  unfold resolveAll at h
  split at h
  · cases h
  next perLanguage hlang =>
  split at h
  · cases h
  next global hglobal =>
  have hper : ∀ slug, (layers.lang.get slug = none ∧ perLanguage.get slug = none) ∨
      ∃ overrides set, layers.lang.get slug = some overrides ∧ perLanguage.get slug = some set ∧
        shared.resolveOne (langHard layers overrides) [.lang slug] = .ok set := by
    intro slug
    cases hslug : layers.lang.get slug with
    | some overrides =>
      obtain ⟨set, hset⟩ := SortedMap.mapE_ok.mp ⟨_, hlang⟩ slug overrides hslug
      have hget := (SortedMap.mem_mapE hlang).mpr ⟨overrides, hslug, hset⟩
      exact .inr ⟨overrides, set, rfl, hget, hset⟩
    | none =>
      refine .inl ⟨rfl, ?_⟩
      cases hget : perLanguage.get slug with
      | none => rfl
      | some set =>
        obtain ⟨overrides, hsome, _⟩ := (SortedMap.mem_mapE hlang).mp hget
        rw [hslug] at hsome
        cases hsome
  split at h
  · next hpath =>
    cases h
    refine ⟨hglobal, hper, fun _ => hpath, ?_⟩
    rintro layer ⟨⟩
  next entry entries hpath =>
  split at h
  · cases h
  next layer hnew =>
  cases h
  refine ⟨hglobal, hper, ?_, fun layer' hlayer => ?_⟩
  · rintro ⟨⟩
  obtain rfl := Option.some.inj hlayer
  rw [hpath]
  exact PathLayer.built_of_new hnew

end SharedLayers

namespace LanguageThresholds
variable {shared : SharedLayers} {layers : ParsedThresholds π} {gate : LanguageThresholds π}

/-- The base table of a language. -/
theorem Built.base (h : gate.Built shared layers) (lang : String) :
    ∃ hard context,
      shared.resolveOne hard context =
        .ok ((gate.perLanguage.get lang).getD gate.global) ∧
      (∀ name, hard.get name =
        ((layers.lang.get lang).bind fun overrides => overrides.get name).or
          (layers.hard.get name)) ∧
      ∃ base : BaseTable, base.hard = hard ∧
        (SharedLayers.bases layers).get
          (if (gate.perLanguage.get lang).isSome then (lang : WithBot String) else ⊥) =
            some base := by
  rcases h.perLanguage lang with ⟨hlang, hget⟩ | ⟨overrides, set, hlang, hget, hset⟩
  · refine ⟨layers.hard, [], ?_, ?_, ⟨layers.hard, none⟩, rfl, ?_⟩
    · rw [hget]
      exact h.global
    · intro name
      rw [hlang]
      rfl
    · rw [hget]
      exact SharedLayers.get_bases_bot layers
  · refine ⟨SharedLayers.langHard layers overrides, [.lang lang], ?_, ?_,
      SharedLayers.langTable layers lang overrides, rfl, ?_⟩
    · rw [hget]
      exact hset
    · intro name
      rw [hlang]
      exact SortedMap.get_extend ..
    · rw [hget, if_pos (by rfl), SharedLayers.get_bases_lang, hlang]
      rfl

/-- A file is gated at what its declared hard limits resolve to. -/
theorem Built.answer (h : gate.Built shared layers) (file : File π) :
    ∃ hard context, (∀ name, hard.get name = declaredHard layers file name) ∧
      gate.service.answer file = shared.resolveOne hard context := by
  obtain ⟨hard, context, hown, hget, base, rfl, hbase⟩ := h.base file.lang
  have hunmatched : matching layers file = [] → ∀ name,
      base.hard.get name = declaredHard layers file name := by
    intro hnil name
    rw [declaredHard, hnil, hget]
    rfl
  cases hpath : gate.path with
  | none =>
    have hnil : matching layers file = [] := by rw [matching, h.noPath hpath, List.filter_nil]
    have hroute : gate.service.route file =
        .inl ((gate.perLanguage.get file.lang).getD gate.global) := by
      simp only [service, route, hpath]
    exact ⟨base.hard, context, hunmatched hnil, (Service.answer_inl hroute).trans hown.symm⟩
  | some layer =>
    have hlayer := h.path layer hpath
    have hlimits : ((layer.matched file.form).filterMap (layer.entries[·]?)).map
        CompiledEntry.limits = (matching layers file).map PathThreshold.limits := by
      rw [PathLayer.matched, filterMap_filter_zipIdx
        fun e : CompiledEntry π => ((layer.origins.map file.form)[e.origin]?).any e.matcher]
      exact limits_filter_compiles hlayer.entries file.form
    cases hmatched : layer.matched file.form with
    | nil =>
      have hnil : matching layers file = [] := by
        rw [hmatched] at hlimits
        exact List.map_eq_nil_iff.mp hlimits.symm
      have hroute : gate.service.route file =
          .inl ((gate.perLanguage.get file.lang).getD gate.global) := by
        simp only [service, route, hpath, hmatched]
      exact ⟨base.hard, context, hunmatched hnil, (Service.answer_inl hroute).trans hown.symm⟩
    | cons i rest =>
      let slug : WithBot String :=
        if (gate.perLanguage.get file.lang).isSome then file.lang else ⊥
      have hroute : gate.service.route file = .inr (slug, i :: rest) := by
        simp only [service, route, hpath, hmatched]
        rfl
      have hcompute : gate.service.compute (slug, i :: rest) =
          shared.resolveOne (layer.fold (slug, i :: rest)).1 (layer.fold (slug, i :: rest)).2 := by
        simp only [service, hpath]
        rw [PathLayer.resolve_of_keep_none hlayer.keep, hlayer.resolver]
      refine ⟨_, _, fun name => ?_, (Service.answer_inr hroute).trans hcompute⟩
      rw [hmatched] at hlimits
      rw [PathLayer.get_fold hlimits (by rw [hlayer.bases, hbase]; rfl), declaredHard, hget,
        ← List.map_reverse, List.findSome?_map]
      rfl

end LanguageThresholds

end BigCodeAnalysis.Thresholds
