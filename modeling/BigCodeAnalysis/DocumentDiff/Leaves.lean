import BigCodeAnalysis.DocumentDiff.Compute

/-! The walk meets every number of either document once, at the keys that lead to it. -/

namespace BigCodeAnalysis.DocumentDiff

open Sequences Catalog

/-- The value at the end of a path of keys. -/
def valueAt (v : Option Value) (path : List String) : Option Value := path.foldl child v

def numericAt (v : Option Value) (path : List String) : Option ℚ :=
  (valueAt v path).bind Value.asF64

/-- The dotted spelling of a path. -/
def fieldOf (pre : String) (path : List String) : String := path.foldl childPrefix pre

theorem valueAt_none (path : List String) : valueAt none path = none := by
  induction path with
  | nil => rfl
  | cons k path ih => exact ih

/-- A key that leads anywhere is one of the keys. -/
theorem mem_of_child {v w : Option Value} {k : String} {u : Value} (h : child v k = some u) :
    k ∈ unionKeys (v.bind Value.asObject) (w.bind Value.asObject) ∧
      k ∈ unionKeys (w.bind Value.asObject) (v.bind Value.asObject) := by
  rcases hentries : v.bind Value.asObject with _ | entries
  · rw [child, hentries] at h
    cases h
  · rw [child, hentries] at h
    have hlookup : entries.lookup k = some u := h
    obtain ⟨e, he, hk⟩ : ∃ e ∈ entries, e.1 = k := by
      clear hentries h
      induction entries with
      | nil => cases hlookup
      | cons e entries ih =>
        obtain ⟨k', v'⟩ := e
        rw [List.lookup_cons] at hlookup
        split at hlookup
        · next heq => exact ⟨_, List.mem_cons_self .., (eq_of_beq heq).symm⟩
        · obtain ⟨e, he, hk⟩ := ih hlookup
          exact ⟨e, List.mem_cons_of_mem _ he, hk⟩
    simp only [unionKeys, mem_keysOf, List.mem_append, Option.getD_some]
    exact ⟨⟨e, .inl he, hk⟩, ⟨e, .inr he, hk⟩⟩

theorem head_mem_of_numericAt {old new : Option Value} {k : String} {path : List String}
    (h : (numericAt old (k :: path)).isSome ∨ (numericAt new (k :: path)).isSome) :
    k ∈ unionKeys (old.bind Value.asObject) (new.bind Value.asObject) := by
  have hchild : ∀ v, (numericAt v (k :: path)).isSome → ∃ u, child v k = some u := by
    intro v hv
    rcases hc : child v k with _ | u
    · have hnone : numericAt v (k :: path) = none := by
        show (valueAt (child v k) path).bind Value.asF64 = none
        rw [hc, valueAt_none]
        rfl
      rw [hnone] at hv
      cases hv
    · exact ⟨u, rfl⟩
  rcases h with h | h
  · obtain ⟨u, hu⟩ := hchild old h
    exact (mem_of_child hu).1
  · obtain ⟨u, hu⟩ := hchild new h
    exact (mem_of_child hu).2

/-! ### The paths of two values -/

/-- What the walk records at a path. -/
def leafAt (old new : Option Value) (pre : String) (familyAbsent : Bool) (path : List String) :
    Option (String × LeafValues) :=
  (LeafValues.classify (numericAt old path) (numericAt new path) familyAbsent).map
    fun values => (fieldOf pre path, values)

theorem classify_isSome {old new : Option ℚ} {familyAbsent : Bool} :
    (LeafValues.classify old new familyAbsent).isSome ↔ old.isSome ∨ new.isSome := by
  cases old <;> cases new <;> simp [LeafValues.classify]

theorem collectLeaves_eq (old new : Option Value) (pre : String) (familyAbsent : Bool) :
    collectLeaves old new pre familyAbsent =
      ((unionKeys (old.bind Value.asObject) (new.bind Value.asObject)).flatMap fun k =>
        collectLeaves (child old k) (child new k) (childPrefix pre k) familyAbsent) ++
      (leafAt old new pre familyAbsent []).toList := by
  rw [collectLeaves]
  congr 1
  generalize unionKeys (old.bind Value.asObject) (new.bind Value.asObject) = keys
  rw [← List.flatMap_map (f := Subtype.val) (g := fun k =>
    collectLeaves (child old k) (child new k) (childPrefix pre k) familyAbsent),
    List.attach_map_subtype_val]

/-- The paths to the numbers of either value. -/
def Enumerates (old new : Option Value) (paths : List (List String)) : Prop :=
  paths.Nodup ∧ ∀ path, path ∈ paths ↔ (numericAt old path).isSome ∨ (numericAt new path).isSome

theorem collectLeaves_paths (n : ℕ) : ∀ old new : Option Value, sizeOf old + sizeOf new ≤ n →
    ∃ paths, Enumerates old new paths ∧ ∀ pre familyAbsent,
      collectLeaves old new pre familyAbsent =
        paths.filterMap (leafAt old new pre familyAbsent) := by
  induction n with
  | zero =>
    intro old new hsize
    have hpos : 0 < sizeOf old := by
      cases old <;> simp
    omega
  | succ n ih =>
    intro old new hsize
    have hkeys : ∀ k, ∃ paths, k ∈ unionKeys (old.bind Value.asObject) (new.bind Value.asObject) →
        Enumerates (child old k) (child new k) paths ∧ ∀ pre familyAbsent,
          collectLeaves (child old k) (child new k) pre familyAbsent =
            paths.filterMap (leafAt (child old k) (child new k) pre familyAbsent) := by
      intro k
      by_cases hk : k ∈ unionKeys (old.bind Value.asObject) (new.bind Value.asObject)
      · obtain ⟨paths, hpaths⟩ := ih (child old k) (child new k) (by
          have := sizeOf_children_lt hk
          omega)
        exact ⟨paths, fun _ => hpaths⟩
      · exact ⟨[], fun h => absurd h hk⟩
    choose below hbelow using hkeys
    generalize hunion : unionKeys (old.bind Value.asObject) (new.bind Value.asObject) = keys at hbelow
    have hnodup : keys.Nodup := hunion ▸ nodup_keysOf ..
    refine ⟨(keys.flatMap fun k => (below k).map (k :: ·)) ++
      if (numericAt old []).isSome ∨ (numericAt new []).isSome then [[]] else [], ⟨?_, ?_⟩, ?_⟩
    · rw [List.nodup_append]
      refine ⟨?_, ?_, ?_⟩
      · rw [List.nodup_flatMap]
        refine ⟨fun k hk => (hbelow k hk).1.1.map (List.cons_injective), ?_⟩
        refine hnodup.imp fun {k k'} hne path hpath hpath' => ?_
        obtain ⟨p, -, rfl⟩ := List.mem_map.mp hpath
        obtain ⟨p', -, hp'⟩ := List.mem_map.mp hpath'
        exact hne (List.cons.inj hp').1.symm
      · split_ifs
        · exact List.nodup_singleton _
        · exact List.nodup_nil
      · rintro path hpath path' hroot rfl
        obtain ⟨k, -, hpath⟩ := List.mem_flatMap.mp hpath
        obtain ⟨p, -, rfl⟩ := List.mem_map.mp hpath
        split_ifs at hroot
        · exact List.cons_ne_nil _ _ (List.mem_singleton.mp hroot)
        · cases hroot
    · intro path
      rw [List.mem_append]
      cases path with
      | nil => simp
      | cons k path =>
        have hroot : k :: path ∉ if (numericAt old []).isSome ∨ (numericAt new []).isSome then
            [([] : List String)] else [] := by
          split_ifs <;> simp
        simp only [hroot, or_false]
        constructor
        · intro h
          obtain ⟨k', hk', hpath⟩ := List.mem_flatMap.mp h
          obtain ⟨p, hp, heq⟩ := List.mem_map.mp hpath
          obtain ⟨rfl, rfl⟩ := List.cons.inj heq
          exact ((hbelow k' hk').1.2 p).mp hp
        · intro h
          have hk := hunion ▸ head_mem_of_numericAt h
          exact List.mem_flatMap.mpr ⟨k, hk, List.mem_map.mpr
            ⟨path, ((hbelow k hk).1.2 path).mpr h, rfl⟩⟩
    · intro pre familyAbsent
      rw [collectLeaves_eq, hunion, List.filterMap_append, List.filterMap_flatMap]
      congr 1
      · apply List.flatMap_congr
        intro k hk
        rw [(hbelow k hk).2, List.filterMap_map]
        rfl
      · by_cases hroot : (numericAt old []).isSome ∨ (numericAt new []).isSome
        · rw [if_pos hroot]
          obtain ⟨values, hvalues⟩ := Option.isSome_iff_exists.mp
            ((@classify_isSome _ _ familyAbsent).mpr hroot)
          simp [leafAt, hvalues]
        · have hnone := Option.not_isSome_iff_eq_none.mp
            (mt (@classify_isSome _ _ familyAbsent).mp hroot)
          rw [if_neg hroot, leafAt, hnone]
          rfl

/-! ### The paths of a set -/

/-- The whole family is missing on one side. -/
def familyAbsent (oldMetrics newMetrics : Value) (family : String) : Bool :=
  (child (some oldMetrics) family).isNone != (child (some newMetrics) family).isNone

def metricLeafAt (oldMetrics newMetrics : Value) (family : String) (path : List String) :
    Option MetricLeaf :=
  (LeafValues.classify (numericAt (some oldMetrics) (family :: path))
    (numericAt (some newMetrics) (family :: path)) (familyAbsent oldMetrics newMetrics family)).map
    fun values => ⟨bucketName family (fieldOf "" path), fieldOf "" path, values⟩

theorem metricLeaves_paths (oldMetrics newMetrics : Value) :
    ∃ refs : List (String × List String), refs.Nodup ∧
      (∀ ref, ref ∈ refs ↔ (numericAt (some oldMetrics) (ref.1 :: ref.2)).isSome ∨
        (numericAt (some newMetrics) (ref.1 :: ref.2)).isSome) ∧
      metricLeaves oldMetrics newMetrics =
        refs.filterMap fun ref => metricLeafAt oldMetrics newMetrics ref.1 ref.2 := by
  have hfamilies : ∀ f, ∃ paths,
      Enumerates (child (some oldMetrics) f) (child (some newMetrics) f) paths ∧
        ∀ pre absent, collectLeaves (child (some oldMetrics) f) (child (some newMetrics) f) pre
          absent = paths.filterMap (leafAt (child (some oldMetrics) f) (child (some newMetrics) f)
            pre absent) := fun f => collectLeaves_paths _ _ _ le_rfl
  choose paths hpaths using hfamilies
  refine ⟨(unionKeys oldMetrics.asObject newMetrics.asObject).flatMap fun f =>
    (paths f).map fun p => (f, p), ?_, ?_, ?_⟩
  · rw [List.nodup_flatMap]
    refine ⟨fun f _ => (hpaths f).1.1.map (Prod.mk_right_injective f), ?_⟩
    refine (nodup_keysOf ..).imp fun {f f'} hne ref href href' => ?_
    obtain ⟨p, -, rfl⟩ := List.mem_map.mp href
    obtain ⟨p', -, hp'⟩ := List.mem_map.mp href'
    exact hne (Prod.mk.inj hp').1.symm
  · rintro ⟨f, p⟩
    constructor
    · intro h
      obtain ⟨f', -, href⟩ := List.mem_flatMap.mp h
      obtain ⟨p', hp', heq⟩ := List.mem_map.mp href
      obtain ⟨rfl, rfl⟩ := Prod.mk.inj heq
      exact ((hpaths f').1.2 p').mp hp'
    · intro h
      exact List.mem_flatMap.mpr ⟨f, head_mem_of_numericAt h, List.mem_map.mpr
        ⟨p, ((hpaths f).1.2 p).mpr h, rfl⟩⟩
  · rw [metricLeaves, List.filterMap_flatMap]
    congr 1
    funext f
    rw [List.filterMap_map]
    show List.map _ (collectLeaves _ _ _ _) = _
    rw [(hpaths f).2, List.map_filterMap]
    congr 1
    funext p
    rw [leafAt, Option.map_map]
    rfl

/-- A leaf of a file: the family and the keys below it. -/
structure LeafRef where
  file : String
  family : String
  path : List String
  deriving DecidableEq, Repr

def LeafRef.field (leaf : LeafRef) : String := fieldOf "" leaf.path

def LeafRef.bucket (leaf : LeafRef) : String := bucketName leaf.family leaf.field

def numberAt (set : MetricSet) (leaf : LeafRef) : Option ℚ :=
  numericAt (set.get leaf.file) (leaf.family :: leaf.path)

def LeafRef.familyAbsent (old new : MetricSet) (leaf : LeafRef) : Bool :=
  (child (old.get leaf.file) leaf.family).isNone != (child (new.get leaf.file) leaf.family).isNone

/-- A leaf of a file on both sides that is numeric on at least one. -/
def Shared (old new : MetricSet) (leaf : LeafRef) : Prop :=
  (old.get leaf.file).isSome ∧ (new.get leaf.file).isSome ∧
    ((numberAt old leaf).isSome ∨ (numberAt new leaf).isSome)

def sharedLeafAt (old new : MetricSet) (leaf : LeafRef) : Option (String × MetricLeaf) :=
  (LeafValues.classify (numberAt old leaf) (numberAt new leaf)
    (leaf.familyAbsent old new)).map fun values =>
      (leaf.file, ⟨leaf.bucket, leaf.field, values⟩)

theorem sharedLeaves_refs (old new : MetricSet) :
    ∃ leaves : List LeafRef, leaves.Nodup ∧ (∀ leaf, leaf ∈ leaves ↔ Shared old new leaf) ∧
      sharedLeaves old new = leaves.filterMap (sharedLeafAt old new) := by
  have hfiles : ∀ file, ∃ refs : List (String × List String), ∀ oldMetrics newMetrics,
      old.get file = some oldMetrics → new.get file = some newMetrics →
      refs.Nodup ∧ (∀ ref, ref ∈ refs ↔ (numericAt (some oldMetrics) (ref.1 :: ref.2)).isSome ∨
        (numericAt (some newMetrics) (ref.1 :: ref.2)).isSome) ∧
      metricLeaves oldMetrics newMetrics =
        refs.filterMap fun ref => metricLeafAt oldMetrics newMetrics ref.1 ref.2 := by
    intro file
    rcases hold : old.get file with _ | oldMetrics
    · exact ⟨[], by rintro _ _ ⟨⟩⟩
    · rcases hnew : new.get file with _ | newMetrics
      · exact ⟨[], by rintro _ _ - ⟨⟩⟩
      · obtain ⟨refs, hrefs⟩ := metricLeaves_paths oldMetrics newMetrics
        refine ⟨refs, ?_⟩
        rintro _ _ ⟨⟩ ⟨⟩
        exact hrefs
  choose refs hrefs using hfiles
  refine ⟨old.entries.flatMap fun e =>
    (new.get e.1).elim [] fun _ => (refs e.1).map fun ref => ⟨e.1, ref.1, ref.2⟩, ?_, ?_, ?_⟩
  · rw [List.nodup_flatMap]
    constructor
    · intro e he
      rcases hnew : new.get e.1 with _ | newMetrics
      · exact List.nodup_nil
      · refine (hrefs e.1 e.2 newMetrics (SortedMap.get_eq_some.mpr he) hnew).1.map ?_
        rintro ⟨f, p⟩ ⟨f', p'⟩ heq
        obtain ⟨-, rfl, rfl⟩ := LeafRef.mk.inj heq
        rfl
    · refine old.sorted.imp fun {e e'} hlt leaf hleaf hleaf' => ?_
      have hfile : ∀ e : String × Value,
          leaf ∈ (new.get e.1).elim [] (fun _ =>
            (refs e.1).map fun (ref : String × List String) =>
              (⟨e.1, ref.1, ref.2⟩ : LeafRef)) →
          leaf.file = e.1 := by
        intro e h
        rcases hget : new.get e.1 with _ | newMetrics
        · rw [hget] at h
          cases h
        · rw [hget] at h
          obtain ⟨ref, -, rfl⟩ := List.mem_map.mp h
          rfl
      exact (ne_of_lt hlt) ((hfile e hleaf).symm.trans (hfile e' hleaf'))
  · intro leaf
    rw [List.mem_flatMap]
    constructor
    · rintro ⟨e, he, hleaf⟩
      have hold := SortedMap.get_eq_some.mpr he
      rcases hnew : new.get e.1 with _ | newMetrics
      · rw [hnew] at hleaf
        cases hleaf
      · rw [hnew] at hleaf
        obtain ⟨ref, href, rfl⟩ := List.mem_map.mp hleaf
        have hnumeric := ((hrefs e.1 e.2 newMetrics hold hnew).2.1 ref).mp href
        refine ⟨by rw [hold]; rfl, by rw [hnew]; rfl, ?_⟩
        rwa [numberAt, numberAt, hold, hnew]
    · rintro ⟨hold, hnew, hnumeric⟩
      obtain ⟨oldMetrics, hold⟩ := Option.isSome_iff_exists.mp hold
      obtain ⟨newMetrics, hnew⟩ := Option.isSome_iff_exists.mp hnew
      refine ⟨(leaf.file, oldMetrics), SortedMap.get_eq_some.mp hold, ?_⟩
      rw [numberAt, numberAt, hold, hnew] at hnumeric
      rw [hnew]
      exact List.mem_map.mpr ⟨(leaf.family, leaf.path),
        ((hrefs _ _ _ hold hnew).2.1 (leaf.family, leaf.path)).mpr hnumeric, rfl⟩
  · rw [sharedLeaves, List.filterMap_flatMap]
    apply List.flatMap_congr
    intro e he
    have hold := SortedMap.get_eq_some.mpr he
    rcases hnew : new.get e.1 with _ | newMetrics
    · rfl
    · show List.map _ (metricLeaves e.2 newMetrics) = List.filterMap _ (List.map _ (refs e.1))
      rw [(hrefs e.1 e.2 newMetrics hold hnew).2.2, List.map_filterMap, List.filterMap_map]
      congr 1
      funext ref
      simp only [Function.comp, sharedLeafAt, metricLeafAt, numberAt, LeafRef.familyAbsent,
        familyAbsent, hold, hnew, Option.map_map]
      rfl

end BigCodeAnalysis.DocumentDiff
