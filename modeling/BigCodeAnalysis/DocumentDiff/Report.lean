import BigCodeAnalysis.DocumentDiff.Laws

/-! A diff seen from its leaves: each has one place in the report, and the place tells what the
two documents hold there. The laws of the diff are read off the places: nothing is reported twice,
keys that are plain name one leaf each, and the diff is empty exactly when the files are the same
and every leaf is unchanged. -/

namespace BigCodeAnalysis.DocumentDiff

open Sequences Catalog Numbers

/-! ### Places -/

/-- Where a leaf is reported. -/
inductive Place where
  | unchanged
  | changed (bucket : String) (row : FieldDelta)
  | added (row : FieldPresence)
  | removed (row : FieldPresence)
  deriving DecidableEq, Repr

def Place.changedIn (name : String) : Place → Option FieldDelta
  | .changed bucket row => if bucket = name then some row else none
  | _ => none

def Place.addedRow : Place → Option FieldPresence
  | .added row => some row
  | _ => none

def Place.removedRow : Place → Option FieldPresence
  | .removed row => some row
  | _ => none

/-- A change below the minimum counts as none. -/
def place (old new : MetricSet) (minChange : ℚ) (leaf : LeafRef) : Place :=
  match numberAt old leaf, numberAt new leaf with
  | some a, some b =>
    if b = a ∨ |binary64 (b - a)| < minChange then .unchanged
    else .changed leaf.bucket ⟨leaf.file, leaf.field, a, b⟩
  | none, some _ => .added ⟨leaf.file, leaf.bucket, leaf.field, leaf.familyAbsent old new⟩
  | some _, none => .removed ⟨leaf.file, leaf.bucket, leaf.field, leaf.familyAbsent old new⟩
  | none, none => .unchanged

theorem place_eq_unchanged {old new : MetricSet} {minChange : ℚ} (hmin : minChange ≤ 0)
    (leaf : LeafRef) :
    place old new minChange leaf = .unchanged ↔ numberAt old leaf = numberAt new leaf := by
  unfold place
  rcases numberAt old leaf with _ | a
  · rcases numberAt new leaf with _ | b <;> simp
  · rcases numberAt new leaf with _ | b
    · simp
    · have hsmall : ¬ |binary64 (b - a)| < minChange := not_lt.mpr (hmin.trans (abs_nonneg _))
      by_cases h : b = a
      · simp [h]
      · simp [h, hsmall, Ne.symm h]

/-- The number at a leaf is one of double precision. -/
theorem numberAt_rounded {set : MetricSet} {leaf : LeafRef} {a : ℚ} (h : numberAt set leaf = some a) :
    ∃ x, a = binary64 x := by
  obtain ⟨v, -, hv⟩ := Option.bind_eq_some_iff.mp h
  cases v with
  | number x => exact ⟨x, (Option.some.inj hv).symm⟩
  | _ => cases hv

section Rows
variable {old new : MetricSet} {minChange : ℚ}

theorem deltaOf_place (name : String) (leaf : LeafRef) :
    (sharedLeafAt old new leaf).bind (deltaOf minChange name) =
      (place old new minChange leaf).changedIn name := by
  unfold sharedLeafAt place
  rcases hold : numberAt old leaf with _ | a
  · rcases numberAt new leaf with _ | b <;> rfl
  · rcases hnew : numberAt new leaf with _ | b
    · rfl
    · show (if leaf.bucket = name ∧ ¬ (movement a b = 0 ∨ movement a b < minChange) then _ else _) =
        Place.changedIn name (if b = a ∨ movement a b < minChange then _ else _)
      have hzero : movement a b = 0 ↔ b = a := by
        obtain ⟨x, rfl⟩ := numberAt_rounded hold
        obtain ⟨y, rfl⟩ := numberAt_rounded hnew
        exact movement_eq_zero
      by_cases hsmall : b = a ∨ movement a b < minChange
      · rw [if_pos hsmall, if_neg fun h => h.2 (hsmall.imp_left hzero.mpr)]
        rfl
      · rw [if_neg hsmall]
        exact if_congr (and_iff_left fun h => hsmall (h.imp_left hzero.mp)) rfl rfl

theorem addedOf_place (leaf : LeafRef) :
    (sharedLeafAt old new leaf).bind addedOf = (place old new minChange leaf).addedRow := by
  unfold sharedLeafAt place
  rcases numberAt old leaf with _ | a
  · rcases numberAt new leaf with _ | b <;> rfl
  · rcases numberAt new leaf with _ | b
    · rfl
    · simp only
      split_ifs <;> rfl

theorem removedOf_place (leaf : LeafRef) :
    (sharedLeafAt old new leaf).bind removedOf = (place old new minChange leaf).removedRow := by
  unfold sharedLeafAt place
  rcases numberAt old leaf with _ | a
  · rcases numberAt new leaf with _ | b <;> rfl
  · rcases numberAt new leaf with _ | b
    · rfl
    · simp only
      split_ifs <;> rfl

theorem recorded_refs (old new : MetricSet) (metricFilter : List String) :
    ∃ leaves : List LeafRef, leaves.Nodup ∧
      (∀ leaf, leaf ∈ leaves ↔ Shared old new leaf ∧ Passes metricFilter leaf.bucket) ∧
      recorded old new metricFilter = leaves.filterMap (sharedLeafAt old new) := by
  obtain ⟨leaves, hnodup, hmem, heq⟩ := sharedLeaves_refs old new
  refine ⟨leaves.filter fun leaf => Passes metricFilter leaf.bucket, hnodup.filter _, ?_, ?_⟩
  · intro leaf
    rw [List.mem_filter, hmem, decide_eq_true_eq]
  · rw [recorded, heq, List.filter_filterMap, List.filterMap_filter]
    congr 1
    funext leaf
    unfold sharedLeafAt
    rcases LeafValues.classify (numberAt old leaf) (numberAt new leaf)
      (leaf.familyAbsent old new) with _ | values
    · simp
    · by_cases hpass : Passes metricFilter leaf.bucket
      · simp [hpass]
      · simp [hpass]

/-- Every leaf the filter lets through is reported at its place, and nothing else is. -/
theorem fromSets_places (old new : MetricSet) (minChange : ℚ) (metricFilter : List String) :
    ∃ leaves : List LeafRef, leaves.Nodup ∧
      (∀ leaf, leaf ∈ leaves ↔ Shared old new leaf ∧ Passes metricFilter leaf.bucket) ∧
      (∀ name, ((fromSets old new minChange metricFilter).bucket name).changed.Perm
        (leaves.filterMap fun leaf => (place old new minChange leaf).changedIn name)) ∧
      (fromSets old new minChange metricFilter).addedFields.Perm
        (leaves.filterMap fun leaf => (place old new minChange leaf).addedRow) ∧
      (fromSets old new minChange metricFilter).removedFields.Perm
        (leaves.filterMap fun leaf => (place old new minChange leaf).removedRow) := by
  obtain ⟨leaves, hnodup, hmem, heq⟩ := recorded_refs old new metricFilter
  refine ⟨leaves, hnodup, hmem, fun name => ?_, ?_, ?_⟩
  · rw [fromSets_bucket, heq, List.filterMap_filterMap]
    simp only [deltaOf_place]
    exact List.perm_insertionSort _ _
  · rw [fromSets_added, heq, List.filterMap_filterMap]
    simp only [@addedOf_place old new minChange]
    exact List.perm_insertionSort _ _
  · rw [fromSets_removed, heq, List.filterMap_filterMap]
    simp only [@removedOf_place old new minChange]
    exact List.perm_insertionSort _ _

end Rows

/-! ### Files on one side -/

theorem mem_fileSetDeltas {old new : MetricSet} (file : String) :
    (file ∈ (fileSetDeltas old new).1 ↔ (new.get file).isSome ∧ (old.get file).isNone) ∧
      (file ∈ (fileSetDeltas old new).2 ↔ (old.get file).isSome ∧ (new.get file).isNone) := by
  simp only [fileSetDeltas, List.mem_insertionSort, List.mem_filter, SortedMap.get_isSome,
    and_self]

theorem nodup_fileSetDeltas (old new : MetricSet) :
    (fileSetDeltas old new).1.Nodup ∧ (fileSetDeltas old new).2.Nodup :=
  ⟨(List.perm_insertionSort _ _).nodup_iff.mpr ((SortedMap.nodup_keys new).filter _),
    (List.perm_insertionSort _ _).nodup_iff.mpr ((SortedMap.nodup_keys old).filter _)⟩

/-! ### Emptiness -/

theorem totalChanges_eq_zero {diff : MetricDiff} :
    diff.totalChanges = 0 ↔ ∀ name, (diff.bucket name).changed = [] := by
  rw [MetricDiff.totalChanges, List.sum_eq_zero_iff]
  constructor
  · intro h name
    unfold MetricDiff.bucket
    rcases hget : diff.buckets.get name with _ | bucket
    · rfl
    · have hlength := h bucket.changed.length
        (List.mem_map.mpr ⟨(name, bucket), SortedMap.get_eq_some.mp hget, rfl⟩)
      exact List.length_eq_zero_iff.mp hlength
  · intro h n hn
    obtain ⟨e, he, rfl⟩ := List.mem_map.mp hn
    have hbucket := h e.1
    have hget : diff.buckets.get e.1 = some e.2 := SortedMap.get_eq_some.mpr he
    rw [MetricDiff.bucket, hget] at hbucket
    exact List.length_eq_zero_iff.mpr hbucket

theorem place_unchanged_iff (p : Place) : p = .unchanged ↔
    (∀ name, p.changedIn name = none) ∧ p.addedRow = none ∧ p.removedRow = none := by
  cases p with
  | unchanged => simp [Place.changedIn, Place.addedRow, Place.removedRow]
  | changed bucket row => simp [Place.changedIn]
  | added row => simp [Place.addedRow]
  | removed row => simp [Place.removedRow]

/-- A diff is empty exactly when the sets have the same files and no leaf has a place in it. -/
theorem isEmpty_iff (old new : MetricSet) (minChange : ℚ) (metricFilter : List String) :
    (fromSets old new minChange metricFilter).isEmpty = true ↔
      (∀ file, (old.get file).isSome ↔ (new.get file).isSome) ∧
      ∀ leaf, Shared old new leaf → Passes metricFilter leaf.bucket →
        place old new minChange leaf = .unchanged := by
  obtain ⟨leaves, -, hmem, hchanged, hadded, hremoved⟩ :=
    fromSets_places old new minChange metricFilter
  have hfiles := fromSets_files old new minChange metricFilter
  have hnone : ∀ {α : Type} (f : Place → Option α), (leaves.filterMap fun leaf =>
      f (place old new minChange leaf)) = [] ↔
        ∀ leaf ∈ leaves, f (place old new minChange leaf) = none := fun f =>
    List.filterMap_eq_nil_iff
  have hrows : (∀ leaf ∈ leaves, place old new minChange leaf = .unchanged) ↔
      (∀ name, ((fromSets old new minChange metricFilter).bucket name).changed = []) ∧
      (fromSets old new minChange metricFilter).addedFields = [] ∧
      (fromSets old new minChange metricFilter).removedFields = [] := by
    have hperm : ∀ {α : Type} {l l' : List α}, l.Perm l' → (l = [] ↔ l' = []) := by
      intro α l l' h
      rw [← List.length_eq_zero_iff, h.length_eq, List.length_eq_zero_iff]
    simp only [hperm (hchanged _), hperm hadded, hperm hremoved, hnone, place_unchanged_iff]
    constructor
    · intro h
      exact ⟨fun name leaf hleaf => (h leaf hleaf).1 name, fun leaf hleaf => (h leaf hleaf).2.1,
        fun leaf hleaf => (h leaf hleaf).2.2⟩
    · rintro ⟨h₁, h₂, h₃⟩ leaf hleaf
      exact ⟨fun name => h₁ name leaf hleaf, h₂ leaf hleaf, h₃ leaf hleaf⟩
  have hsame : (∀ file, (old.get file).isSome ↔ (new.get file).isSome) ↔
      (fileSetDeltas old new).1 = [] ∧ (fileSetDeltas old new).2 = [] := by
    simp only [List.eq_nil_iff_forall_not_mem, mem_fileSetDeltas]
    constructor
    · intro h
      refine ⟨fun file hfile => ?_, fun file hfile => ?_⟩
      · exact Option.not_isSome_iff_eq_none.mpr (Option.isNone_iff_eq_none.mp hfile.2)
          ((h file).mpr hfile.1)
      · exact Option.not_isSome_iff_eq_none.mpr (Option.isNone_iff_eq_none.mp hfile.2)
          ((h file).mp hfile.1)
    · rintro ⟨h₁, h₂⟩ file
      refine ⟨fun hold => ?_, fun hnew => ?_⟩
      · by_contra hnew
        exact h₂ file ⟨hold, Option.isNone_iff_eq_none.mpr (Option.not_isSome_iff_eq_none.mp hnew)⟩
      · by_contra hold
        exact h₁ file ⟨hnew, Option.isNone_iff_eq_none.mpr (Option.not_isSome_iff_eq_none.mp hold)⟩
  have hleaves : (∀ leaf, Shared old new leaf → Passes metricFilter leaf.bucket →
      place old new minChange leaf = .unchanged) ↔
        ∀ leaf ∈ leaves, place old new minChange leaf = .unchanged :=
    forall_congr' fun leaf => by rw [hmem, and_imp]
  rw [MetricDiff.isEmpty, decide_eq_true_eq, totalChanges_eq_zero, hfiles.1, hfiles.2, hsame,
    hleaves, hrows]
  tauto

/-! ### Keys -/

/-- The keys of a set are plain: none below a family is empty or has a dot in it, and none of
the families is called like a row of another. -/
def Plain (set : MetricSet) : Prop :=
  ∀ (file family : String) (path : List String),
    (valueAt (set.get file) (family :: path)).isSome →
    (∀ k ∈ path, k ≠ "" ∧ '.' ∉ k.toList) ∧
      ∀ f ∈ families, ∀ rows, expandedRows f = some rows → family ∉ rows

theorem toList_fieldOf {pre : String} (hpre : pre ≠ "") (path : List String) :
    (fieldOf pre path).toList = ['.'].intercalate (pre.toList :: path.map String.toList) := by
  induction path generalizing pre with
  | nil => simp [fieldOf]
  | cons k path ih =>
    have hstep : fieldOf pre (k :: path) = fieldOf (pre ++ "." ++ k) path := by
      rw [fieldOf, List.foldl_cons, childPrefix, if_neg hpre]
      rfl
    have hne : pre ++ "." ++ k ≠ "" := by
      intro h
      have hlist := congrArg String.toList h
      simp at hlist
    rw [hstep, ih hne, List.map_cons, List.intercalate_cons_cons]
    cases path with
    | nil => simp
    | cons k' path => simp [List.intercalate_cons_cons]

/-- The keys of a plain path can be read off its dotted spelling. -/
theorem fieldOf_injective {path path' : List String} (h : ∀ k ∈ path, k ≠ "" ∧ '.' ∉ k.toList)
    (h' : ∀ k ∈ path', k ≠ "" ∧ '.' ∉ k.toList) (heq : fieldOf "" path = fieldOf "" path') :
    path = path' := by
  have hsplit : ∀ {k : String} {path : List String}, (∀ j ∈ k :: path, j ≠ "" ∧ '.' ∉ j.toList) →
      fieldOf "" (k :: path) ≠ "" ∧
        (fieldOf "" (k :: path)).toList.splitOn '.' = (k :: path).map String.toList := by
    intro k path h
    have hk := (h k (List.mem_cons_self ..)).1
    have hstep : fieldOf "" (k :: path) = fieldOf k path := by
      rw [fieldOf, List.foldl_cons, childPrefix, if_pos rfl]
      rfl
    have hread : (fieldOf k path).toList.splitOn '.' = (k :: path).map String.toList := by
      rw [toList_fieldOf hk, List.map_cons, List.splitOn_intercalate '.']
      · rw [← List.map_cons]
        intro l hl
        obtain ⟨j, hj, rfl⟩ := List.mem_map.mp hl
        exact (h j hj).2
      · exact List.cons_ne_nil _ _
    refine ⟨fun hempty => ?_, hstep ▸ hread⟩
    rw [hstep] at hempty
    rw [hempty, List.map_cons] at hread
    exact hk (String.toList_inj.mp (List.cons.inj hread).1.symm)
  cases path with
  | nil =>
    cases path' with
    | nil => rfl
    | cons k' path' => exact absurd heq.symm (hsplit h').1
  | cons k path =>
    cases path' with
    | nil => exact absurd heq (hsplit h).1
    | cons k' path' =>
      have hmap : (k :: path).map String.toList = (k' :: path').map String.toList := by
        rw [← (hsplit h).2, ← (hsplit h').2, heq]
      exact List.map_injective_iff.mpr (fun _ _ => String.toList_inj.mp) hmap

/-- Only one family is listed under other names than its own. -/
theorem expanded_unique : ∀ f ∈ families, ∀ g ∈ families, (expandedRows f).isSome →
    (expandedRows g).isSome → f = g := by
  decide +kernel

/-- A bucket is called like its family, or like a row of it. -/
theorem bucketName_cases (family field : String) : bucketName family field = family ∨
    ∃ f ∈ families, f.name = family ∧
      ∃ rows, expandedRows f = some rows ∧ bucketName family field ∈ rows := by
  rcases hfind : families.find? (fun f => f.name = family) with _ | f
  · left
    simp only [bucketName, familyBucket, hfind]
  · have hname : f.name = family := by simpa using List.find?_some hfind
    simp only [bucketName, familyBucket, hfind]
    by_cases hexpand : (expandedRows f).isSome
    · simp only [hexpand, if_true]
      rcases diffBucket_mem f field with h | ⟨rows, hrows, hmem⟩
      · exact .inl (h.trans hname)
      · exact .inr ⟨f, List.mem_of_find?_eq_some hfind, hname, rows, hrows, hmem⟩
    · simp [hexpand, hname]

theorem family_of_bucket {family family' field field' : String}
    (h : ∀ f ∈ families, ∀ rows, expandedRows f = some rows → family ∉ rows)
    (h' : ∀ f ∈ families, ∀ rows, expandedRows f = some rows → family' ∉ rows)
    (heq : bucketName family field = bucketName family' field') : family = family' := by
  rcases bucketName_cases family field with hname | ⟨f, hf, hname, rows, hrows, hmem⟩
  · rcases bucketName_cases family' field' with hname' | ⟨g, hg, hname', rows', hrows', hmem'⟩
    · rw [← hname, heq, hname']
    · exact absurd (hname ▸ heq ▸ hmem') (h g hg rows' hrows')
  · rcases bucketName_cases family' field' with hname' | ⟨g, hg, hname', rows', hrows', hmem'⟩
    · exact absurd (hname' ▸ heq ▸ hmem) (h' f hf rows hrows)
    · rw [← hname, ← hname', expanded_unique f hf g hg (by rw [hrows]; rfl) (by rw [hrows']; rfl)]

/-- A key belongs to one leaf. -/
theorem leaf_of_key {old new : MetricSet} (hold : Plain old) (hnew : Plain new)
    {leaf leaf' : LeafRef} (h : Shared old new leaf) (h' : Shared old new leaf')
    (hfile : leaf.file = leaf'.file) (hbucket : leaf.bucket = leaf'.bucket)
    (hfield : leaf.field = leaf'.field) : leaf = leaf' := by
  have hplain : ∀ leaf : LeafRef, Shared old new leaf →
      (∀ k ∈ leaf.path, k ≠ "" ∧ '.' ∉ k.toList) ∧
        ∀ f ∈ families, ∀ rows, expandedRows f = some rows → leaf.family ∉ rows := by
    rintro leaf ⟨-, -, hnumeric⟩
    have hvalue : ∀ set : MetricSet, (numberAt set leaf).isSome →
        (valueAt (set.get leaf.file) (leaf.family :: leaf.path)).isSome := by
      intro set hset
      rw [numberAt, numericAt] at hset
      rcases hv : valueAt (set.get leaf.file) (leaf.family :: leaf.path) with _ | v
      · rw [hv] at hset
        cases hset
      · rfl
    rcases hnumeric with hn | hn
    · exact hold _ _ _ (hvalue old hn)
    · exact hnew _ _ _ (hvalue new hn)
  obtain ⟨file, family, path⟩ := leaf
  obtain ⟨file', family', path'⟩ := leaf'
  obtain rfl : file = file' := hfile
  obtain rfl : path = path' := fieldOf_injective (hplain _ h).1 (hplain _ h').1 hfield
  obtain rfl : family = family' := family_of_bucket (hplain _ h).2 (hplain _ h').2 hbucket
  rfl

/-! ### The laws -/

/-- For every two sets of documents and every metric filter. -/
theorem metricDiff_laws (old new : MetricSet) (metricFilter : List String) :
    (∀ minChange, ∃ leaves : List LeafRef, leaves.Nodup ∧
      (∀ leaf, leaf ∈ leaves ↔ Shared old new leaf ∧ Passes metricFilter leaf.bucket) ∧
      (∀ name, ((fromSets old new minChange metricFilter).bucket name).changed.Perm
        (leaves.filterMap fun leaf => (place old new minChange leaf).changedIn name)) ∧
      (fromSets old new minChange metricFilter).addedFields.Perm
        (leaves.filterMap fun leaf => (place old new minChange leaf).addedRow) ∧
      (fromSets old new minChange metricFilter).removedFields.Perm
        (leaves.filterMap fun leaf => (place old new minChange leaf).removedRow)) ∧
    (∀ minChange, (fromSets old new minChange metricFilter).addedFiles.Nodup ∧
      (fromSets old new minChange metricFilter).removedFiles.Nodup ∧
      ∀ file, (file ∈ (fromSets old new minChange metricFilter).addedFiles ↔
          (new.get file).isSome ∧ (old.get file).isNone) ∧
        (file ∈ (fromSets old new minChange metricFilter).removedFiles ↔
          (old.get file).isSome ∧ (new.get file).isNone)) ∧
    (Plain old → Plain new → ∀ leaf leaf', Shared old new leaf → Shared old new leaf' →
      leaf.file = leaf'.file → leaf.bucket = leaf'.bucket → leaf.field = leaf'.field →
      leaf = leaf') ∧
    (∀ minChange, fromSets new old minChange metricFilter =
      (fromSets old new minChange metricFilter).exchange) ∧
    (∀ minChange name, ((fromSets old new minChange metricFilter).bucket name).changed =
      ((fromSets old new 0 metricFilter).bucket name).changed.filter
        fun δ => minChange ≤ |binary64 (δ.new - δ.old)|) ∧
    (∀ minChange, (fromSets old new minChange metricFilter).addedFields =
        (fromSets old new 0 metricFilter).addedFields ∧
      (fromSets old new minChange metricFilter).removedFields =
        (fromSets old new 0 metricFilter).removedFields) ∧
    ((fromSets old new 0 metricFilter).isEmpty = true ↔
      (∀ file, (old.get file).isSome ↔ (new.get file).isSome) ∧
      ∀ leaf, Shared old new leaf → Passes metricFilter leaf.bucket →
        numberAt old leaf = numberAt new leaf) := by
  refine ⟨fun minChange => fromSets_places old new minChange metricFilter, ?_, ?_, ?_, ?_, ?_, ?_⟩
  · intro minChange
    obtain ⟨hadded, hremoved⟩ := fromSets_files old new minChange metricFilter
    rw [hadded, hremoved]
    exact ⟨(nodup_fileSetDeltas old new).1, (nodup_fileSetDeltas old new).2, mem_fileSetDeltas⟩
  · intro hold hnew leaf leaf' h h'
    exact leaf_of_key hold hnew h h'
  · exact fun minChange => fromSets_exchange old new minChange metricFilter
  · exact fun minChange name => fromSets_minChange old new minChange metricFilter name
  · intro minChange
    rw [fromSets_added, fromSets_added, fromSets_removed, fromSets_removed]
    exact ⟨rfl, rfl⟩
  · rw [isEmpty_iff]
    simp only [place_eq_unchanged le_rfl]

/-- One file whose only family holds one number. -/
def single (x : ℚ) : MetricSet :=
  SortedMap.empty.insert "f" (.object [("x", .object [("a", .number x)])])

theorem plain_single (x : ℚ) : Plain (single x) := by
  intro file family path h
  rw [single, SortedMap.get_insert] at h
  have hnone : ∀ path, ¬ (valueAt none path).isSome := fun path h => by
    rw [valueAt_none] at h
    cases h
  split_ifs at h with hfile
  · by_cases hfamily : family = "x"
    · subst hfamily
      refine ⟨?_, by decide +kernel⟩
      have hx : (valueAt (some (.object [("a", .number x)])) path).isSome := h
      cases path with
      | nil => simp
      | cons k path =>
        by_cases hk : k = "a"
        · subst hk
          cases path with
          | nil => decide +kernel
          | cons k' path => exact absurd hx (hnone path)
        · have hmiss : child (some (.object [("a", .number x)])) k = none := by
            simp [child, Value.asObject, List.lookup_cons, beq_eq_false_iff_ne.mpr hk]
          have hx : (valueAt (child (some (.object [("a", .number x)])) k) path).isSome := hx
          exact absurd (hmiss ▸ hx) (hnone path)
    · have hmiss : child (some (.object [("x", .object [("a", .number x)])])) family = none := by
        simp [child, Value.asObject, List.lookup_cons, beq_eq_false_iff_ne.mpr hfamily]
      have hx : (valueAt (child (some (.object [("x", .object [("a", .number x)])])) family)
        path).isSome := h
      exact absurd (hmiss ▸ hx) (hnone path)
  · exact absurd h (hnone _)

theorem metricDiff_laws_single : Shared (single 1) (single 2) ⟨"f", "x", ["a"]⟩ ∧
    ∀ leaf, Shared (single 1) (single 2) leaf → leaf.file = "f" → leaf.bucket = "x" →
      leaf.field = "a" → leaf = ⟨"f", "x", ["a"]⟩ := by
  have hshared : Shared (single 1) (single 2) ⟨"f", "x", ["a"]⟩ := by
    refine ⟨by decide +kernel, by decide +kernel, .inl (by decide +kernel)⟩
  refine ⟨hshared, fun leaf hleaf hfile hbucket hfield => ?_⟩
  apply (metricDiff_laws (single 1) (single 2) []).2.2.1 (plain_single 1) (plain_single 2) _ _
    hleaf hshared hfile
  · rw [hbucket]
    decide +kernel
  · rw [hfield]
    decide +kernel

/-! ### Where keys collide, a file without numbers, and a difference that is rounded -/

/-- One file whose only family holds the keys `a.b` and `a`, the latter with `b` below it. -/
def dotted (x y : ℚ) : MetricSet :=
  SortedMap.empty.insert "f" (.object
    [("x", .object [("a.b", .number x), ("a", .object [("b", .number y)])])])

/-- Two rows with one key, a diff of sets without a number that is not empty, and a row a minimum
change keeps though its numbers are less than that apart. -/
theorem metricDiff_collision :
    ((fromSets (dotted 1 1) (dotted 2 3) 0 []).bucket "x").changed =
      [⟨"f", "a.b", 1, 3⟩, ⟨"f", "a.b", 1, 2⟩] ∧
    (fromSets .empty (SortedMap.empty.insert "f" (.object [])) 0 []).isEmpty = false ∧
    (∀ leaf, numberAt .empty leaf = numberAt (SortedMap.empty.insert "f" (.object [])) leaf) ∧
    ((fromSets (single (1 / 10)) (single (1001 / 10)) 100 []).bucket "x").changed =
      [⟨"f", "a", binary64 (1 / 10), binary64 (1001 / 10)⟩] ∧
    |binary64 (1001 / 10) - binary64 (1 / 10)| < 100 := by
  refine ⟨by decide +kernel, by decide +kernel, fun leaf => ?_, by decide +kernel,
    by decide +kernel⟩
  have hempty : numberAt .empty leaf = none := by
    show (valueAt none _).bind _ = none
    rw [valueAt_none]
    rfl
  have hobject : numberAt (SortedMap.empty.insert "f" (.object [])) leaf = none := by
    rw [numberAt, SortedMap.get_insert, numericAt]
    split_ifs
    · show (valueAt none leaf.path).bind _ = none
      rw [valueAt_none]
      rfl
    · show (valueAt none _).bind _ = none
      rw [valueAt_none]
      rfl
  rw [hempty, hobject]

end BigCodeAnalysis.DocumentDiff
