import BigCodeAnalysis.DocumentDiff.Leaves
import BigCodeAnalysis.Sequences.Ranking
import Mathlib.Algebra.BigOperators.Group.List.Basic
import Mathlib.Algebra.Order.BigOperators.Group.List

/-! What a diff holds, list by list. The rows of a bucket, the added and the removed fields are the
leaves that are recorded, sorted; a minimum change filters the rows of every bucket by how far they
moved, because sorting keeps what a filter keeps; and with the two sets exchanged every part of the
walk, and so the diff, is the same read from the other side. -/

namespace BigCodeAnalysis.DocumentDiff

open Sequences Catalog

/-! ### What is recorded -/

/-- The row a leaf adds to the bucket `name`. -/
def deltaOf (minChange : ℚ) (name : String) (leaf : String × MetricLeaf) : Option FieldDelta :=
  match leaf.2.values with
  | .both old new =>
    if leaf.2.bucket = name ∧ ¬ (movement old new = 0 ∨ movement old new < minChange) then
      some ⟨leaf.1, leaf.2.field, old, new⟩
    else none
  | _ => none

def addedOf (leaf : String × MetricLeaf) : Option FieldPresence :=
  match leaf.2.values with
  | .newOnly familyAbsent => some ⟨leaf.1, leaf.2.bucket, leaf.2.field, familyAbsent⟩
  | _ => none

def removedOf (leaf : String × MetricLeaf) : Option FieldPresence :=
  match leaf.2.values with
  | .oldOnly familyAbsent => some ⟨leaf.1, leaf.2.bucket, leaf.2.field, familyAbsent⟩
  | _ => none

theorem recordLeaf_still (diff : MetricDiff) (file bucket field : String) {old new minChange : ℚ}
    (h : movement old new = 0 ∨ movement old new < minChange) :
    recordLeaf diff file ⟨bucket, field, .both old new⟩ minChange = diff :=
  if_pos h

theorem recordLeaf_moved (diff : MetricDiff) (file bucket field : String) {old new minChange : ℚ}
    (h : ¬ (movement old new = 0 ∨ movement old new < minChange)) :
    recordLeaf diff file ⟨bucket, field, .both old new⟩ minChange =
      { diff with
        buckets := diff.buckets.insert bucket
          ⟨(diff.bucket bucket).changed ++ [⟨file, field, old, new⟩]⟩ } :=
  if_neg h

theorem recordLeaf_bucket (diff : MetricDiff) (leaf : String × MetricLeaf) (minChange : ℚ)
    (name : String) :
    ((recordLeaf diff leaf.1 leaf.2 minChange).bucket name).changed =
      (diff.bucket name).changed ++ (deltaOf minChange name leaf).toList := by
  obtain ⟨file, bucket, field, values⟩ := leaf
  cases values with
  | both old new =>
    by_cases hsmall : movement old new = 0 ∨ movement old new < minChange
    · have hnone : deltaOf minChange name (file, ⟨bucket, field, .both old new⟩) = none :=
        if_neg fun h => h.2 hsmall
      rw [recordLeaf_still diff file bucket field hsmall, hnone]
      exact (List.append_nil _).symm
    · rw [recordLeaf_moved diff file bucket field hsmall, MetricDiff.bucket,
        SortedMap.get_insert]
      by_cases hname : name = bucket
      · have hsome : deltaOf minChange name (file, ⟨bucket, field, .both old new⟩) =
            some ⟨file, field, old, new⟩ := if_pos ⟨hname.symm, hsmall⟩
        rw [if_pos hname, hsome, hname]
        rfl
      · have hnone : deltaOf minChange name (file, ⟨bucket, field, .both old new⟩) = none :=
          if_neg fun h => hname h.1.symm
        rw [if_neg hname, hnone]
        exact (List.append_nil _).symm
  | newOnly absent => exact (List.append_nil _).symm
  | oldOnly absent => exact (List.append_nil _).symm

theorem recordAll_bucket (minChange : ℚ) (name : String) (leaves : List (String × MetricLeaf)) :
    ∀ diff : MetricDiff, ((recordAll minChange diff leaves).bucket name).changed =
      (diff.bucket name).changed ++ leaves.filterMap (deltaOf minChange name) := by
  induction leaves with
  | nil => intro diff; exact (List.append_nil _).symm
  | cons leaf leaves ih =>
    intro diff
    have hstep : recordAll minChange diff (leaf :: leaves) =
        recordAll minChange (recordLeaf diff leaf.1 leaf.2 minChange) leaves := rfl
    rw [hstep, ih, recordLeaf_bucket, List.append_assoc, List.filterMap_cons]
    cases deltaOf minChange name leaf <;> rfl

theorem recordLeaf_added (diff : MetricDiff) (leaf : String × MetricLeaf) (minChange : ℚ) :
    (recordLeaf diff leaf.1 leaf.2 minChange).addedFields =
        diff.addedFields ++ (addedOf leaf).toList ∧
      (recordLeaf diff leaf.1 leaf.2 minChange).removedFields =
        diff.removedFields ++ (removedOf leaf).toList ∧
      (recordLeaf diff leaf.1 leaf.2 minChange).addedFiles = diff.addedFiles ∧
      (recordLeaf diff leaf.1 leaf.2 minChange).removedFiles = diff.removedFiles := by
  obtain ⟨file, bucket, field, values⟩ := leaf
  cases values with
  | both old new =>
    by_cases hsmall : movement old new = 0 ∨ movement old new < minChange
    · rw [recordLeaf_still diff file bucket field hsmall]
      simp [addedOf, removedOf]
    · rw [recordLeaf_moved diff file bucket field hsmall]
      simp [addedOf, removedOf]
  | newOnly absent => simp [recordLeaf, addedOf, removedOf]
  | oldOnly absent => simp [recordLeaf, addedOf, removedOf]

theorem recordAll_added (minChange : ℚ) (leaves : List (String × MetricLeaf)) :
    ∀ diff : MetricDiff,
      (recordAll minChange diff leaves).addedFields =
        diff.addedFields ++ leaves.filterMap addedOf ∧
      (recordAll minChange diff leaves).removedFields =
        diff.removedFields ++ leaves.filterMap removedOf ∧
      (recordAll minChange diff leaves).addedFiles = diff.addedFiles ∧
      (recordAll minChange diff leaves).removedFiles = diff.removedFiles := by
  induction leaves with
  | nil =>
    intro diff
    exact ⟨(List.append_nil _).symm, (List.append_nil _).symm, rfl, rfl⟩
  | cons leaf leaves ih =>
    intro diff
    have hstep : recordAll minChange diff (leaf :: leaves) =
        recordAll minChange (recordLeaf diff leaf.1 leaf.2 minChange) leaves := rfl
    obtain ⟨h₁, h₂, h₃, h₄⟩ := recordLeaf_added diff leaf minChange
    obtain ⟨i₁, i₂, i₃, i₄⟩ := ih (recordLeaf diff leaf.1 leaf.2 minChange)
    rw [hstep, i₁, i₂, i₃, i₄, h₁, h₂, h₃, h₄, List.append_assoc, List.append_assoc,
      List.filterMap_cons, List.filterMap_cons]
    refine ⟨?_, ?_, rfl, rfl⟩
    · cases addedOf leaf <;> rfl
    · cases removedOf leaf <;> rfl

section Reported
variable (old new : MetricSet) (minChange : ℚ) (metricFilter : List String)

theorem sort_bucket (diff : MetricDiff) (name : String) :
    (diff.sort.bucket name).changed = (diff.bucket name).changed.insertionSort deltaLe := by
  have hget : diff.sort.buckets.get name = (diff.buckets.get name).map Bucket.sort :=
    SortedMap.get_map ..
  rw [MetricDiff.bucket, MetricDiff.bucket, hget]
  cases diff.buckets.get name <;> rfl

/-- The rows of a bucket. -/
theorem fromSets_bucket (name : String) :
    ((fromSets old new minChange metricFilter).bucket name).changed =
      ((recorded old new metricFilter).filterMap (deltaOf minChange name)).insertionSort
        deltaLe := by
  rw [fromSets_eq, sort_bucket, recordAll_bucket]
  rfl

theorem fromSets_added : (fromSets old new minChange metricFilter).addedFields =
    ((recorded old new metricFilter).filterMap addedOf).insertionSort presenceLe := by
  rw [fromSets_eq, MetricDiff.sort, (recordAll_added ..).1]
  rfl

theorem fromSets_removed : (fromSets old new minChange metricFilter).removedFields =
    ((recorded old new metricFilter).filterMap removedOf).insertionSort presenceLe := by
  rw [fromSets_eq, MetricDiff.sort, (recordAll_added ..).2.1]
  rfl

theorem fromSets_files : (fromSets old new minChange metricFilter).addedFiles =
      (fileSetDeltas old new).1 ∧
    (fromSets old new minChange metricFilter).removedFiles = (fileSetDeltas old new).2 := by
  rw [fromSets_eq]
  exact ⟨(recordAll_added ..).2.2.1, (recordAll_added ..).2.2.2⟩

end Reported

/-! ### The minimum change -/

instance : IsTrans FieldDelta deltaLe where
  trans := by
    rintro a b c (hab | ⟨hab, hab'⟩) (hbc | ⟨hbc, hbc'⟩)
    · exact .inl (hab.trans hbc)
    · exact .inl (hbc ▸ hab)
    · exact .inl (hab ▸ hbc)
    · exact .inr ⟨hab.trans hbc, hab'.trans hbc'⟩

instance : Std.Total deltaLe where
  total := by
    intro a b
    rcases lt_trichotomy a.file b.file with h | h | h
    · exact .inl (.inl h)
    · rcases le_total a.field b.field with h' | h'
      · exact .inl (.inr ⟨h, h'⟩)
      · exact .inr (.inr ⟨h.symm, h'⟩)
    · exact .inr (.inl h)

theorem deltaOf_filter (minChange : ℚ) (name : String) (leaf : String × MetricLeaf) :
    deltaOf minChange name leaf =
      (deltaOf 0 name leaf).filter fun δ => minChange ≤ movement δ.old δ.new := by
  obtain ⟨file, bucket, field, values⟩ := leaf
  cases values with
  | both old new =>
    have hneg : ¬ movement old new < 0 := not_lt.mpr (movement_nonneg ..)
    have hzero : deltaOf 0 name (file, ⟨bucket, field, .both old new⟩) =
        if bucket = name ∧ ¬ movement old new = 0 then some ⟨file, field, old, new⟩ else none :=
      if_congr (by rw [or_iff_left hneg]) rfl rfl
    rw [hzero]
    show (if bucket = name ∧ ¬ (movement old new = 0 ∨ movement old new < minChange) then _ else _) = _
    by_cases hmoved : bucket = name ∧ ¬ movement old new = 0
    · rw [if_pos hmoved, Option.filter_some]
      apply if_congr _ rfl rfl
      rw [not_or, not_lt, decide_eq_true_eq]
      exact ⟨fun h => h.2.2, fun h => ⟨hmoved.1, hmoved.2, h⟩⟩
    · rw [if_neg hmoved, if_neg fun h => hmoved ⟨h.1, fun h' => h.2 (.inl h')⟩]
      rfl
  | newOnly absent => rfl
  | oldOnly absent => rfl

/-- A minimum change hides the rows that moved less, and nothing else. -/
theorem fromSets_minChange (old new : MetricSet) (minChange : ℚ) (metricFilter : List String)
    (name : String) :
    ((fromSets old new minChange metricFilter).bucket name).changed =
      ((fromSets old new 0 metricFilter).bucket name).changed.filter
        fun δ => minChange ≤ movement δ.old δ.new := by
  rw [fromSets_bucket, fromSets_bucket, filter_insertionSort, List.filter_filterMap]
  congr 2
  funext leaf
  rw [deltaOf_filter]

/-! ### Each part from the other side -/

def LeafValues.exchange : LeafValues → LeafValues
  | .both old new => .both new old
  | .newOnly familyAbsent => .oldOnly familyAbsent
  | .oldOnly familyAbsent => .newOnly familyAbsent

def MetricLeaf.exchange (leaf : MetricLeaf) : MetricLeaf :=
  { leaf with values := leaf.values.exchange }

def FieldDelta.exchange (δ : FieldDelta) : FieldDelta := { δ with old := δ.new, new := δ.old }

def Bucket.exchange (bucket : Bucket) : Bucket := ⟨bucket.changed.map FieldDelta.exchange⟩

def MetricDiff.exchange (diff : MetricDiff) : MetricDiff where
  buckets := diff.buckets.map Bucket.exchange
  addedFiles := diff.removedFiles
  removedFiles := diff.addedFiles
  addedFields := diff.removedFields
  removedFields := diff.addedFields

/-! ### Leaves -/

theorem unionKeys_comm (old new : Option Entries) : unionKeys new old = unionKeys old new := by
  apply keysOf_congr
  intro k
  simp only [List.mem_append]
  exact exists_congr fun e => and_congr_left fun _ => or_comm

theorem classify_exchange (old new : Option ℚ) (familyAbsent : Bool) :
    LeafValues.classify new old familyAbsent =
      (LeafValues.classify old new familyAbsent).map LeafValues.exchange := by
  cases old <;> cases new <;> rfl

theorem leafAt_exchange (old new : Option Value) (pre : String) (familyAbsent : Bool)
    (path : List String) : leafAt new old pre familyAbsent path =
      (leafAt old new pre familyAbsent path).map fun leaf => (leaf.1, leaf.2.exchange) := by
  rw [leafAt, leafAt, classify_exchange, Option.map_map, Option.map_map]
  rfl

theorem collectLeaves_exchange (n : ℕ) : ∀ (old new : Option Value) (pre : String)
    (familyAbsent : Bool), sizeOf old + sizeOf new ≤ n →
    collectLeaves new old pre familyAbsent =
      (collectLeaves old new pre familyAbsent).map fun leaf => (leaf.1, leaf.2.exchange) := by
  induction n with
  | zero =>
    intro old new pre familyAbsent hsize
    have hpos : 0 < sizeOf old := by
      cases old <;> simp
    omega
  | succ n ih =>
    intro old new pre familyAbsent hsize
    rw [collectLeaves_eq, collectLeaves_eq old new, unionKeys_comm, List.map_append]
    congr 1
    · rw [List.map_flatMap]
      apply List.flatMap_congr
      intro k hk
      have hlt := sizeOf_children_lt hk
      exact ih _ _ _ _ (by omega)
    · rw [leafAt_exchange old new]
      cases leafAt old new pre familyAbsent [] <;> rfl

theorem bne_comm_isNone (a b : Option Value) : (b.isNone != a.isNone) = (a.isNone != b.isNone) := by
  cases a <;> cases b <;> rfl

theorem metricLeaves_exchange (oldMetrics newMetrics : Value) :
    metricLeaves newMetrics oldMetrics =
      (metricLeaves oldMetrics newMetrics).map MetricLeaf.exchange := by
  rw [metricLeaves, metricLeaves, unionKeys_comm, List.map_flatMap]
  congr 1
  funext familyKey
  show List.map _ (collectLeaves (child (some newMetrics) familyKey)
    (child (some oldMetrics) familyKey) "" _) = List.map _ (List.map _ _)
  rw [bne_comm_isNone, collectLeaves_exchange _ (child (some oldMetrics) familyKey)
    (child (some newMetrics) familyKey) "" _ le_rfl, List.map_map, List.map_map]
  rfl

/-! ### Files -/

/-- The files on both sides. -/
def commonFiles (old new : MetricSet) : List String :=
  old.keys.filter fun file => (new.get file).isSome

theorem commonFiles_comm (old new : MetricSet) : commonFiles new old = commonFiles old new := by
  have hsorted : ∀ old new : MetricSet, (commonFiles old new).Pairwise (· < ·) := by
    intro old new
    exact List.Pairwise.filter _ (List.pairwise_map.mpr old.sorted)
  have hnodup : ∀ old new : MetricSet, (commonFiles old new).Nodup :=
    fun old new => (SortedMap.nodup_keys old).filter _
  have hperm : (commonFiles new old).Perm (commonFiles old new) := by
    rw [List.perm_ext_iff_of_nodup (hnodup new old) (hnodup old new)]
    intro file
    simp only [commonFiles, List.mem_filter, SortedMap.get_isSome]
    exact and_comm
  exact hperm.eq_of_pairwise (fun a b _ _ hab hba => absurd hba hab.asymm) (hsorted _ _)
    (hsorted _ _)

/-- The leaves of one file. -/
def leavesOf (old new : MetricSet) (file : String) : List (String × MetricLeaf) :=
  match old.get file, new.get file with
  | some oldMetrics, some newMetrics =>
    (metricLeaves oldMetrics newMetrics).map fun leaf => (file, leaf)
  | _, _ => []

theorem sharedLeaves_eq (old new : MetricSet) :
    sharedLeaves old new = (commonFiles old new).flatMap (leavesOf old new) := by
  have hentries : ∀ entries : List (String × Value), (∀ e ∈ entries, old.get e.1 = some e.2) →
      (entries.flatMap fun e => (new.get e.1).elim [] fun newMetrics =>
        (metricLeaves e.2 newMetrics).map fun leaf => (e.1, leaf)) =
      ((entries.map Prod.fst).filter fun file => (new.get file).isSome).flatMap
        (leavesOf old new) := by
    intro entries
    induction entries with
    | nil => intro _; rfl
    | cons e entries ih =>
      intro h
      have hold := h e (List.mem_cons_self ..)
      rw [List.flatMap_cons, ih fun e he => h e (List.mem_cons_of_mem _ he), List.map_cons]
      rcases hnew : new.get e.1 with _ | newMetrics
      · rw [List.filter_cons_of_neg (by simp [hnew])]
        rfl
      · rw [List.filter_cons_of_pos (by simp [hnew]), List.flatMap_cons, leavesOf, hold, hnew]
        rfl
  have hall := hentries old.entries fun e he => SortedMap.get_eq_some.mpr he
  refine Eq.trans ?_ hall
  rw [sharedLeaves]
  apply List.flatMap_congr
  intro e _
  cases new.get e.1 <;> rfl

theorem leavesOf_exchange (old new : MetricSet) (file : String) :
    leavesOf new old file = (leavesOf old new file).map fun leaf => (leaf.1, leaf.2.exchange) := by
  unfold leavesOf
  rcases old.get file with _ | oldMetrics
  · rcases new.get file with _ | newMetrics <;> rfl
  · rcases new.get file with _ | newMetrics
    · rfl
    · show List.map _ (metricLeaves newMetrics oldMetrics) = List.map _ (List.map _ _)
      rw [metricLeaves_exchange, List.map_map, List.map_map]
      rfl

theorem recorded_exchange (old new : MetricSet) (metricFilter : List String) :
    recorded new old metricFilter =
      (recorded old new metricFilter).map fun leaf => (leaf.1, leaf.2.exchange) := by
  have hshared : sharedLeaves new old =
      (sharedLeaves old new).map fun leaf => (leaf.1, leaf.2.exchange) := by
    rw [sharedLeaves_eq, sharedLeaves_eq, commonFiles_comm, List.map_flatMap]
    congr 1
    funext file
    exact leavesOf_exchange old new file
  rw [recorded, recorded, hshared, List.filter_map]
  rfl

/-! ### The diff -/

theorem bucket_exchange (diff : MetricDiff) (name : String) :
    (diff.exchange.bucket name) = (diff.bucket name).exchange := by
  have hget : diff.exchange.buckets.get name = (diff.buckets.get name).map Bucket.exchange :=
    SortedMap.get_map ..
  rw [MetricDiff.bucket, MetricDiff.bucket, hget]
  cases diff.buckets.get name <;> rfl

theorem recordLeaf_exchange (diff : MetricDiff) (file : String) (leaf : MetricLeaf)
    (minChange : ℚ) : recordLeaf diff.exchange file leaf.exchange minChange =
      (recordLeaf diff file leaf minChange).exchange := by
  obtain ⟨bucket, field, values⟩ := leaf
  cases values with
  | both old new =>
    show recordLeaf diff.exchange file ⟨bucket, field, .both new old⟩ minChange = _
    by_cases hsmall : movement old new = 0 ∨ movement old new < minChange
    · have hsmall' := hsmall
      rw [← movement_comm] at hsmall'
      rw [recordLeaf_still _ _ _ _ hsmall, recordLeaf_still _ _ _ _ hsmall']
    · have hmoved' := hsmall
      rw [← movement_comm] at hmoved'
      rw [recordLeaf_moved _ _ _ _ hsmall, recordLeaf_moved _ _ _ _ hmoved', bucket_exchange]
      simp only [MetricDiff.exchange, SortedMap.map_insert, Bucket.exchange, List.map_append]
      rfl
  | newOnly absent => rfl
  | oldOnly absent => rfl

theorem recordAll_exchange (minChange : ℚ) (leaves : List (String × MetricLeaf)) :
    ∀ diff : MetricDiff, recordAll minChange diff.exchange
        (leaves.map fun leaf => (leaf.1, leaf.2.exchange)) =
      (recordAll minChange diff leaves).exchange := by
  induction leaves with
  | nil => intro diff; rfl
  | cons leaf leaves ih =>
    intro diff
    rw [List.map_cons, recordAll, List.foldl_cons]
    show recordAll minChange (recordLeaf diff.exchange leaf.1 leaf.2.exchange minChange) _ = _
    rw [recordLeaf_exchange, ih]
    rfl

theorem sort_exchange (diff : MetricDiff) : diff.exchange.sort = diff.sort.exchange := by
  have hbucket : ∀ bucket : Bucket, bucket.exchange.sort = bucket.sort.exchange := by
    intro bucket
    rw [Bucket.sort, Bucket.exchange, Bucket.exchange, Bucket.sort,
      List.map_insertionSort deltaLe deltaLe FieldDelta.exchange]
    exact fun _ _ _ _ => Iff.rfl
  have hmap : (diff.buckets.map Bucket.exchange).map Bucket.sort =
      (diff.buckets.map Bucket.sort).map Bucket.exchange := by
    simp only [SortedMap.map, List.map_map]
    congr 1
    apply List.map_congr_left
    intro e _
    exact congrArg (Prod.mk e.1) (hbucket e.2)
  simp only [MetricDiff.sort, MetricDiff.exchange, hmap]

/-- Exchanging the sets exchanges what is added with what is removed, and turns every change
round. -/
theorem fromSets_exchange (old new : MetricSet) (minChange : ℚ) (metricFilter : List String) :
    fromSets new old minChange metricFilter =
      (fromSets old new minChange metricFilter).exchange := by
  have hstart : start new old = (start old new).exchange := rfl
  rw [fromSets_eq, fromSets_eq, recorded_exchange, hstart, recordAll_exchange, sort_exchange]

end BigCodeAnalysis.DocumentDiff
