import BigCodeAnalysis.Catalog.Metrics
import BigCodeAnalysis.Numbers.Binary64
import BigCodeAnalysis.Sequences.Group
import BigCodeAnalysis.Sequences.SortedMap
import Mathlib.Algebra.GroupWithZero.Nat
import Mathlib.Algebra.Order.Ring.Rat
import Mathlib.Data.Rat.Defs
import Mathlib.Data.String.Basic

/-! The diff of two sets of metric documents. The two documents of one file are walked in
lock-step, and every place that holds a number on at least one side is a leaf, named by the keys
that lead to it. A leaf with two numbers that moved far enough apart is a row of its metric's
bucket, a leaf with one number an added or a removed field, and a file on one side only an added or
a removed file. Numbers and their differences are of double precision. `fromSets_eq` turns the
loops into one fold over the leaves the filter lets through. -/

namespace BigCodeAnalysis.DocumentDiff

open Sequences Catalog Numbers

/-- A JSON value; `number` holds the number as it is written. -/
inductive Value where
  | null
  | bool (b : Bool)
  | number (x : ℚ)
  | string (s : String)
  | array (elements : List Value)
  | object (entries : List (String × Value))

abbrev Entries := List (String × Value)

def Value.asF64 : Value → Option ℚ
  | .number x => some (binary64 x)
  | _ => none

def Value.asObject : Value → Option Entries
  | .object entries => some entries
  | _ => none

/-- The keys of both sides, in order and once each. -/
def unionKeys (old new : Option Entries) : List String :=
  keysOf Prod.fst (old.getD [] ++ new.getD [])

/-- What the two documents hold at a leaf. `familyAbsent` tells whether the whole family is
missing on the side without the number. -/
inductive LeafValues where
  | both (old new : ℚ)
  | newOnly (familyAbsent : Bool)
  | oldOnly (familyAbsent : Bool)
  deriving DecidableEq, Repr

def LeafValues.classify (old new : Option ℚ) (familyAbsent : Bool) : Option LeafValues :=
  match old, new with
  | some old, some new => some (.both old new)
  | none, some _ => some (.newOnly familyAbsent)
  | some _, none => some (.oldOnly familyAbsent)
  | none, none => none

/-- The dotted path of a key below a path. -/
def childPrefix (pre k : String) : String := if pre = "" then k else pre ++ "." ++ k

/-- The value of a key, when there is an object with the key. -/
def child (v : Option Value) (k : String) : Option Value :=
  (v.bind Value.asObject).bind fun entries => entries.lookup k

theorem sizeOf_lookup {entries : Entries} {k : String} {v : Value}
    (h : entries.lookup k = some v) : sizeOf v < sizeOf entries := by
  induction entries with
  | nil => cases h
  | cons e entries ih =>
    obtain ⟨k', v'⟩ := e
    rw [List.lookup_cons] at h
    split at h
    · cases h
      simp only [List.cons.sizeOf_spec, Prod.mk.sizeOf_spec]
      omega
    · have := ih h
      simp only [List.cons.sizeOf_spec]
      omega

theorem sizeOf_child_lt {v : Option Value} {k : String} {w : Value} (h : child v k = some w) :
    sizeOf (child v k) < sizeOf v := by
  rcases v with _ | v
  · cases h
  · cases v with
    | object entries =>
      have hlookup : entries.lookup k = some w := h
      have hlt := sizeOf_lookup hlookup
      rw [h]
      simp only [Option.some.sizeOf_spec, Value.object.sizeOf_spec]
      omega
    | _ => cases h

theorem sizeOf_child_le (v : Option Value) (k : String) : sizeOf (child v k) ≤ sizeOf v := by
  rcases h : child v k with _ | w
  · rcases v with _ | v
    · exact le_rfl
    · simp only [Option.none.sizeOf_spec, Option.some.sizeOf_spec]
      omega
  · exact h ▸ (sizeOf_child_lt h).le

theorem lookup_isSome {entries : Entries} {k : String} (h : k ∈ entries.map Prod.fst) :
    ∃ v, entries.lookup k = some v := by
  induction entries with
  | nil => cases h
  | cons e entries ih =>
    obtain ⟨k', v'⟩ := e
    rw [List.lookup_cons]
    by_cases hk : k = k'
    · exact ⟨v', by simp [hk]⟩
    · rcases List.mem_cons.mp h with h | h
      · exact absurd h hk
      · have hbeq : (k == k') = false := beq_eq_false_iff_ne.mpr hk
        simpa only [hbeq] using ih h

/-- A key of either side leads to a smaller pair of values. -/
theorem sizeOf_children_lt {old new : Option Value} {k : String}
    (h : k ∈ unionKeys (old.bind Value.asObject) (new.bind Value.asObject)) :
    sizeOf (child old k) + sizeOf (child new k) < sizeOf old + sizeOf new := by
  have hsome : ∀ v : Option Value, (∃ e ∈ (v.bind Value.asObject).getD [], e.1 = k) →
      ∃ w, child v k = some w := by
    rintro v ⟨e, he, rfl⟩
    rcases hentries : v.bind Value.asObject with _ | entries
    · rw [hentries] at he
      cases he
    · rw [hentries] at he
      rw [child, hentries]
      exact lookup_isSome (List.mem_map.mpr ⟨e, he, rfl⟩)
  obtain ⟨e, he, hk⟩ := (mem_keysOf Prod.fst).mp h
  have hold := sizeOf_child_le old k
  have hnew := sizeOf_child_le new k
  rcases List.mem_append.mp he with he | he
  · obtain ⟨w, hw⟩ := hsome old ⟨e, he, hk⟩
    have hlt := sizeOf_child_lt hw
    omega
  · obtain ⟨w, hw⟩ := hsome new ⟨e, he, hk⟩
    have hlt := sizeOf_child_lt hw
    omega

/-- The leaves below two values, the deeper ones first. -/
def collectLeaves (old new : Option Value) (pre : String) (familyAbsent : Bool) :
    List (String × LeafValues) :=
  (unionKeys (old.bind Value.asObject) (new.bind Value.asObject)).attach.flatMap (fun k =>
    collectLeaves (child old k.1) (child new k.1) (childPrefix pre k.1) familyAbsent) ++
  ((LeafValues.classify (old.bind Value.asF64) (new.bind Value.asF64) familyAbsent).map
    fun values => (pre, values)).toList
termination_by sizeOf old + sizeOf new
decreasing_by exact sizeOf_children_lt k.2

/-! ### Buckets -/

/-- How the leaves of a top-level key are bucketed: under one name, or by the rows of a family. -/
inductive FamilyBucket where
  | family (name : String)
  | expand (family : MetricFamily)
  deriving DecidableEq, Repr

def familyBucket (familyKey : String) : FamilyBucket :=
  match families.find? fun f => f.name = familyKey with
  | some f => if (expandedRows f).isSome then .expand f else .family f.name
  | none => .family familyKey

def bucketName (familyKey field : String) : String :=
  match familyBucket familyKey with
  | .family name => name
  | .expand family => diffBucket family field

structure MetricLeaf where
  bucket : String
  field : String
  values : LeafValues
  deriving DecidableEq, Repr

/-- Every scalar leaf of two `metrics` objects that is numeric on at least one side. -/
def metricLeaves (oldMetrics newMetrics : Value) : List MetricLeaf :=
  (unionKeys oldMetrics.asObject newMetrics.asObject).flatMap fun familyKey =>
    let oldSub := child (some oldMetrics) familyKey
    let newSub := child (some newMetrics) familyKey
    let familyAbsent := oldSub.isNone != newSub.isNone
    (collectLeaves oldSub newSub "" familyAbsent).map fun leaf =>
      ⟨bucketName familyKey leaf.1, leaf.1, leaf.2⟩

/-! ### The diff -/

structure FieldDelta where
  file : String
  field : String
  old : ℚ
  new : ℚ
  deriving DecidableEq, Repr

structure FieldPresence where
  file : String
  metric : String
  field : String
  familyAbsent : Bool
  deriving DecidableEq, Repr

structure Bucket where
  changed : List FieldDelta := []
  deriving DecidableEq, Repr

structure MetricDiff where
  buckets : SortedMap String Bucket
  addedFiles : List String
  removedFiles : List String
  addedFields : List FieldPresence
  removedFields : List FieldPresence

abbrev MetricSet := SortedMap String Value

/-- The files on one side only, the added ones first. -/
def fileSetDeltas (old new : MetricSet) : List String × List String :=
  ((new.keys.filter fun key => (old.get key).isNone).insertionSort (· ≤ ·),
    (old.keys.filter fun key => (new.get key).isNone).insertionSort (· ≤ ·))

/-- A field of a bucket that is not there yet starts from the empty one. -/
def MetricDiff.bucket (diff : MetricDiff) (name : String) : Bucket :=
  (diff.buckets.get name).getD {}

/-- How far a leaf moved. -/
def movement (old new : ℚ) : ℚ := |binary64 (new - old)|

theorem movement_comm (old new : ℚ) : movement new old = movement old new := by
  rw [movement, ← neg_sub, binary64_neg, abs_neg, movement]

theorem movement_nonneg (old new : ℚ) : 0 ≤ movement old new := abs_nonneg _

theorem movement_eq_zero {x y : ℚ} :
    movement (binary64 x) (binary64 y) = 0 ↔ binary64 y = binary64 x := by
  rw [movement, abs_eq_zero, binary64_sub_eq_zero]

def recordLeaf (diff : MetricDiff) (file : String) (leaf : MetricLeaf) (minChange : ℚ) :
    MetricDiff :=
  match leaf.values with
  | .both old new =>
    let delta := movement old new
    if delta = 0 ∨ delta < minChange then diff
    else
      let bucket := diff.bucket leaf.bucket
      { diff with
        buckets := diff.buckets.insert leaf.bucket
          ⟨bucket.changed ++ [⟨file, leaf.field, old, new⟩]⟩ }
  | .newOnly familyAbsent =>
    { diff with
      addedFields := diff.addedFields ++ [⟨file, leaf.bucket, leaf.field, familyAbsent⟩] }
  | .oldOnly familyAbsent =>
    { diff with
      removedFields := diff.removedFields ++ [⟨file, leaf.bucket, leaf.field, familyAbsent⟩] }

/-- The order of a bucket: by file, then by field. -/
def deltaLe (a b : FieldDelta) : Prop := a.file < b.file ∨ a.file = b.file ∧ a.field ≤ b.field

instance : DecidableRel deltaLe := fun _ _ => inferInstanceAs (Decidable (_ ∨ _))

/-- The order of the fields as they are declared. -/
def presenceLe (a b : FieldPresence) : Prop :=
  a.file < b.file ∨ a.file = b.file ∧ (a.metric < b.metric ∨ a.metric = b.metric ∧
    (a.field < b.field ∨ a.field = b.field ∧ a.familyAbsent ≤ b.familyAbsent))

instance : DecidableRel presenceLe := fun _ _ => inferInstanceAs (Decidable (_ ∨ _))

def Bucket.sort (bucket : Bucket) : Bucket := ⟨bucket.changed.insertionSort deltaLe⟩

def fromSets (old new : MetricSet) (minChange : ℚ) (metricFilter : List String) : MetricDiff :=
  let metricFilter := metricFilter.map normalizeForDiff
  let files := fileSetDeltas old new
  let diff := old.entries.foldl (fun diff e =>
    match new.get e.1 with
    | none => diff
    | some newMetrics =>
      (metricLeaves e.2 newMetrics).foldl (fun diff (leaf : MetricLeaf) =>
        if metricFilter ≠ [] ∧ leaf.bucket ∉ metricFilter then diff
        else recordLeaf diff e.1 leaf minChange) diff)
    ⟨.empty, files.1, files.2, [], []⟩
  { diff with
    buckets := diff.buckets.map Bucket.sort
    addedFields := diff.addedFields.insertionSort presenceLe
    removedFields := diff.removedFields.insertionSort presenceLe }

def MetricDiff.totalChanges (diff : MetricDiff) : ℕ :=
  (diff.buckets.entries.map fun e => e.2.changed.length).sum

def MetricDiff.isEmpty (diff : MetricDiff) : Bool :=
  diff.totalChanges = 0 ∧ diff.addedFiles = [] ∧ diff.removedFiles = [] ∧
    diff.addedFields = [] ∧ diff.removedFields = []

/-! ### The leaves that are recorded -/

def Passes (metricFilter : List String) (name : String) : Prop :=
  metricFilter = [] ∨ name ∈ metricFilter.map normalizeForDiff

instance (metricFilter : List String) (name : String) : Decidable (Passes metricFilter name) :=
  inferInstanceAs (Decidable (_ ∨ _))

/-- Every leaf of a file on both sides, in the order it is recorded. -/
def sharedLeaves (old new : MetricSet) : List (String × MetricLeaf) :=
  old.entries.flatMap fun e =>
    match new.get e.1 with
    | none => []
    | some newMetrics => (metricLeaves e.2 newMetrics).map fun leaf => (e.1, leaf)

/-- The leaves the filter lets through. -/
def recorded (old new : MetricSet) (metricFilter : List String) : List (String × MetricLeaf) :=
  (sharedLeaves old new).filter fun leaf => Passes metricFilter leaf.2.bucket

def recordAll (minChange : ℚ) (diff : MetricDiff) (leaves : List (String × MetricLeaf)) :
    MetricDiff :=
  leaves.foldl (fun diff leaf => recordLeaf diff leaf.1 leaf.2 minChange) diff

def start (old new : MetricSet) : MetricDiff :=
  ⟨.empty, (fileSetDeltas old new).1, (fileSetDeltas old new).2, [], []⟩

def MetricDiff.sort (diff : MetricDiff) : MetricDiff :=
  { diff with
    buckets := diff.buckets.map Bucket.sort
    addedFields := diff.addedFields.insertionSort presenceLe
    removedFields := diff.removedFields.insertionSort presenceLe }

theorem fromSets_eq (old new : MetricSet) (minChange : ℚ) (metricFilter : List String) :
    fromSets old new minChange metricFilter =
      (recordAll minChange (start old new) (recorded old new metricFilter)).sort := by
  have hskip : ∀ name, (metricFilter.map normalizeForDiff ≠ [] ∧
      name ∉ metricFilter.map normalizeForDiff) ↔ ¬ Passes metricFilter name := by
    intro name
    rw [Passes, not_or, ne_eq, List.map_eq_nil_iff]
  have hleaves : ∀ (file : String) (leaves : List MetricLeaf) (diff : MetricDiff),
      leaves.foldl (fun diff (leaf : MetricLeaf) =>
        if metricFilter.map normalizeForDiff ≠ [] ∧
          leaf.bucket ∉ metricFilter.map normalizeForDiff then diff
        else recordLeaf diff file leaf minChange) diff =
      recordAll minChange diff ((leaves.map fun leaf => (file, leaf)).filter fun leaf =>
        Passes metricFilter leaf.2.bucket) := by
    intro file leaves
    induction leaves with
    | nil => intro diff; rfl
    | cons leaf leaves ih =>
      intro diff
      rw [List.foldl_cons, ih, List.map_cons]
      by_cases hpass : Passes metricFilter leaf.bucket
      · rw [if_neg (mt (hskip _).mp (not_not.mpr hpass)),
          List.filter_cons_of_pos (by simpa using hpass)]
        rfl
      · rw [if_pos ((hskip _).mpr hpass), List.filter_cons_of_neg (by simpa using hpass)]
  have hfiles : ∀ (entries : List (String × Value)) (diff : MetricDiff),
      entries.foldl (fun diff e =>
        match new.get e.1 with
        | none => diff
        | some newMetrics =>
          (metricLeaves e.2 newMetrics).foldl (fun diff (leaf : MetricLeaf) =>
            if metricFilter.map normalizeForDiff ≠ [] ∧
              leaf.bucket ∉ metricFilter.map normalizeForDiff then diff
            else recordLeaf diff e.1 leaf minChange) diff) diff =
      recordAll minChange diff ((entries.flatMap fun e =>
        match new.get e.1 with
        | none => []
        | some newMetrics => (metricLeaves e.2 newMetrics).map fun leaf => (e.1, leaf)).filter
          fun leaf => Passes metricFilter leaf.2.bucket) := by
    intro entries
    induction entries with
    | nil => intro diff; rfl
    | cons e entries ih =>
      intro diff
      rw [List.foldl_cons, ih, List.flatMap_cons, List.filter_append, recordAll, recordAll,
        List.foldl_append]
      congr 1
      rcases new.get e.1 with _ | newMetrics
      · rfl
      · exact hleaves e.1 _ diff
  unfold fromSets MetricDiff.sort
  simp only [hfiles]
  rfl

end BigCodeAnalysis.DocumentDiff
