import BigCodeAnalysis.Vcs.BusFactor
import BigCodeAnalysis.Vcs.Replay
import Mathlib.Data.Finmap

/-! What the history walk collects about one file. All counts and author sets are the same
for every order of the commits. The first authors are those of the earliest commit that
arrives first, so they depend on the order exactly where two earliest commits differ in
their authors. Sums of entropies are left abstract. -/

namespace BigCodeAnalysis.Vcs

variable {F : Type*}

def u64Max : ℕ := 2 ^ 64 - 1

/-- `saturating_add` of two `u64`. -/
def saturatingAdd64 (a b : ℕ) : ℕ := min (a + b) u64Max

/-- One commit's effect on one file. -/
structure ChangeRecord (F : Type*) where
  churn : ℕ
  commitTime : ℤ
  inRecent : Bool
  classification : Classification
  authors : List AuthorId
  changeEntropy : F
  deriving DecidableEq

structure Accumulator (F : Type*) where
  sloc : ℕ
  commitsLong : ℕ
  commitsRecent : ℕ
  churnLong : ℕ
  churnRecent : ℕ
  changeEntropyLong : F
  changeEntropyRecent : F
  authorEditsLong : Finmap fun _ : AuthorId => ℕ
  authorsRecent : Finset AuthorId
  bugFixCommits : ℕ
  securityFixCommits : ℕ
  revertCommits : ℕ
  oldestTouch : Option ℤ
  newestTouch : Option ℤ
  firstAuthors : List AuthorId

namespace Accumulator

def new [Zero F] (sloc : ℕ) : Accumulator F where
  sloc
  commitsLong := 0
  commitsRecent := 0
  churnLong := 0
  churnRecent := 0
  changeEntropyLong := 0
  changeEntropyRecent := 0
  authorEditsLong := ∅
  authorsRecent := ∅
  bugFixCommits := 0
  securityFixCommits := 0
  revertCommits := 0
  oldestTouch := none
  newestTouch := none
  firstAuthors := []

/-- One more edit of an author. -/
def creditEdit (edits : Finmap fun _ : AuthorId => ℕ) (id : AuthorId) :
    Finmap fun _ : AuthorId => ℕ :=
  match edits.lookup id with
  | some count => edits.insert id (saturatingAdd count 1)
  | none => edits.insert id 1

/-- `is_none_or`: a strictly earlier commit is the new oldest. -/
def isNewOldest (oldest : Option ℤ) (time : ℤ) : Bool :=
  match oldest with
  | none => true
  | some t => time < t

variable [Add F]

def record (self : Accumulator F) (change : ChangeRecord F) : Accumulator F where
  sloc := self.sloc
  commitsLong := saturatingAdd self.commitsLong 1
  commitsRecent :=
    if change.inRecent then saturatingAdd self.commitsRecent 1 else self.commitsRecent
  churnLong := saturatingAdd64 self.churnLong change.churn
  churnRecent :=
    if change.inRecent then saturatingAdd64 self.churnRecent change.churn else self.churnRecent
  changeEntropyLong := self.changeEntropyLong + change.changeEntropy
  changeEntropyRecent :=
    if change.inRecent then self.changeEntropyRecent + change.changeEntropy
    else self.changeEntropyRecent
  authorEditsLong := change.authors.foldl creditEdit self.authorEditsLong
  authorsRecent :=
    if change.inRecent then self.authorsRecent ∪ change.authors.toFinset else self.authorsRecent
  bugFixCommits := saturatingAdd self.bugFixCommits change.classification.bugFix.toNat
  securityFixCommits :=
    saturatingAdd self.securityFixCommits change.classification.securityFix.toNat
  revertCommits := saturatingAdd self.revertCommits change.classification.revert.toNat
  oldestTouch :=
    if isNewOldest self.oldestTouch change.commitTime then some change.commitTime
    else self.oldestTouch
  newestTouch := some ((self.newestTouch.map fun t => max t change.commitTime).getD
    change.commitTime)
  firstAuthors :=
    if isNewOldest self.oldestTouch change.commitTime then change.authors else self.firstAuthors

/-- The accumulator of a file's records, in the order they arrive. -/
def collect [Zero F] (sloc : ℕ) (changes : List (ChangeRecord F)) : Accumulator F :=
  changes.foldl record (new sloc)

omit [Add F] in
/-- What `authorship` hands to the bus factor about one developer. -/
def contribution (self : Accumulator F) (id : AuthorId) : Option AuthorContribution :=
  (self.authorEditsLong.lookup id).map fun deliveries =>
    ⟨id, deliveries, self.firstAuthors.contains id⟩

/-! ### Counts and author sets -/

/-- The integer statistics and author sets agree. -/
structure SameCounts (a b : Accumulator F) : Prop where
  sloc : a.sloc = b.sloc
  commitsLong : a.commitsLong = b.commitsLong
  commitsRecent : a.commitsRecent = b.commitsRecent
  churnLong : a.churnLong = b.churnLong
  churnRecent : a.churnRecent = b.churnRecent
  authorEditsLong : a.authorEditsLong = b.authorEditsLong
  authorsRecent : a.authorsRecent = b.authorsRecent
  bugFixCommits : a.bugFixCommits = b.bugFixCommits
  securityFixCommits : a.securityFixCommits = b.securityFixCommits
  revertCommits : a.revertCommits = b.revertCommits
  oldestTouch : a.oldestTouch = b.oldestTouch
  newestTouch : a.newestTouch = b.newestTouch

omit [Add F] in
theorem SameCounts.refl (a : Accumulator F) : SameCounts a a :=
  ⟨rfl, rfl, rfl, rfl, rfl, rfl, rfl, rfl, rfl, rfl, rfl, rfl⟩

omit [Add F] in
theorem SameCounts.trans {a b c : Accumulator F} (h : SameCounts a b) (h' : SameCounts b c) :
    SameCounts a c :=
  ⟨h.1.trans h'.1, h.2.trans h'.2, h.3.trans h'.3, h.4.trans h'.4, h.5.trans h'.5,
    h.6.trans h'.6, h.7.trans h'.7, h.8.trans h'.8, h.9.trans h'.9, h.10.trans h'.10,
    h.11.trans h'.11, h.12.trans h'.12⟩

/-- A further record keeps counts the same. -/
theorem SameCounts.record {a b : Accumulator F} (h : SameCounts a b) (change : ChangeRecord F) :
    SameCounts (a.record change) (b.record change) := by
  obtain ⟨h1, h2, h3, h4, h5, h6, h7, h8, h9, h10, h11, h12⟩ := h
  refine ⟨h1, ?_, ?_, ?_, ?_, ?_, ?_, ?_, ?_, ?_, ?_, ?_⟩ <;>
    simp only [Accumulator.record, h2, h3, h4, h5, h6, h7, h8, h9, h10, h11, h12]

theorem creditEdit_lookup (edits : Finmap fun _ : AuthorId => ℕ) (id x : AuthorId) :
    (creditEdit edits id).lookup x =
      if x = id then some (((edits.lookup id).map fun n => saturatingAdd n 1).getD 1)
      else edits.lookup x := by
  unfold creditEdit
  by_cases hx : x = id
  · subst hx
    rw [if_pos rfl]
    cases edits.lookup x with
    | none => exact Finmap.lookup_insert edits
    | some n => exact Finmap.lookup_insert edits
  · rw [if_neg hx]
    cases edits.lookup id with
    | none => exact Finmap.lookup_insert_of_ne edits hx
    | some n => exact Finmap.lookup_insert_of_ne edits hx

theorem creditEdit_right_comm (edits : Finmap fun _ : AuthorId => ℕ) (a b : AuthorId) :
    creditEdit (creditEdit edits a) b = creditEdit (creditEdit edits b) a := by
  by_cases hab : a = b
  · rw [hab]
  refine Finmap.ext_lookup fun x => ?_
  simp only [creditEdit_lookup, if_neg hab, if_neg (Ne.symm hab)]
  by_cases hxa : x = a
  · rw [if_pos hxa, if_neg fun hxb => hab (hxa.symm.trans hxb), if_pos hxa]
  · rw [if_neg hxa, if_neg hxa]

theorem foldl_creditEdit_right_comm (edits : Finmap fun _ : AuthorId => ℕ)
    (as bs : List AuthorId) :
    bs.foldl creditEdit (as.foldl creditEdit edits) =
      as.foldl creditEdit (bs.foldl creditEdit edits) := by
  rw [← List.foldl_append, ← List.foldl_append]
  exact List.perm_append_comm.foldl_eq'
    (fun _ _ _ _ _ => creditEdit_right_comm ..) edits

theorem saturatingAdd_swap (a b c : ℕ) :
    saturatingAdd (saturatingAdd a b) c = saturatingAdd (saturatingAdd a c) b := by
  unfold saturatingAdd
  omega

theorem saturatingAdd64_swap (a b c : ℕ) :
    saturatingAdd64 (saturatingAdd64 a b) c = saturatingAdd64 (saturatingAdd64 a c) b := by
  unfold saturatingAdd64
  omega

/-- The oldest time of the records so far and one more. -/
theorem oldest_eq (oldest : Option ℤ) (time : ℤ) :
    (if isNewOldest oldest time then some time else oldest) =
      some ((oldest.map fun t => min t time).getD time) := by
  unfold isNewOldest
  cases oldest with
  | none => rfl
  | some t =>
    by_cases h : time < t
    · simp [h, min_eq_right h.le]
    · simp [h, min_eq_left (not_lt.mp h)]

/-- Two records in either order. -/
theorem record_right_comm (acc : Accumulator F) (c d : ChangeRecord F) :
    SameCounts ((acc.record c).record d) ((acc.record d).record c) where
  sloc := rfl
  commitsLong := rfl
  commitsRecent := by
    simp only [record]
    split_ifs <;> rfl
  churnLong := saturatingAdd64_swap ..
  churnRecent := by
    simp only [record]
    split_ifs
    · exact saturatingAdd64_swap ..
    · rfl
    · rfl
    · rfl
  authorEditsLong := foldl_creditEdit_right_comm ..
  authorsRecent := by
    simp only [record]
    split_ifs
    · exact Finset.union_right_comm ..
    · rfl
    · rfl
    · rfl
  bugFixCommits := saturatingAdd_swap ..
  securityFixCommits := saturatingAdd_swap ..
  revertCommits := saturatingAdd_swap ..
  oldestTouch := by
    simp only [record, oldest_eq, Option.map_some, Option.getD_some]
    cases acc.oldestTouch with
    | none => simp [min_comm]
    | some t => simp [min_right_comm]
  newestTouch := by
    simp only [record, Option.map_some, Option.getD_some]
    cases acc.newestTouch with
    | none => simp [max_comm]
    | some t => simp [max_right_comm]

theorem foldl_sameCounts (changes : List (ChangeRecord F)) : ∀ {a b : Accumulator F},
    SameCounts a b → SameCounts (changes.foldl record a) (changes.foldl record b) := by
  induction changes with
  | nil => exact fun h => h
  | cons c changes ih => exact fun h => ih (h.record c)

theorem foldl_perm {changes changes' : List (ChangeRecord F)} (h : changes.Perm changes') :
    ∀ acc : Accumulator F, SameCounts (changes.foldl record acc) (changes'.foldl record acc) := by
  induction h with
  | nil => exact fun acc => .refl acc
  | cons c _ ih => exact fun acc => ih (acc.record c)
  | swap c d changes => exact fun acc => foldl_sameCounts changes (record_right_comm acc d c)
  | trans _ _ ih ih' => exact fun acc => (ih acc).trans (ih' acc)

/-! ### First authorship -/

/-- A later record is no new oldest. -/
theorem firstAuthors_later (changes : List (ChangeRecord F)) : ∀ {acc : Accumulator F} {t : ℤ},
    acc.oldestTouch = some t → (∀ c ∈ changes, t ≤ c.commitTime) →
    (changes.foldl record acc).firstAuthors = acc.firstAuthors := by
  induction changes with
  | nil => exact fun _ _ => rfl
  | cons c changes ih =>
    intro acc t hold hle
    have hc : ¬ c.commitTime < t := not_lt.mpr (hle c List.mem_cons_self)
    have hnot : isNewOldest acc.oldestTouch c.commitTime = false := by
      rw [hold]
      exact decide_eq_false hc
    have hkeep : (acc.record c).oldestTouch = some t := by
      rw [record, hnot, hold]
      rfl
    rw [List.foldl_cons, ih hkeep fun d hd => hle d (List.mem_cons_of_mem _ hd), record, hnot]
    rfl

/-- A record no later than any other, when it arrives first, is first authorship. -/
theorem firstAuthors_cons [Zero F] (sloc : ℕ) {c : ChangeRecord F} {changes : List (ChangeRecord F)}
    (h : ∀ d ∈ changes, c.commitTime ≤ d.commitTime) :
    (collect sloc (c :: changes)).firstAuthors = c.authors :=
  firstAuthors_later changes rfl h

/-- A record of the smallest commit time. -/
def Earliest (changes : List (ChangeRecord F)) (c : ChangeRecord F) : Prop :=
  c ∈ changes ∧ ∀ d ∈ changes, c.commitTime ≤ d.commitTime

/-- First authorship is that of an earliest record. -/
theorem exists_earliest [Zero F] (sloc : ℕ) (changes : List (ChangeRecord F)) :
    (changes = [] ∧ (collect sloc changes).oldestTouch = none) ∨
    ∃ c, Earliest changes c ∧ (collect sloc changes).oldestTouch = some c.commitTime ∧
      (collect sloc changes).firstAuthors = c.authors := by
  induction changes using List.reverseRecOn with
  | nil => exact .inl ⟨rfl, rfl⟩
  | append_singleton changes d ih =>
    right
    have hstep : collect sloc (changes ++ [d]) = (collect sloc changes).record d := by
      rw [collect, List.foldl_append]
      rfl
    rw [hstep, record]
    rcases ih with ⟨rfl, hnone⟩ | ⟨c, ⟨hmem, hle⟩, hold, hfirst⟩
    · refine ⟨d, ⟨List.mem_singleton_self d, fun e he => ?_⟩, ?_⟩
      · rw [List.mem_singleton.mp he]
      · simp [hnone, isNewOldest]
    · by_cases hlt : d.commitTime < c.commitTime
      · refine ⟨d, ⟨List.mem_append_right _ (List.mem_singleton_self d), fun e he => ?_⟩, ?_⟩
        · rcases List.mem_append.mp he with he | he
          · exact hlt.le.trans (hle e he)
          · rw [List.mem_singleton.mp he]
        · simp [hold, isNewOldest, hlt]
      · refine ⟨c, ⟨List.mem_append_left _ hmem, fun e he => ?_⟩, ?_⟩
        · rcases List.mem_append.mp he with he | he
          · exact hle e he
          · rw [List.mem_singleton.mp he]
            exact not_lt.mp hlt
        · simp [hold, hfirst, isNewOldest, hlt]

/-- All that the statistics and the bus factor read is the same. -/
structure SameHistory (a b : Accumulator F) : Prop where
  counts : SameCounts a b
  firstAuthors : ∀ id, id ∈ a.firstAuthors ↔ id ∈ b.firstAuthors

omit [Add F] in
theorem SameHistory.contribution {a b : Accumulator F} (h : SameHistory a b) (id : AuthorId) :
    a.contribution id = b.contribution id := by
  have hfirst : a.firstAuthors.contains id = b.firstAuthors.contains id := by
    rw [Bool.eq_iff_iff, List.contains_iff_mem, List.contains_iff_mem]
    exact h.firstAuthors id
  rw [Accumulator.contribution, Accumulator.contribution, h.counts.authorEditsLong, hfirst]

/-- The earliest records name the same authors. -/
def EarliestAgree (changes : List (ChangeRecord F)) : Prop :=
  ∀ c d, Earliest changes c → Earliest changes d → ∀ id, id ∈ c.authors ↔ id ∈ d.authors

omit [Add F] in
theorem Earliest.perm {changes changes' : List (ChangeRecord F)} (h : changes.Perm changes')
    {c : ChangeRecord F} (hc : Earliest changes c) : Earliest changes' c :=
  ⟨h.mem_iff.mp hc.1, fun d hd => hc.2 d (h.mem_iff.mpr hd)⟩

/-- The order of the records matters for first authorship alone, and there exactly where two
earliest records differ in their authors. -/
theorem collect_sameHistory_iff [Zero F] (sloc : ℕ) (changes : List (ChangeRecord F)) :
    (∀ changes', changes.Perm changes' →
      SameCounts (collect sloc changes) (collect sloc changes')) ∧
    ((∀ changes', changes.Perm changes' →
        SameHistory (collect sloc changes) (collect sloc changes')) ↔
      EarliestAgree changes) := by
  refine ⟨fun changes' h => foldl_perm h _, fun hsame c d hc hd id => ?_, fun hagree changes' h =>
    ⟨foldl_perm h _, fun id => ?_⟩⟩
  · -- each of the two records can arrive first
    have hfront : ∀ e, Earliest changes e →
        (id ∈ (collect sloc changes).firstAuthors ↔ id ∈ e.authors) := by
      intro e he
      obtain ⟨before, after, hsplit⟩ := List.append_of_mem he.1
      have hperm : changes.Perm (e :: (before ++ after)) := hsplit ▸ List.perm_middle
      have hfirst : (collect sloc (e :: (before ++ after))).firstAuthors = e.authors := by
        refine firstAuthors_cons sloc fun d hd => ?_
        exact he.2 d (hperm.mem_iff.mpr (List.mem_cons_of_mem _ hd))
      rw [(hsame _ hperm).firstAuthors, hfirst]
    exact (hfront c hc).symm.trans (hfront d hd)
  · rcases exists_earliest sloc changes with ⟨rfl, -⟩ | ⟨c, hc, -, hfirst⟩
    · rw [h.symm.eq_nil]
    · rcases exists_earliest sloc changes' with ⟨rfl, -⟩ | ⟨d, hd, -, hfirst'⟩
      · rw [h.eq_nil] at hc
        cases hc.1
      · rw [hfirst, hfirst']
        exact hagree c d hc (hd.perm h.symm) id

/-- Of two commits at one time, the one that arrives first is first authorship. -/
theorem collect_tie :
    let alice : AuthorId := ⟨"alice", false⟩
    let bob : AuthorId := ⟨"bob", false⟩
    let change := fun author => (⟨1, 0, false, ⟨false, false, false⟩, [author], 0⟩ :
      ChangeRecord ℕ)
    (collect 0 [change alice, change bob]).firstAuthors = [alice] ∧
    (collect 0 [change bob, change alice]).firstAuthors = [bob] := by
  exact ⟨rfl, rfl⟩

end Accumulator

end BigCodeAnalysis.Vcs
