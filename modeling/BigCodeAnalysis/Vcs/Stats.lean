import BigCodeAnalysis.Vcs.Accumulator
import BigCodeAnalysis.Vcs.Cached
import BigCodeAnalysis.Vcs.Window
import Mathlib.Data.Multiset.Fold
import Mathlib.Data.Multiset.Sort
import Mathlib.Data.String.Basic
import Mathlib.Order.Lattice.Nat

/-! The statistics an accumulator is collapsed into. They read its counts, author sets and
entropies and never its first authors. Quotients of counts and the score are floats and
stay abstract, as does the hash of an author. -/

namespace BigCodeAnalysis.Vcs

variable {F : Type*}

structure ScoreInput (F : Type*) where
  churnRecent : ℕ
  churnLong : ℕ
  commitsRecent : ℕ
  commitsLong : ℕ
  authorsLong : ℕ
  ownershipTopShare : F
  bugFixCommits : ℕ
  securityFixCommits : ℕ
  sloc : ℕ
  ageDays : ℕ
  recentWindowDays : ℕ
  changeEntropyRecent : F
  cochangeEntropyRecent : F

structure Stats (F : Type*) where
  vcsSchemaVersion : ℕ
  riskScoreVersion : ℕ
  longWindowDays : ℕ
  recentWindowDays : ℕ
  commitsLong : ℕ
  commitsRecent : ℕ
  churnLong : ℕ
  churnRecent : ℕ
  authorsLong : ℕ
  authorsRecent : ℕ
  ownershipTopShare : F
  burst : F
  bugFixCommits : ℕ
  securityFixCommits : ℕ
  revertCommits : ℕ
  ageDays : ℕ
  lastModifiedDays : ℕ
  changeEntropyLong : F
  changeEntropyRecent : F
  cochangeEntropyLong : F
  cochangeEntropyRecent : F
  riskScore : F
  hotspotScore : Option F
  authorIds : Option (List String)

/-- The float operations of `finalize`: the quotient of two counts, the clamp to the unit
interval and the weighted score. -/
structure FloatOps (F : Type*) where
  ratio : ℕ → ℕ → F
  clampUnit : F → F
  weighted : ScoreInput F → F

/-- The options `finalize` reads. -/
structure FinalizeOptions where
  windows : Windows
  emitAuthorDetails : Bool

def toU32 (value : ℤ) : ℕ := min value.toNat u32Max

/-- Seconds rounded to whole days. -/
def secsToDays (secs : ℤ) : ℕ :=
  toU32 (min i64Max (secs + secondsPerDay / 2) / secondsPerDay)

def daysBetween (earlier now : ℤ) : ℕ := toU32 (max (saturatingSub now earlier) 0 / secondsPerDay)

instance : LeftCommutative saturatingAdd where
  left_comm a b c := by
    unfold saturatingAdd
    omega

/-- The edits of all authors together. -/
def totalEdits (edits : Finmap fun _ : AuthorId => ℕ) : ℕ :=
  (edits.entries.map Sigma.snd).foldr saturatingAdd 0

def topEdits (edits : Finmap fun _ : AuthorId => ℕ) : ℕ := (edits.entries.map Sigma.snd).sup

namespace Accumulator

variable (ops : FloatOps F) (emitHashed : AuthorId → String)

def finalize [Zero F] (self : Accumulator F) (now : ℤ) (options : FinalizeOptions)
    (cochangeLong cochangeRecent : F) : Stats F :=
  let longWindowDays := secsToDays options.windows.longWindowSecs
  let recentWindowDays := secsToDays options.windows.recentWindowSecs
  let authorsLong := min self.authorEditsLong.keys.card u32Max
  let authorsRecent := min self.authorsRecent.card u32Max
  let total := totalEdits self.authorEditsLong
  let ownershipTopShare :=
    if 0 < total then ops.ratio (topEdits self.authorEditsLong) total else 0
  let burst :=
    if 0 < self.commitsLong then ops.clampUnit (ops.ratio self.commitsRecent self.commitsLong)
    else 0
  let ageDays := (self.oldestTouch.map fun t => min (daysBetween t now) longWindowDays).getD
    longWindowDays
  let lastModifiedDays := (self.newestTouch.map fun t => daysBetween t now).getD longWindowDays
  let riskScore := ops.weighted
    { churnRecent := self.churnRecent
      churnLong := self.churnLong
      commitsRecent := self.commitsRecent
      commitsLong := self.commitsLong
      authorsLong
      ownershipTopShare
      bugFixCommits := self.bugFixCommits
      securityFixCommits := self.securityFixCommits
      sloc := self.sloc
      ageDays
      recentWindowDays
      changeEntropyRecent := self.changeEntropyRecent
      cochangeEntropyRecent := cochangeRecent }
  let authorIds :=
    if options.emitAuthorDetails then
      some ((self.authorEditsLong.keys.val.map emitHashed).sort (· ≤ ·))
    else none
  { vcsSchemaVersion
    riskScoreVersion
    longWindowDays
    recentWindowDays
    commitsLong := self.commitsLong
    commitsRecent := self.commitsRecent
    churnLong := self.churnLong
    churnRecent := self.churnRecent
    authorsLong
    authorsRecent
    ownershipTopShare
    burst
    bugFixCommits := self.bugFixCommits
    securityFixCommits := self.securityFixCommits
    revertCommits := self.revertCommits
    ageDays
    lastModifiedDays
    changeEntropyLong := self.changeEntropyLong
    changeEntropyRecent := self.changeEntropyRecent
    cochangeEntropyLong := cochangeLong
    cochangeEntropyRecent := cochangeRecent
    riskScore
    hotspotScore := none
    authorIds }

/-- The statistics do not read the first authors. -/
theorem finalize_congr [Zero F] {a b : Accumulator F} (h : SameCounts a b)
    (hlong : a.changeEntropyLong = b.changeEntropyLong)
    (hrecent : a.changeEntropyRecent = b.changeEntropyRecent) (now : ℤ)
    (options : FinalizeOptions) (cochangeLong cochangeRecent : F) :
    a.finalize ops emitHashed now options cochangeLong cochangeRecent =
      b.finalize ops emitHashed now options cochangeLong cochangeRecent := by
  obtain ⟨h1, h2, h3, h4, h5, h6, h7, h8, h9, h10, h11, h12⟩ := h
  simp only [finalize, h1, h2, h3, h4, h5, h6, h7, h8, h9, h10, h11, h12, hlong, hrecent]

/-- The sums of entropies agree. -/
def SameEntropies (a b : Accumulator F) : Prop :=
  a.changeEntropyLong = b.changeEntropyLong ∧ a.changeEntropyRecent = b.changeEntropyRecent

variable [Add F]

theorem SameEntropies.record {a b : Accumulator F} (h : SameEntropies a b) (c : ChangeRecord F) :
    SameEntropies (a.record c) (b.record c) := by
  obtain ⟨hlong, hrecent⟩ := h
  constructor
  · simp only [Accumulator.record, hlong]
  · simp only [Accumulator.record, hrecent]

theorem SameEntropies.foldl (changes : List (ChangeRecord F)) : ∀ {a b : Accumulator F},
    SameEntropies a b → SameEntropies (changes.foldl Accumulator.record a)
      (changes.foldl Accumulator.record b) := by
  induction changes with
  | nil => exact fun h => h
  | cons c changes ih => exact fun h => ih (h.record c)

/-- Two records of equal entropy in either order. -/
theorem entropies_right_comm {c d : ChangeRecord F} (h : c.changeEntropy = d.changeEntropy)
    (acc : Accumulator F) :
    SameEntropies ((acc.record c).record d) ((acc.record d).record c) := by
  constructor
  · simp only [Accumulator.record, h]
  · simp only [Accumulator.record, h]
    split_ifs <;> rfl

/-- Records of equal entropy in any order. -/
theorem entropies_perm {entropy : F} {changes changes' : List (ChangeRecord F)}
    (h : changes.Perm changes') : (∀ c ∈ changes, c.changeEntropy = entropy) →
    ∀ acc : Accumulator F, SameEntropies (changes.foldl Accumulator.record acc)
      (changes'.foldl Accumulator.record acc) := by
  induction h with
  | nil => exact fun _ _ => ⟨rfl, rfl⟩
  | @cons c _ _ _ ih =>
    intro hall acc
    exact ih (fun d hd => hall d (List.mem_cons_of_mem _ hd)) (acc.record c)
  | swap c d changes =>
    intro hall acc
    have hd : d.changeEntropy = entropy := hall d List.mem_cons_self
    have hc : c.changeEntropy = entropy := hall c (List.mem_cons_of_mem _ List.mem_cons_self)
    exact SameEntropies.foldl changes (entropies_right_comm (hd.trans hc.symm) acc)
  | trans h₁ _ ih ih' =>
    intro hall acc
    have hleft := ih hall acc
    have hright := ih' (fun c hc => hall c (h₁.mem_iff.mpr hc)) acc
    exact ⟨hleft.1.trans hright.1, hleft.2.trans hright.2⟩

/-- Records of equal entropy give the same statistics in every order. -/
theorem finalize_perm [Zero F] {entropy : F} {changes changes' : List (ChangeRecord F)}
    (h : changes.Perm changes') (hall : ∀ c ∈ changes, c.changeEntropy = entropy) (sloc : ℕ)
    (now : ℤ) (options : FinalizeOptions) (cochangeLong cochangeRecent : F) :
    (collect sloc changes).finalize ops emitHashed now options cochangeLong cochangeRecent =
      (collect sloc changes').finalize ops emitHashed now options cochangeLong
        cochangeRecent := by
  obtain ⟨hlong, hrecent⟩ := entropies_perm h hall (new sloc)
  exact finalize_congr ops emitHashed (foldl_perm h _) hlong hrecent now options _ _

end Accumulator

end BigCodeAnalysis.Vcs
