import BigCodeAnalysis.Sequences.Greedy
import BigCodeAnalysis.Vcs.BusFactor
import Mathlib.Algebra.Order.BigOperators.Group.List
import Mathlib.Data.List.Induction

/-! The removal loop is the greedy selection of owners. The abstract selection speaks of the
owners of every file alone, so it does not depend on the order anything is listed in. -/

namespace BigCodeAnalysis.Vcs

open Sequences Numbers

/-! ### Owners and orphans -/

/-- The files all of whose owners have left. -/
def orphans (owners : List (List String)) (removed : List String) : ℕ :=
  owners.countP fun o => o ≠ [] ∧ ∀ a ∈ o, a ∈ removed

/-- The files of one owner that still have an owner. -/
def covers (owners : List (List String)) (removed : List String) (a : String) : ℕ :=
  (owners.map fun o => if ∃ b ∈ o, b ∉ removed then o.count a else 0).sum

/-- The owner who leaves next: the most files, and the smaller id among equals. -/
def IsTop (owners : List (List String)) (removed : List String) (a : String) : Prop :=
  a ∉ removed ∧ 0 < covers owners removed a ∧
    ∀ b ∉ removed, covers owners removed b ≤ covers owners removed a ∧
      (covers owners removed b = covers owners removed a → a ≤ b)

theorem IsTop.unique {owners : List (List String)} (removed : List String) (a b : String)
    (ha : IsTop owners removed a) (hb : IsTop owners removed b) : a = b := by
  have hcovers : covers owners removed b = covers owners removed a :=
    le_antisymm (ha.2.2 b hb.1).1 (hb.2.2 a ha.1).1
  exact le_antisymm ((ha.2.2 b hb.1).2 hcovers) ((hb.2.2 a ha.1).2 hcovers.symm)

/-- More files are orphaned than the target allows. -/
def Enough (owners : List (List String)) (target : ℚ) (removed : List String) : Prop :=
  target < binary64 (orphans owners removed)

theorem mem_of_covers_pos {owners : List (List String)} {removed : List String} {a : String}
    (h : 0 < covers owners removed a) : ∃ o ∈ owners, a ∈ o := by
  by_contra hno
  push Not at hno
  have hzero : covers owners removed a = 0 := by
    apply List.sum_eq_zero
    intro n hn
    obtain ⟨o, ho, rfl⟩ := List.mem_map.mp hn
    rw [List.count_eq_zero_of_not_mem (hno o ho)]
    exact ite_self 0
  omega

/-! ### The files of an owner, one by one -/

/-- The files of an owner, as often as it owns them. -/
def occurrences (owners : List (List String)) (a : String) (start : ℕ) : List ℕ :=
  (owners.zipIdx start).flatMap fun o => List.replicate (o.1.count a) o.2

theorem length_filter_occurrences (owners : List (List String)) (a : String) (g : List String → ℕ) :
    ∀ (start : ℕ) (remaining : List ℕ), (∀ i, remaining.getD (start + i) 0 =
        ((owners[i]?).map g).getD 0) →
      ((occurrences owners a start).filter fun f => 0 < remaining.getD f 0).length =
        (owners.map fun o => if 0 < g o then o.count a else 0).sum := by
  induction owners with
  | nil => intro start remaining _; rfl
  | cons o owners ih =>
    intro start remaining h
    have hhead : remaining.getD start 0 = g o := h 0
    have htail := ih (start + 1) remaining fun i => by
      rw [Nat.add_assoc, Nat.add_comm 1 i]
      exact h (i + 1)
    have hcons : occurrences (o :: owners) a start =
        List.replicate (o.count a) start ++ occurrences owners a (start + 1) := rfl
    rw [hcons, List.filter_append, List.length_append, htail, List.map_cons, List.sum_cons,
      List.filter_replicate, hhead]
    congr 1
    by_cases hpos : 0 < g o <;> simp [hpos]

theorem foldl_orphanFile_replicate (before after : List ℕ) (m : ℕ) : ∀ (count orphaned : ℕ),
    m ≤ count →
    (List.replicate m before.length).foldl orphanFile (orphaned, before ++ count :: after) =
      (orphaned + if 0 < m ∧ m = count then 1 else 0, before ++ (count - m) :: after) := by
  induction m with
  | zero => intro count orphaned _; simp
  | succ m ih =>
    intro count orphaned hle
    obtain ⟨count, rfl⟩ : ∃ c, count = c + 1 := ⟨count - 1, by omega⟩
    have hstep : orphanFile (orphaned, before ++ (count + 1) :: after) before.length =
        (if count = 0 then orphaned + 1 else orphaned, before ++ count :: after) := by
      simp [orphanFile]
    rw [List.replicate_succ, List.foldl_cons, hstep, ih count _ (by omega)]
    congr 1
    · by_cases hcount : count = 0
      · obtain rfl : m = 0 := by omega
        simp [hcount]
      · by_cases hm : 0 < m ∧ m = count
        · simp [hcount, hm.2]
        · have hne : ¬ m = count := by omega
          simp [hcount, hne]
    · congr 2
      omega

/-- The owners of a file that have not left. -/
def left (removed o : List String) : ℕ := o.countP fun a => a ∉ removed

theorem left_pos {removed o : List String} : 0 < left removed o ↔ ∃ b ∈ o, b ∉ removed := by
  simp [left, List.countP_pos_iff]

theorem left_append {removed o : List String} {a : String} (h : a ∉ removed) :
    left removed o = left (removed ++ [a]) o + o.count a := by
  induction o with
  | nil => rfl
  | cons b o ih =>
    simp only [left, List.countP_cons, List.count_cons] at ih ⊢
    by_cases hb : b = a
    · subst hb
      simp [h] at ih ⊢
      omega
    · by_cases hr : b ∈ removed <;> simp [hb, hr] at ih ⊢ <;> omega

theorem left_eq_zero {removed o : List String} : left removed o = 0 ↔ ∀ b ∈ o, b ∈ removed := by
  simp [left, List.countP_eq_zero]

/-- Owner `a` leaves: every file loses it, and those it held alone are orphaned. -/
theorem foldl_orphanFile {removed : List String} {a : String} (h : a ∉ removed)
    (owners : List (List String)) : ∀ (before : List ℕ) (orphaned : ℕ),
    (occurrences owners a before.length).foldl orphanFile
        (orphaned, before ++ owners.map (left removed)) =
      (orphaned + owners.countP fun o => a ∈ o ∧ ∀ b ∈ o, b ∈ removed ++ [a],
        before ++ owners.map (left (removed ++ [a]))) := by
  induction owners with
  | nil => intro before orphaned; rfl
  | cons o owners ih =>
    intro before orphaned
    have hleft := left_append (o := o) h
    have hcons : occurrences (o :: owners) a before.length =
        List.replicate (o.count a) before.length ++
          occurrences owners a (before ++ [left (removed ++ [a]) o]).length := by
      rw [List.length_append]
      rfl
    rw [hcons, List.foldl_append, List.map_cons,
      foldl_orphanFile_replicate before _ _ _ _ (by omega)]
    have hsub : left removed o - o.count a = left (removed ++ [a]) o := by omega
    have happend : before ++ left (removed ++ [a]) o :: owners.map (left removed) =
        (before ++ [left (removed ++ [a]) o]) ++ owners.map (left removed) := by simp
    rw [hsub, happend, ih]
    have hiff : (0 < o.count a ∧ o.count a = left removed o) ↔
        (a ∈ o ∧ ∀ b ∈ o, b ∈ removed ++ [a]) := by
      rw [List.count_pos_iff, ← left_eq_zero]
      exact and_congr_right fun _ => by omega
    rw [List.countP_cons, List.map_cons]
    congr 1
    · by_cases hc : a ∈ o ∧ ∀ b ∈ o, b ∈ removed ++ [a]
      · rw [if_pos (hiff.mpr hc), if_pos (decide_eq_true hc)]
        omega
      · rw [if_neg (mt hiff.mp hc), if_neg (mt of_decide_eq_true hc)]
        omega
    · simp

theorem orphans_append {removed : List String} {a : String} (h : a ∉ removed)
    (owners : List (List String)) :
    orphans owners (removed ++ [a]) = orphans owners removed +
      owners.countP fun o => a ∈ o ∧ ∀ b ∈ o, b ∈ removed ++ [a] := by
  induction owners with
  | nil => rfl
  | cons o owners ih =>
    have hsplit : (o ≠ [] ∧ ∀ b ∈ o, b ∈ removed ++ [a]) ↔
        (o ≠ [] ∧ ∀ b ∈ o, b ∈ removed) ∨ (a ∈ o ∧ ∀ b ∈ o, b ∈ removed ++ [a]) := by
      constructor
      · rintro ⟨hne, hall⟩
        by_cases ha : a ∈ o
        · exact .inr ⟨ha, hall⟩
        · refine .inl ⟨hne, fun b hb => ?_⟩
          rcases List.mem_append.mp (hall b hb) with hr | hr
          · exact hr
          · exact absurd (List.mem_singleton.mp hr ▸ hb) ha
      · rintro (⟨hne, hall⟩ | ⟨ha, hall⟩)
        · exact ⟨hne, fun b hb => List.mem_append_left _ (hall b hb)⟩
        · exact ⟨List.ne_nil_of_mem ha, hall⟩
    have hdisjoint : ¬ ((o ≠ [] ∧ ∀ b ∈ o, b ∈ removed) ∧
        (a ∈ o ∧ ∀ b ∈ o, b ∈ removed ++ [a])) := by
      rintro ⟨⟨-, hall⟩, ha, -⟩
      exact h (hall a ha)
    simp only [orphans] at ih ⊢
    rw [List.countP_cons, List.countP_cons, List.countP_cons, ih]
    by_cases h₁ : o ≠ [] ∧ ∀ b ∈ o, b ∈ removed
    · have h₂ : ¬ (a ∈ o ∧ ∀ b ∈ o, b ∈ removed ++ [a]) := fun h₂ => hdisjoint ⟨h₁, h₂⟩
      have h₃ := hsplit.mpr (.inl h₁)
      rw [if_pos (decide_eq_true h₃), if_pos (decide_eq_true h₁), if_neg (mt of_decide_eq_true h₂)]
      omega
    · by_cases h₂ : a ∈ o ∧ ∀ b ∈ o, b ∈ removed ++ [a]
      · have h₃ := hsplit.mpr (.inr h₂)
        rw [if_pos (decide_eq_true h₃), if_neg (mt of_decide_eq_true h₁),
          if_pos (decide_eq_true h₂)]
        omega
      · have h₃ := mt hsplit.mp (not_or.mpr ⟨h₁, h₂⟩)
        rw [if_neg (mt of_decide_eq_true h₃), if_neg (mt of_decide_eq_true h₁),
          if_neg (mt of_decide_eq_true h₂)]
        omega

/-! ### The developers of a group -/

/-- Every owner is listed once, with its files. -/
structure Registered (authors : List GroupAuthor) (owners : List (List String)) : Prop where
  nodup : (authors.map (·.hashed)).Nodup
  files : ∀ a ∈ authors, a.authoredFiles = occurrences owners a.hashed 0
  known : ∀ h, h ∈ authors.map (·.hashed) ↔ ∃ o ∈ owners, h ∈ o

theorem coveredBy_eq {authors : List GroupAuthor} {owners : List (List String)}
    (hreg : Registered authors owners) (removed : List String) {a : GroupAuthor}
    (ha : a ∈ authors) :
    coveredBy a (owners.map (left removed)) = covers owners removed a.hashed := by
  have hlength := length_filter_occurrences owners a.hashed (left removed) 0
    (owners.map (left removed)) fun i => by
      rw [Nat.zero_add, List.getD_eq_getElem?_getD, List.getElem?_map]
  rw [coveredBy, hreg.files a ha, hlength, covers]
  congr 1
  apply List.map_congr_left
  intro o _
  exact if_congr left_pos rfl rfl

theorem covers_pos {owners : List (List String)} {removed o : List String} {a : String}
    (ho : o ∈ owners) (ha : a ∈ o) (hleft : a ∉ removed) : 0 < covers owners removed a := by
  have hmem : o.count a ∈ owners.map fun o => if ∃ b ∈ o, b ∉ removed then o.count a else 0 :=
    List.mem_map.mpr ⟨o, ho, if_pos ⟨a, ha, hleft⟩⟩
  have hpos : 0 < o.count a := List.count_pos_iff.mpr ha
  exact hpos.trans_le (List.single_le_sum (fun _ _ => Nat.zero_le _) _ hmem)

section Pick
variable (authors : List GroupAuthor) (owners : List (List String)) (removed : List String)

/-- What the search knows after the developers of `seen`. -/
def Best (seen : List GroupAuthor) : Option (ℕ × ℕ) → Prop
  | none => ∀ b ∈ seen, b.hashed ∉ removed → covers owners removed b.hashed = 0
  | some (covered, idx) =>
    hashedAt authors idx ∉ removed ∧ (∃ a, authors[idx]? = some a) ∧
      covered = covers owners removed (hashedAt authors idx) ∧ 0 < covered ∧
      ∀ b ∈ seen, b.hashed ∉ removed → covers owners removed b.hashed ≤ covered ∧
        (covers owners removed b.hashed = covered → hashedAt authors idx ≤ b.hashed)

variable {authors owners}

theorem hashedAt_eq {idx : ℕ} {a : GroupAuthor} (h : authors[idx]? = some a) :
    hashedAt authors idx = a.hashed := by
  rw [hashedAt, h]
  rfl

theorem pickStep_best (hreg : Registered authors owners) {seen rest : List GroupAuthor}
    {a : GroupAuthor} (hsplit : authors = seen ++ a :: rest) {best : Option (ℕ × ℕ)}
    (h : Best authors owners removed seen best) :
    Best authors owners removed (seen ++ [a])
      (pickStep authors (authors.map fun a => decide (a.hashed ∈ removed))
        (owners.map (left removed)) best (a, seen.length)) := by
  have hat : authors[seen.length]? = some a := by simp [hsplit]
  have hhashed := hashedAt_eq hat
  have hmem : a ∈ authors := List.mem_of_getElem? hat
  have hremoved : (authors.map fun a => decide (a.hashed ∈ removed)).getD seen.length false =
      decide (a.hashed ∈ removed) := by
    rw [List.getD_eq_getElem?_getD, List.getElem?_map, hat]
    rfl
  have hcover := coveredBy_eq hreg removed hmem
  simp only [pickStep, hremoved, hcover]
  by_cases hgone : a.hashed ∈ removed
  · -- a developer who has left is passed over
    rw [if_pos (decide_eq_true hgone)]
    have hseen : ∀ P : GroupAuthor → Prop, (∀ b ∈ seen, b.hashed ∉ removed → P b) →
        ∀ b ∈ seen ++ [a], b.hashed ∉ removed → P b := by
      intro P hP b hb hleft
      rcases List.mem_append.mp hb with hb | hb
      · exact hP b hb hleft
      · exact absurd (List.mem_singleton.mp hb ▸ hgone) hleft
    rcases best with _ | ⟨covered, idx⟩
    · exact hseen _ h
    · obtain ⟨h₁, h₂, h₃, h₄, h₅⟩ := h
      exact ⟨h₁, h₂, h₃, h₄, hseen _ h₅⟩
  · rw [if_neg (by simpa using hgone)]
    have hsnoc : ∀ P : GroupAuthor → Prop, (∀ b ∈ seen, b.hashed ∉ removed → P b) → P a →
        ∀ b ∈ seen ++ [a], b.hashed ∉ removed → P b := by
      intro P hP ha b hb hleft
      rcases List.mem_append.mp hb with hb | hb
      · exact hP b hb hleft
      · exact List.mem_singleton.mp hb ▸ ha
    by_cases hzero : covers owners removed a.hashed = 0
    · rw [if_pos hzero]
      rcases best with _ | ⟨covered, idx⟩
      · exact hsnoc _ h hzero
      · obtain ⟨h₁, h₂, h₃, h₄, h₅⟩ := h
        exact ⟨h₁, h₂, h₃, h₄, hsnoc _ h₅ ⟨by omega, by omega⟩⟩
    · rw [if_neg hzero]
      have htake : (∀ b ∈ seen, b.hashed ∉ removed →
          covers owners removed b.hashed ≤ covers owners removed a.hashed ∧
            (covers owners removed b.hashed = covers owners removed a.hashed →
              a.hashed ≤ b.hashed)) →
          Best authors owners removed (seen ++ [a])
            (some (covers owners removed a.hashed, seen.length)) := by
        intro hall
        refine ⟨hhashed ▸ hgone, ⟨a, hat⟩, by rw [hhashed], by omega, ?_⟩
        rw [hhashed]
        exact hsnoc _ hall ⟨le_rfl, fun _ => le_rfl⟩
      rcases best with _ | ⟨covered, idx⟩
      · apply htake
        intro b hb hleft
        have hb := h b hb hleft
        exact ⟨by omega, fun heq => by omega⟩
      · obtain ⟨h₁, h₂, h₃, h₄, h₅⟩ := h
        simp only [hhashed]
        by_cases hbetter : covered < covers owners removed a.hashed ∨
            covers owners removed a.hashed = covered ∧ a.hashed < hashedAt authors idx
        · rw [if_pos hbetter]
          apply htake
          intro b hb hleft
          have hb := h₅ b hb hleft
          rcases hbetter with hlt | ⟨heq, hlt⟩
          · exact ⟨by omega, fun heq => by omega⟩
          · exact ⟨by omega, fun hb' => hlt.le.trans (hb.2 (by omega))⟩
        · rw [if_neg hbetter]
          push Not at hbetter
          exact ⟨h₁, h₂, h₃, h₄, hsnoc _ h₅ ⟨hbetter.1, fun heq => hbetter.2 heq⟩⟩

theorem foldl_pickStep_best (hreg : Registered authors owners) (seen : List GroupAuthor) :
    ∀ rest, authors = seen ++ rest →
      Best authors owners removed seen
        (seen.zipIdx.foldl (pickStep authors (authors.map fun a => decide (a.hashed ∈ removed))
          (owners.map (left removed))) none) := by
  induction seen using List.reverseRecOn with
  | nil =>
    intro rest _ b hb
    simp at hb
  | append_singleton seen a ih =>
    intro rest hsplit
    rw [List.append_assoc] at hsplit
    have h := pickStep_best removed hreg hsplit (ih _ hsplit)
    rw [List.zipIdx_append, List.foldl_append]
    simpa using h

/-- The search finds the top developer, and finds none when none is left. -/
theorem pickTopAuthor_spec (hreg : Registered authors owners) :
    (∃ idx a, pickTopAuthor authors (authors.map fun a => decide (a.hashed ∈ removed))
        (owners.map (left removed)) = some idx ∧ authors[idx]? = some a ∧
        IsTop owners removed a.hashed) ∨
      (pickTopAuthor authors (authors.map fun a => decide (a.hashed ∈ removed))
        (owners.map (left removed)) = none ∧ ∀ o ∈ owners, ∀ a ∈ o, a ∈ removed) := by
  have h := foldl_pickStep_best removed hreg authors [] (by simp)
  unfold pickTopAuthor
  generalize authors.zipIdx.foldl (pickStep authors
    (authors.map fun a => decide (a.hashed ∈ removed)) (owners.map (left removed))) none = best
    at h ⊢
  rcases best with _ | ⟨covered, idx⟩
  · refine .inr ⟨rfl, fun o ho a ha => ?_⟩
    by_contra hleft
    obtain ⟨b, hb, rfl⟩ := List.mem_map.mp ((hreg.known a).mpr ⟨o, ho, ha⟩)
    have hpos := covers_pos ho ha hleft
    have hzero := h b hb hleft
    omega
  · obtain ⟨hleft, ⟨a, hat⟩, hcover, hpos, hall⟩ := h
    rw [hashedAt_eq hat] at hleft hcover hall
    refine .inl ⟨idx, a, rfl, hat, hleft, by omega, ?_⟩
    intro b hb
    by_cases howner : ∃ o ∈ owners, b ∈ o
    · obtain ⟨c, hc, rfl⟩ := List.mem_map.mp ((hreg.known b).mpr howner)
      rw [← hcover]
      exact hall c hc hb
    · have hzero : ¬ 0 < covers owners removed b := mt mem_of_covers_pos howner
      exact ⟨by omega, fun heq => by omega⟩

end Pick

/-! ### The loop -/

section Loop
variable (authors : List GroupAuthor) (owners : List (List String)) (digest : String → String)
  (emit : Bool)

/-- The state of the loop once `removed` have left, in this order. -/
structure Linked (s : Removal) (removed : List String) : Prop where
  orphaned : s.orphaned = orphans owners removed
  count : s.removed = min removed.length u32Max
  removedSet : s.removedSet = authors.map fun a => decide (a.hashed ∈ removed)
  keyAuthors : s.keyAuthors = if emit then some (removed.map digest) else none
  remaining : s.remainingAuthors = owners.map (left removed)
  nodup : removed.Nodup
  known : removed ⊆ authors.map (·.hashed)

variable {authors owners digest emit}

theorem set_removedSet (hnodup : (authors.map (·.hashed)).Nodup) (removed : List String) {idx : ℕ}
    {a : GroupAuthor} (hat : authors[idx]? = some a) :
    (authors.map fun b => decide (b.hashed ∈ removed)).set idx true =
      authors.map fun b => decide (b.hashed ∈ removed ++ [a.hashed]) := by
  apply List.ext_getElem?
  intro i
  rw [List.getElem?_set, List.getElem?_map, List.getElem?_map, List.length_map]
  by_cases hi : idx = i
  · subst hi
    have hlt : idx < authors.length := (List.getElem?_eq_some_iff.mp hat).1
    have ha : authors[idx] = a := (List.getElem?_eq_some_iff.mp hat).2
    simp [hlt, ha]
  · rw [if_neg hi]
    rcases hb : authors[i]? with _ | b
    · rfl
    · have hne : b.hashed ≠ a.hashed := by
        intro heq
        apply hi
        have hlt : idx < (authors.map (·.hashed)).length := by
          rw [List.length_map]
          exact (List.getElem?_eq_some_iff.mp hat).1
        apply (List.getElem?_inj hlt hnodup).mp
        rw [List.getElem?_map, List.getElem?_map, hat, hb, Option.map_some, Option.map_some, heq]
      simp [hne]

/-- The developer at the top leaves. -/
theorem Linked.removeAuthor (hreg : Registered authors owners) {s : Removal}
    {removed : List String} (h : Linked authors owners digest emit s removed) {idx : ℕ}
    {a : GroupAuthor} (hat : authors[idx]? = some a) (hleft : a.hashed ∉ removed) :
    Linked authors owners digest emit (Vcs.removeAuthor authors digest s idx)
      (removed ++ [a.hashed]) := by
  have hmem : a ∈ authors := List.mem_of_getElem? hat
  have hfiles : ((authors[idx]?.map (·.authoredFiles)).getD []).foldl orphanFile
      (s.orphaned, s.remainingAuthors) =
        (orphans owners (removed ++ [a.hashed]), owners.map (left (removed ++ [a.hashed]))) := by
    have hfold := foldl_orphanFile hleft owners [] s.orphaned
    rw [List.nil_append, List.nil_append, List.length_nil] at hfold
    rw [hat, h.remaining, Option.map_some, Option.getD_some, hreg.files a hmem, hfold,
      h.orphaned, ← orphans_append hleft]
  constructor
  · exact congrArg Prod.fst hfiles
  · show saturatingAdd s.removed 1 = _
    rw [saturatingAdd, h.count, List.length_append, List.length_singleton]
    omega
  · show s.removedSet.set idx true = _
    rw [h.removedSet]
    exact set_removedSet hreg.nodup removed hat
  · show s.keyAuthors.map _ = _
    rw [h.keyAuthors, hashedAt_eq hat]
    cases emit <;> simp
  · exact congrArg Prod.snd hfiles
  · exact List.Nodup.append h.nodup (List.nodup_singleton _) (by simpa using hleft)
  · intro b hb
    rcases List.mem_append.mp hb with hb | hb
    · exact h.known hb
    · obtain rfl := List.mem_singleton.mp hb
      exact List.mem_map.mpr ⟨a, hmem, rfl⟩

/-- The loop selects greedily, and a turn for every developer is enough. -/
theorem removalLoop_greedy (hreg : Registered authors owners) (target : ℚ) (turns : ℕ) :
    ∀ (s : Removal) (removed : List String), Linked authors owners digest emit s removed →
      authors.length ≤ turns + removed.length →
      ∃ more, Greedy (Enough owners target) (IsTop owners) removed more ∧
        Linked authors owners digest emit (removalLoop authors digest target turns s)
          (removed ++ more) := by
  induction turns with
  | zero =>
    intro s removed h hlength
    refine ⟨[], .stop (.inr fun a htop => htop.1 ?_), by simpa [removalLoop] using h⟩
    -- every developer has left
    have hperm := (List.subperm_of_subset h.nodup h.known).perm_of_length_le (by simpa using hlength)
    exact hperm.mem_iff.mpr ((hreg.known a).mpr (mem_of_covers_pos htop.2.1))
  | succ turns ih =>
    intro s removed h hlength
    unfold removalLoop
    by_cases hmore : binary64 s.orphaned ≤ target
    · have hnot : ¬ Enough owners target removed := by
        rw [Enough, ← h.orphaned]
        exact not_lt.mpr hmore
      rw [if_pos hmore, h.removedSet, h.remaining]
      rcases pickTopAuthor_spec removed hreg with ⟨idx, a, hpick, hat, htop⟩ | ⟨hpick, hall⟩
      · rw [hpick]
        obtain ⟨more, hgreedy, hlinked⟩ := ih _ _ (h.removeAuthor hreg hat htop.1) (by
          rw [List.length_append, List.length_singleton]
          omega)
        rw [List.append_assoc] at hlinked
        exact ⟨a.hashed :: more, .take hnot htop hgreedy, hlinked⟩
      · rw [hpick]
        refine ⟨[], .stop (.inr fun a htop => ?_), by simpa using h⟩
        obtain ⟨o, ho, ha⟩ := mem_of_covers_pos htop.2.1
        exact htop.1 (hall o ho a ha)
    · rw [if_neg hmore]
      refine ⟨[], .stop (.inl ?_), by simpa using h⟩
      rw [Enough, ← h.orphaned]
      exact not_le.mp hmore

theorem orphans_nil (owners : List (List String)) : orphans owners [] = 0 := by
  rw [orphans, List.countP_eq_zero]
  intro o _ hmem
  obtain ⟨hne, hall⟩ := of_decide_eq_true hmem
  obtain ⟨a, o, rfl⟩ := List.exists_cons_of_ne_nil hne
  exact absurd (hall a (List.mem_cons_self ..)) List.not_mem_nil

theorem left_nil (o : List String) : left [] o = o.length := by simp [left]

/-- The whole selection, from nobody removed. -/
theorem greedyTruckFactor_greedy (hreg : Registered authors owners) (coverage : ℚ) :
    ∃ removed, Greedy (Enough owners (removalTarget coverage owners.length)) (IsTop owners) []
        removed ∧
      Linked authors owners digest emit
        (greedyTruckFactor authors (owners.map List.length) coverage emit digest) removed := by
  have hstart : Linked authors owners digest emit
      { orphaned := 0
        removed := 0
        removedSet := List.replicate authors.length false
        keyAuthors := if emit then some [] else none
        remainingAuthors := owners.map List.length } [] := by
    constructor
    · exact (orphans_nil owners).symm
    · rfl
    · simp
    · rfl
    · exact List.map_congr_left fun o _ => (left_nil o).symm
    · exact List.nodup_nil
    · exact List.nil_subset _
  obtain ⟨removed, hgreedy, hlinked⟩ := removalLoop_greedy hreg
    (removalTarget coverage owners.length) authors.length _ [] hstart (by simp)
  refine ⟨removed, hgreedy, ?_⟩
  rw [greedyTruckFactor, List.length_map]
  exact hlinked

end Loop

end BigCodeAnalysis.Vcs
