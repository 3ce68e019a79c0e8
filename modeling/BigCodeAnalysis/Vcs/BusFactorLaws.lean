import BigCodeAnalysis.Sequences.Reordered
import BigCodeAnalysis.Vcs.BusFactorRegistry
import Mathlib

/-! The laws of the bus factor. The report does not depend on the order of files and
contributions: owners, orphans and the greedy selection are read off multisets, and the selection
has one outcome. Every group of the report, the repository and each directory, counts the
developers of one run of the removal over the group's files: the run takes the top developer again
and again, leaves exactly the owners it did not take, ends with more files orphaned than the
coverage allows or with nobody left, and is an initial part of the run for a larger coverage. -/

namespace BigCodeAnalysis.Vcs

open Sequences Baseline Numbers
open scoped List

/-! ### The selection -/

section Selection
variable {owners owners' : List (List String)}

theorem orphans_reordered (h : Reordered List.Perm owners owners') (removed : List String) :
    orphans owners removed = orphans owners' removed := by
  apply h.countP_eq
  intro o o' hperm
  have hnil : o = [] ↔ o' = [] := by
    rw [← List.length_eq_zero_iff, hperm.length_eq, List.length_eq_zero_iff]
  have hall : (∀ a ∈ o, a ∈ removed) ↔ ∀ a ∈ o', a ∈ removed :=
    forall_congr' fun a => imp_congr_left hperm.mem_iff
  exact decide_eq_decide.mpr (and_congr (not_congr hnil) hall)

theorem covers_reordered (h : Reordered List.Perm owners owners') (removed : List String)
    (a : String) : covers owners removed a = covers owners' removed a := by
  apply h.sum_eq
  intro o o' hperm
  have hany : (∃ b ∈ o, b ∉ removed) ↔ ∃ b ∈ o', b ∉ removed :=
    exists_congr fun b => and_congr_left fun _ => hperm.mem_iff
  rw [if_congr hany rfl rfl, hperm.count_eq]

theorem greedy_reordered (h : Reordered List.Perm owners owners') {target : ℚ}
    {removed : List String} (hgreedy : Greedy (Enough owners target) (IsTop owners) [] removed) :
    Greedy (Enough owners' target) (IsTop owners') [] removed := by
  apply hgreedy.congr
  · intro taken
    rw [Enough, Enough, orphans_reordered h]
  · intro taken a
    simp only [IsTop, covers_reordered h]

end Selection

/-! ### The group -/

section Group
variable {sha256Hex : String → String}

theorem hashedOwners_reordered {files files' : List (List AuthorId)}
    (h : Reordered List.Perm files files') :
    Reordered List.Perm (hashedOwners sha256Hex files) (hashedOwners sha256Hex files') :=
  h.map fun _ _ hperm => hperm.map _

theorem owns_reordered {files files' : List (List AuthorId)} (h : Reordered List.Perm files files')
    (a : AuthorId) : Owns files a ↔ Owns files' a := by
  have hflat := (h.perm_flatMap (f := id) (g := id) fun _ _ hperm => hperm).mem_iff (a := a)
  simpa [Owns, List.mem_flatMap] using hflat

theorem groupBusFactor_reordered {files files' : List (List AuthorId)}
    (hinj : Set.InjOn (·.hashed sha256Hex) {a | Owns files a})
    (h : Reordered List.Perm files files') (coverage : ℚ) (emit : Bool)
    (digest : String → String) :
    groupBusFactor sha256Hex files coverage emit digest =
      groupBusFactor sha256Hex files' coverage emit digest := by
  have hlength := h.length_eq
  by_cases hnil : files = []
  · obtain rfl : files' = [] := List.length_eq_zero_iff.mp (by rw [← hlength, hnil, List.length_nil])
    rw [hnil]
  have hnil' : files' ≠ [] := by
    rintro rfl
    exact hnil (List.length_eq_zero_iff.mp hlength)
  have hset : {a | Owns files a} = {a | Owns files' a} := Set.ext (owns_reordered h)
  obtain ⟨keys, hnodup, hmem, hkeys, hreg⟩ := registry_registered hinj
  obtain ⟨keys', hnodup', hmem', hkeys', hreg'⟩ := registry_registered (hset ▸ hinj)
  -- the same developers
  have hperm : keys.Perm keys' := (List.perm_ext_iff_of_nodup hnodup hnodup').mpr fun a =>
    (hmem a).trans ((owns_reordered h a).trans (hmem' a).symm)
  have hauthors : (registry sha256Hex files).authors.length =
      (registry sha256Hex files').authors.length := by
    have hleft := congrArg List.length hkeys
    have hright := congrArg List.length hkeys'
    simp only [List.length_map] at hleft hright
    rw [hleft, hright, hperm.length_eq]
  -- who leave in the same order
  obtain ⟨removed, hgreedy, hlinked⟩ :=
    @greedyTruckFactor_greedy _ _ digest emit hreg coverage
  obtain ⟨removed', hgreedy', hlinked'⟩ :=
    @greedyTruckFactor_greedy _ _ digest emit hreg' coverage
  have howners : (hashedOwners sha256Hex files).length = (hashedOwners sha256Hex files').length := by
    simpa [hashedOwners] using hlength
  rw [howners] at hgreedy
  obtain rfl := (greedy_reordered (hashedOwners_reordered h) hgreedy).unique IsTop.unique hgreedy'
  have hcounts : ∀ files : List (List AuthorId),
      (hashedOwners sha256Hex files).map List.length = files.map List.length := by
    intro files
    simp [hashedOwners]
  rw [groupBusFactor, groupBusFactor, if_neg hnil, if_neg hnil']
  simp only [registry_remaining]
  rw [← hcounts files, ← hcounts files', hlinked.count, hlinked'.count, hlinked.keyAuthors,
    hlinked'.keyAuthors, hauthors, hlength]

end Group

/-! ### The owners of a file -/

section Owners
variable (sha256Hex : String → String) (ln : ℚ → ℚ)

theorem saturatingAdd_right_comm (a b c : ℕ) :
    saturatingAdd (saturatingAdd a b) c = saturatingAdd (saturatingAdd a c) b := by
  unfold saturatingAdd
  omega

theorem totalDeliveries_perm {cs cs' : List AuthorContribution} (h : cs.Perm cs') :
    totalDeliveries cs = totalDeliveries cs' :=
  (h.map _).foldl_eq' (fun _ _ _ _ _ => saturatingAdd_right_comm ..) 0

theorem scored_perm {cs cs' : List AuthorContribution} (h : cs.Perm cs') :
    (scored ln cs).Perm (scored ln cs') := by
  rw [scored, scored, totalDeliveries_perm h]
  exact h.map _

theorem maxDoa_perm {cs cs' : List AuthorContribution} (h : cs.Perm cs') :
    maxDoa ln cs = maxDoa ln cs' :=
  ((scored_perm ln h).map _).foldl_eq' (fun _ _ _ _ _ => max_right_comm ..) _

theorem cmpScored_ne_gt {a b : ℚ × AuthorId} : cmpScored sha256Hex a b ≠ .gt ↔
    b.1 < a.1 ∨ b.1 = a.1 ∧ a.2.hashed sha256Hex ≤ b.2.hashed sha256Hex := by
  rcases lt_trichotomy b.1 a.1 with hlt | heq | hgt
  · have hcmp : cmp b.1 a.1 = .lt := (cmp_eq_lt_iff ..).mpr hlt
    have hscored : cmpScored sha256Hex a b = .lt := by
      rw [cmpScored, hcmp]
      rfl
    rw [hscored]
    exact iff_of_true nofun (.inl hlt)
  · have hsnd : cmp (a.2.hashed sha256Hex) (b.2.hashed sha256Hex) ≠ .gt ↔
        a.2.hashed sha256Hex ≤ b.2.hashed sha256Hex := by
      rw [ne_eq, cmp_eq_gt_iff, not_lt]
    have hscored : cmpScored sha256Hex a b =
        cmp (a.2.hashed sha256Hex) (b.2.hashed sha256Hex) := by
      rw [cmpScored, heq, cmp_self_eq_eq]
      rfl
    rw [hscored, hsnd]
    simp [heq]
  · have hcmp : cmp b.1 a.1 = .gt := (cmp_eq_gt_iff ..).mpr hgt
    have hscored : cmpScored sha256Hex a b = .gt := by
      rw [cmpScored, hcmp]
      rfl
    rw [hscored]
    refine iff_of_false (fun h => h rfl) ?_
    rintro (h | ⟨h, -⟩)
    · exact absurd h hgt.not_gt
    · exact absurd h hgt.ne'

theorem minBy_scored (a : ℚ × AuthorId) (as : List (ℚ × AuthorId)) :
    ∃ m ∈ a :: as, minBy (cmpScored sha256Hex) (a :: as) = some m ∧
      ∀ x ∈ a :: as, cmpScored sha256Hex m x ≠ .gt := by
  apply minBy_spec
  · intro x y hgt
    have hnot := mt (cmpScored_ne_gt sha256Hex (a := x) (b := y)).mpr (not_not.mpr hgt)
    rw [not_or, not_and, not_lt] at hnot
    rw [cmpScored_ne_gt]
    rcases hnot.1.lt_or_eq with hlt | heq
    · exact .inl hlt
    · exact .inr ⟨heq, (not_le.mp (hnot.2 heq.symm)).le⟩
  · intro x y z hxy hyz
    rw [cmpScored_ne_gt] at hxy hyz ⊢
    rcases hxy with hxy | ⟨hxy, hle⟩
    · rcases hyz with hyz | ⟨hyz, -⟩
      · exact .inl (hyz.trans hxy)
      · exact .inl (hyz ▸ hxy)
    · rcases hyz with hyz | ⟨hyz, hle'⟩
      · exact .inl (hxy ▸ hyz)
      · exact .inr ⟨hyz.trans hxy, hle.trans hle'⟩
  · intro x
    rw [cmpScored_ne_gt]
    exact .inr ⟨rfl, le_rfl⟩

theorem authorsOfFile_perm {file file' : FileAuthorship}
    (hperm : file.contributions.Perm file'.contributions)
    (hinj : Set.InjOn (·.hashed sha256Hex) {a | ∃ c ∈ file.contributions, c.author = a}) :
    (authorsOfFile sha256Hex ln file).Perm (authorsOfFile sha256Hex ln file') := by
  have hscored := scored_perm ln hperm
  rw [authorsOfFile, authorsOfFile, ← maxDoa_perm ln hperm]
  by_cases hmax : maxDoa ln file.contributions ≤ 0
  · rw [if_pos hmax, if_pos hmax]
    -- the highest degree and, within it, the smallest digest belong to one id
    rcases hs : scored ln file.contributions with _ | ⟨a, as⟩
    · rw [hs] at hscored
      rw [List.nil_perm.mp hscored]
    · rcases hs' : scored ln file'.contributions with _ | ⟨b, bs⟩
      · rw [hs, hs'] at hscored
        exact absurd (List.perm_nil.mp hscored) (List.cons_ne_nil _ _)
      · obtain ⟨m, hm, hmin, hle⟩ := minBy_scored sha256Hex a as
        obtain ⟨m', hm', hmin', hle'⟩ := minBy_scored sha256Hex b bs
        rw [hs, hs'] at hscored
        have hmm' := (cmpScored_ne_gt sha256Hex).mp (hle m' (hscored.mem_iff.mpr hm'))
        have hm'm := (cmpScored_ne_gt sha256Hex).mp (hle' m (hscored.mem_iff.mp hm))
        have hhashed : m.2.hashed sha256Hex = m'.2.hashed sha256Hex := by
          rcases hmm' with hlt | ⟨_, hle⟩
          · rcases hm'm with hlt' | ⟨heq, _⟩
            · exact absurd (hlt.trans hlt') (lt_irrefl _)
            · exact absurd heq hlt.ne'
          · rcases hm'm with hlt' | ⟨_, hle'⟩
            · rename_i heq
              exact absurd heq hlt'.ne'
            · exact le_antisymm hle hle'
        have hauthor : ∀ e ∈ scored ln file.contributions,
            ∃ c ∈ file.contributions, c.author = e.2 := by
          intro e he
          obtain ⟨c, hc, rfl⟩ := List.mem_map.mp he
          exact ⟨c, hc, rfl⟩
        have hid : m.2 = m'.2 := hinj (hauthor m (hs ▸ hm))
          (hauthor m' (hs ▸ hscored.mem_iff.mpr hm')) hhashed
        rw [hmin, hmin', Option.map_some, Option.map_some, hid]
  · rw [if_neg hmax, if_neg hmax]
    exact (hscored.filter _).map _

theorem foldl_max_mem (l : List ℚ) (m : ℚ) : l.foldl max m = m ∨ l.foldl max m ∈ l := by
  induction l generalizing m with
  | nil => exact .inl rfl
  | cons a l ih =>
    rcases ih (max m a) with h | h
    · rw [List.foldl_cons, h]
      rcases max_choice m a with hm | ha
      · exact .inl hm
      · rw [ha]
        exact .inr (List.mem_cons_self ..)
    · exact .inr (List.mem_cons_of_mem _ h)

/-- A file with any history has an owner. -/
theorem authorsOfFile_ne_nil {file : FileAuthorship} (h : file.contributions ≠ []) :
    authorsOfFile sha256Hex ln file ≠ [] := by
  have hne : scored ln file.contributions ≠ [] := by simpa [scored] using h
  obtain ⟨a, as, has⟩ := List.exists_cons_of_ne_nil hne
  rw [authorsOfFile]
  by_cases hmax : maxDoa ln file.contributions ≤ 0
  · rw [if_pos hmax, has]
    simp [minBy]
  · rw [if_neg hmax]
    -- whoever attains the maximum has the ratio one
    have hmem : maxDoa ln file.contributions ∈ (scored ln file.contributions).map Prod.fst := by
      rcases foldl_max_mem ((scored ln file.contributions).map Prod.fst) f64Min with hmin | hmem
      · have hpow : (2 : ℚ) ^ 971 ≤ 2 ^ 1024 := pow_le_pow_right₀ one_le_two (by omega)
        have hneg : f64Min ≤ 0 := neg_nonpos.mpr (sub_nonneg.mpr hpow)
        exact absurd (show maxDoa ln file.contributions ≤ 0 by rwa [maxDoa, hmin]) hmax
      · exact hmem
    obtain ⟨e, he, hdegree⟩ := List.mem_map.mp hmem
    have hratio : doaNormalizedThreshold ≤ binary64 (e.1 / maxDoa ln file.contributions) := by
      have hone : binary64 1 = 1 := mod_cast binary64_natCast (n := 1) (by norm_num)
      rw [hdegree, div_self (by linarith), hone]
      unfold doaNormalizedThreshold
      norm_num
    apply List.ne_nil_of_mem (a := e.2)
    exact List.mem_map.mpr ⟨e, List.mem_filter.mpr ⟨he, decide_eq_true hratio⟩, rfl⟩

end Owners

theorem mem_authorsOfFile {sha256Hex : String → String} {ln : ℚ → ℚ} {file : FileAuthorship}
    {a : AuthorId} (h : a ∈ authorsOfFile sha256Hex ln file) :
    ∃ c ∈ file.contributions, c.author = a := by
  have hscored : ∀ e ∈ scored ln file.contributions,
      ∃ c ∈ file.contributions, c.author = e.2 := by
    intro e he
    obtain ⟨c, hc, rfl⟩ := List.mem_map.mp he
    exact ⟨c, hc, rfl⟩
  rw [authorsOfFile] at h
  split_ifs at h
  · rcases hs : scored ln file.contributions with _ | ⟨b, bs⟩
    · simp [hs, minBy] at h
    · obtain ⟨m, hm, hmin, -⟩ := minBy_scored sha256Hex b bs
      rw [hs, hmin, Option.map_some, Option.getD_some, List.mem_singleton] at h
      exact h ▸ hscored m (hs ▸ hm)
  · obtain ⟨e, he, rfl⟩ := List.mem_map.mp h
    exact hscored e (List.mem_of_mem_filter he)

/-! ### The report -/

section Report
variable {sha256Hex : String → String}

/-- The same file with its contributions in another order. -/
def SameFile (f g : FileAuthorship) : Prop :=
  f.path = g.path ∧ f.contributions.Perm g.contributions

/-- The ids that contribute to some file. -/
def Contributes (authorship : List FileAuthorship) (a : AuthorId) : Prop :=
  ∃ f ∈ authorship, ∃ c ∈ f.contributions, c.author = a

theorem group_reordered {ln : ℚ → ℚ} {authorship files files' : List FileAuthorship}
    (hinj : Set.InjOn (·.hashed sha256Hex) {a | Contributes authorship a})
    (hsub : files ⊆ authorship) (h : Reordered SameFile files files') (coverage : ℚ) (emit : Bool)
    (digest : String → String) :
    groupBusFactor sha256Hex (files.map (authorsOfFile sha256Hex ln)) coverage emit digest =
      groupBusFactor sha256Hex (files'.map (authorsOfFile sha256Hex ln)) coverage emit digest := by
  have hcontributes : ∀ f ∈ files, ∀ a, (∃ c ∈ f.contributions, c.author = a) →
      Contributes authorship a := fun f hf a ha => ⟨f, hsub hf, ha⟩
  have howners : Reordered (fun f g => (authorsOfFile sha256Hex ln f).Perm
      (authorsOfFile sha256Hex ln g)) files files' := by
    apply h.mono
    intro f hf g hsame
    apply authorsOfFile_perm sha256Hex ln hsame.2
    exact hinj.mono fun a ha => hcontributes f hf a ha
  apply groupBusFactor_reordered _ (howners.map fun _ _ hperm => hperm)
  apply hinj.mono
  rintro a ⟨o, ho, ha⟩
  obtain ⟨f, hf, rfl⟩ := List.mem_map.mp ho
  exact hcontributes f hf a (mem_authorsOfFile ha)

theorem slashPath_injective {p q : PathBytes} {s : String} (hp : slashPath p = some s)
    (hq : slashPath q = some s) : p = q := by
  have hbytes : ∀ p, slashPath p = some s → s.toByteArray.data.toList = p := by
    intro p h
    rw [slashPath, String.fromUTF8?] at h
    split_ifs at h with hvalid
    cases h
    rfl
  rw [← hbytes p hp, hbytes q hq]

theorem sort_directories {l l' : List DirectoryBusFactor} (hperm : l.Perm l')
    (hunique : ∀ a ∈ l, ∀ b ∈ l, a.directory = b.directory → a = b) :
    l.insertionSort (fun a b => a.directory ≤ b.directory) =
      l'.insertionSort fun a b => a.directory ≤ b.directory := by
  have htotal : Std.Total fun a b : DirectoryBusFactor => a.directory ≤ b.directory :=
    ⟨fun a b => le_total a.directory b.directory⟩
  have htrans : IsTrans DirectoryBusFactor fun a b => a.directory ≤ b.directory :=
    ⟨fun _ _ _ => le_trans⟩
  have hsorted := (List.perm_insertionSort (fun a b : DirectoryBusFactor =>
    a.directory ≤ b.directory) l).trans (hperm.trans
      (List.perm_insertionSort (fun a b => a.directory ≤ b.directory) l').symm)
  apply hsorted.eq_of_pairwise _ (List.pairwise_insertionSort _ l)
    (List.pairwise_insertionSort _ l')
  intro a b ha hb hab hba
  rw [List.mem_insertionSort] at ha hb
  exact hunique a ha b (hperm.mem_iff.mpr hb) (le_antisymm hab hba)

theorem computeBusFactor_reordered {ln : ℚ → ℚ} {authorship authorship' : List FileAuthorship}
    (hinj : Set.InjOn (·.hashed sha256Hex) {a | Contributes authorship a})
    (h : Reordered SameFile authorship authorship') (coverageThreshold : Option ℚ) (emit : Bool)
    (key : Option (String → String)) :
    computeBusFactor sha256Hex ln authorship coverageThreshold emit key =
      computeBusFactor sha256Hex ln authorship' coverageThreshold emit key := by
  have hfiles : Reordered SameFile (contributed authorship) (contributed authorship') := by
    apply h.filter
    intro f g hsame
    have hnil : f.contributions = [] ↔ g.contributions = [] := by
      rw [← List.length_eq_zero_iff, hsame.2.length_eq, List.length_eq_zero_iff]
    exact decide_eq_decide.mpr (not_congr hnil)
  have hdirs := (hfiles.perm_flatMap (f := fun f => directoryKeys f.path)
    (g := fun f => directoryKeys f.path) fun f g hsame => by rw [hsame.1]).dedup
  have hsub : ∀ p : FileAuthorship → Bool, (contributed authorship).filter p ⊆ authorship :=
    fun p f hf => List.mem_of_mem_filter (List.mem_of_mem_filter hf)
  have hcontributed : contributed authorship ⊆ authorship := List.filter_subset_self _
  have hrepo := @group_reordered _ ln _ _ _ hinj hcontributed hfiles
  have hgroup := fun dir : PathBytes => @group_reordered _ ln _ _ _ hinj
    (hsub fun f => dir ∈ directoryKeys f.path)
    (hfiles.filter (q := fun f => dir ∈ directoryKeys f.path) fun f g hsame => by rw [hsame.1])
  unfold computeBusFactor
  simp only [hrepo, hgroup]
  congr 1
  apply sort_directories (hdirs.filterMap _)
  intro a ha b hb heq
  obtain ⟨p, -, hp⟩ := List.mem_filterMap.mp ha
  obtain ⟨q, -, hq⟩ := List.mem_filterMap.mp hb
  obtain ⟨d, hd, rfl⟩ := Option.map_eq_some_iff.mp hp
  obtain ⟨e, he, rfl⟩ := Option.map_eq_some_iff.mp hq
  obtain rfl : d = e := heq
  rw [slashPath_injective hd he]

end Report

/-! ### The run -/

section Run
variable (sha256Hex : String → String) (files : List (List AuthorId)) (coverage : ℚ) (emit : Bool)
  (digest : String → String)

/-- The removal of a group, from its registry. -/
def removalOf : Removal :=
  greedyTruckFactor (registry sha256Hex files).authors (registry sha256Hex files).remainingAuthors
    coverage emit digest

/-- The ids `removed` leave, in this order, and then the loop ends. The number of files is rounded
as the loop reads it, which changes nothing up to `2 ^ 53` files. -/
structure RemovalRun (removed : List AuthorId) : Prop where
  nodup : removed.Nodup
  owns : ∀ a ∈ removed, Owns files a
  greedy : Greedy (Enough (hashedOwners sha256Hex files) (removalTarget coverage files.length))
    (IsTop (hashedOwners sha256Hex files)) [] (removed.map (·.hashed sha256Hex))
  count : (removalOf sha256Hex files coverage emit digest).removed = min removed.length u32Max
  keyAuthors : (removalOf sha256Hex files coverage emit digest).keyAuthors =
    if emit then some (removed.map fun a => digest (a.hashed sha256Hex)) else none
  removedSet : ∀ (i : ℕ) (author : GroupAuthor), (registry sha256Hex files).authors[i]? = some author →
    ((removalOf sha256Hex files coverage emit digest).removedSet[i]? = some true ↔
      ∃ a ∈ removed, a.hashed sha256Hex = author.hashed)
  remaining : (removalOf sha256Hex files coverage emit digest).remainingAuthors =
    files.map fun o => o.countP fun a => a ∉ removed
  orphaned : (removalOf sha256Hex files coverage emit digest).orphaned =
    files.countP fun o => o ≠ [] ∧ ∀ a ∈ o, a ∈ removed
  ends : ¬ binary64 (removalOf sha256Hex files coverage emit digest).orphaned ≤
      removalTarget coverage files.length ∨
    pickTopAuthor (registry sha256Hex files).authors
      (removalOf sha256Hex files coverage emit digest).removedSet
      (removalOf sha256Hex files coverage emit digest).remainingAuthors = none
  stops : coverage * binary64 files.length <
      (removalOf sha256Hex files coverage emit digest).orphaned ∨
    ∀ a, Owns files a → a ∈ removed
  covered : files ≠ [] → (∀ o ∈ files, o ≠ []) → coverage ≤ maxCoverage →
    coverage * binary64 files.length <
        (removalOf sha256Hex files coverage emit digest).orphaned ∧
      (files.length ≤ 2 ^ 53 →
        coverage * files.length < (removalOf sha256Hex files coverage emit digest).orphaned)

variable {sha256Hex files coverage emit digest}

/-- A list of digests of known ids comes from a list of ids. -/
theorem exists_map_hashed {keys : List AuthorId} {l : List String}
    (h : l ⊆ keys.map (·.hashed sha256Hex)) :
    ∃ ids ⊆ keys, ids.map (·.hashed sha256Hex) = l := by
  induction l with
  | nil => exact ⟨[], List.nil_subset _, rfl⟩
  | cons digest l ih =>
    obtain ⟨hdigest, hl⟩ := List.cons_subset.mp h
    obtain ⟨a, ha, rfl⟩ := List.mem_map.mp hdigest
    obtain ⟨ids, hids, rfl⟩ := ih hl
    exact ⟨a :: ids, List.cons_subset.mpr ⟨ha, hids⟩, rfl⟩

/-- What the rounded comparison grants is granted exactly. -/
theorem lt_of_removalTarget_lt {n orphaned : ℕ}
    (h : removalTarget coverage n < binary64 orphaned) : coverage * binary64 n < orphaned := by
  by_contra hle
  exact h.not_ge (binary64_monotone (not_lt.mp hle))

theorem clampThreshold_le (threshold : Option ℚ) : clampThreshold threshold ≤ maxCoverage := by
  have hdefault : defaultCoverageThreshold ≤ maxCoverage := by decide +kernel
  have hmin : minCoverage ≤ maxCoverage := by decide +kernel
  cases threshold with
  | none => exact hdefault
  | some threshold => exact max_le hmin (min_le_right _ _)

theorem maxCoverage_mul_lt {n : ℕ} (h : 0 < n) : maxCoverage * binary64 n < n := by
  have hone : (1 : ℚ) ≤ n := Nat.one_le_cast.mpr h
  have habs : |(n : ℚ)| = n := Nat.abs_cast n
  have hsmall : (2 : ℚ) ^ (-1022 : ℤ) ≤ 1 := zpow_le_one_of_nonpos₀ one_le_two (by norm_num)
  have herror := abs_binary64_sub_le (x := n) (by
    rw [habs]
    exact hsmall.trans hone)
  rw [habs] at herror
  have hround : binary64 n ≤ n + n / 2 ^ 53 := by
    have hle := (abs_le.mp herror).2
    linarith
  have hmax : maxCoverage ≤ 1 - 1 / 2 ^ 20 := by decide +kernel
  have hnonneg : 0 ≤ binary64 n := binary64_nonneg (Nat.cast_nonneg n)
  calc maxCoverage * binary64 n ≤ (1 - 1 / 2 ^ 20) * binary64 n :=
        mul_le_mul_of_nonneg_right hmax hnonneg
    _ ≤ (1 - 1 / 2 ^ 20) * (n + n / 2 ^ 53) := mul_le_mul_of_nonneg_left hround (by norm_num)
    _ < n := by linarith

/-- With an owner for every file, more than coverage asks for are orphaned in the end: the loop
stopped for that, or nobody is left and every file is. -/
theorem coverage_mul_lt {removed : List AuthorId} {orphaned : ℕ}
    (horphaned : orphaned = files.countP fun o => o ≠ [] ∧ ∀ a ∈ o, a ∈ removed)
    (hstops : coverage * binary64 files.length < orphaned ∨ ∀ a, Owns files a → a ∈ removed)
    (hne : files ≠ []) (howned : ∀ o ∈ files, o ≠ []) (hle : coverage ≤ maxCoverage) :
    coverage * binary64 files.length < orphaned := by
  rcases hstops with hstop | hgone
  · exact hstop
  · have hfiles : orphaned = files.length := by
      rw [horphaned, List.countP_eq_length]
      intro o ho
      exact decide_eq_true ⟨howned o ho, fun a ha => hgone a ⟨o, ho, ha⟩⟩
    have hmul : coverage * binary64 files.length ≤ maxCoverage * binary64 files.length :=
      mul_le_mul_of_nonneg_right hle (binary64_nonneg (Nat.cast_nonneg _))
    rw [hfiles]
    exact hmul.trans_lt (maxCoverage_mul_lt (List.length_pos_iff.mpr hne))

section Removed
variable (hinj : Set.InjOn (·.hashed sha256Hex) {a | Owns files a}) {removed : List AuthorId}
  (howns : ∀ a ∈ removed, Owns files a)
include hinj howns

/-- The digests of the owners removed are those of no other owner. -/
theorem mem_map_hashed_iff {a : AuthorId} (ha : Owns files a) :
    a.hashed sha256Hex ∈ removed.map (·.hashed sha256Hex) ↔ a ∈ removed := by
  refine ⟨fun h => ?_, fun h => List.mem_map.mpr ⟨a, h, rfl⟩⟩
  obtain ⟨b, hb, heq⟩ := List.mem_map.mp h
  exact hinj (howns b hb) ha heq ▸ hb

theorem orphans_hashedOwners :
    orphans (hashedOwners sha256Hex files) (removed.map (·.hashed sha256Hex)) =
      files.countP fun o => o ≠ [] ∧ ∀ a ∈ o, a ∈ removed := by
  rw [orphans, hashedOwners, List.countP_map]
  apply List.countP_congr
  intro o ho
  have hgone : (∀ d ∈ o.map (·.hashed sha256Hex), d ∈ removed.map (·.hashed sha256Hex)) ↔
      ∀ a ∈ o, a ∈ removed := by
    rw [List.forall_mem_map]
    exact forall₂_congr fun a ha => mem_map_hashed_iff hinj howns ⟨o, ho, ha⟩
  simp only [Function.comp, decide_eq_true_eq, ne_eq, List.map_eq_nil_iff, hgone]

theorem left_hashedOwners :
    (hashedOwners sha256Hex files).map (left (removed.map (·.hashed sha256Hex))) =
      files.map fun o => o.countP fun a => a ∉ removed := by
  rw [hashedOwners, List.map_map]
  apply List.map_congr_left
  intro o ho
  rw [Function.comp, left, List.countP_map]
  apply List.countP_congr
  intro a ha
  simp only [Function.comp, decide_eq_true_eq, mem_map_hashed_iff hinj howns ⟨o, ho, ha⟩]

end Removed

theorem exists_removalRun (hinj : Set.InjOn (·.hashed sha256Hex) {a | Owns files a}) :
    ∃ removed, RemovalRun sha256Hex files coverage emit digest removed := by
  obtain ⟨keys, hkeysNodup, hkeys, hauthors, hreg⟩ := registry_registered hinj
  obtain ⟨digests, hgreedy, hlinked⟩ := @greedyTruckFactor_greedy _ _ digest emit hreg coverage
  have hcounts : (hashedOwners sha256Hex files).map List.length =
      (registry sha256Hex files).remainingAuthors := by
    rw [registry_remaining]
    simp [hashedOwners]
  have hlength : (hashedOwners sha256Hex files).length = files.length := by simp [hashedOwners]
  rw [hcounts] at hlinked
  rw [hlength] at hgreedy
  have hknown := hlinked.known
  rw [hauthors] at hknown
  obtain ⟨removed, hsub, rfl⟩ := exists_map_hashed hknown
  have howns : ∀ a ∈ removed, Owns files a := fun a ha => (hkeys a).mp (hsub ha)
  have hends := pickTopAuthor_spec (removed.map (·.hashed sha256Hex)) hreg
  rw [← hlinked.removedSet, ← hlinked.remaining] at hends
  have hall := hgreedy.at_end
  rw [List.nil_append, Enough, ← hlinked.orphaned] at hall
  have hstops : removalTarget coverage files.length <
      binary64 (removalOf sha256Hex files coverage emit digest).orphaned ∨
      (pickTopAuthor (registry sha256Hex files).authors
        (removalOf sha256Hex files coverage emit digest).removedSet
        (removalOf sha256Hex files coverage emit digest).remainingAuthors = none ∧
      ∀ a, Owns files a → a ∈ removed) := by
    rcases hall with hlt | hnone
    · exact .inl hlt
    · rcases hends with ⟨idx, a, -, -, htop⟩ | ⟨hpick, hgone⟩
      · exact absurd htop (hnone _)
      · refine .inr ⟨hpick, fun a ha => ?_⟩
        obtain ⟨o, ho, hao⟩ := ha
        exact (mem_map_hashed_iff hinj howns ⟨o, ho, hao⟩).mp
          (hgone _ (List.mem_map.mpr ⟨o, ho, rfl⟩) _ (List.mem_map.mpr ⟨a, hao, rfl⟩))
  have horphaned : (removalOf sha256Hex files coverage emit digest).orphaned =
      files.countP fun o => o ≠ [] ∧ ∀ a ∈ o, a ∈ removed :=
    hlinked.orphaned.trans (orphans_hashedOwners hinj howns)
  refine ⟨removed, ?_⟩
  constructor
  case nodup => exact hlinked.nodup.of_map _
  case owns => exact howns
  case greedy => exact hgreedy
  case count => simpa [removalOf] using hlinked.count
  case keyAuthors => simpa [removalOf, Function.comp_def] using hlinked.keyAuthors
  case removedSet =>
    intro i author hat
    have hset : (removalOf sha256Hex files coverage emit digest).removedSet = _ :=
      hlinked.removedSet
    rw [hset, List.getElem?_map, hat, Option.map_some, Option.some_inj, decide_eq_true_eq,
      List.mem_map]
  case remaining => exact hlinked.remaining.trans (left_hashedOwners hinj howns)
  case orphaned => exact horphaned
  case ends => exact hstops.imp not_le.mpr And.left
  case stops => exact hstops.imp lt_of_removalTarget_lt And.right
  case covered =>
    intro hne howned hle
    have hlt := coverage_mul_lt horphaned (hstops.imp lt_of_removalTarget_lt And.right) hne howned hle
    refine ⟨hlt, fun hexact => ?_⟩
    rwa [binary64_natCast hexact] at hlt

theorem prefix_of_map_hashed (hinj : Set.InjOn (·.hashed sha256Hex) {a | Owns files a})
    {ids ids' : List AuthorId} (hids : ∀ a ∈ ids, Owns files a) (hids' : ∀ a ∈ ids', Owns files a)
    (h : ids.map (·.hashed sha256Hex) <+: ids'.map (·.hashed sha256Hex)) : ids <+: ids' := by
  induction ids generalizing ids' with
  | nil => exact List.nil_prefix
  | cons a ids ih =>
    cases ids' with
    | nil => exact absurd (List.prefix_nil.mp h) (by simp)
    | cons b ids' =>
      obtain ⟨ha, hrest⟩ := List.forall_mem_cons.mp hids
      obtain ⟨hb, hrest'⟩ := List.forall_mem_cons.mp hids'
      rw [List.map_cons, List.map_cons, List.cons_prefix_cons] at h
      obtain rfl := hinj ha hb h.1
      exact (List.prefix_cons_inj _).mpr (ih hrest hrest' h.2)

/-- A smaller coverage removes an initial part. -/
theorem RemovalRun.prefix_of_le (hinj : Set.InjOn (·.hashed sha256Hex) {a | Owns files a})
    {coverage' : ℚ} {removed removed' : List AuthorId} (hle : coverage ≤ coverage')
    (h : RemovalRun sha256Hex files coverage emit digest removed)
    (h' : RemovalRun sha256Hex files coverage' emit digest removed') : removed <+: removed' := by
  have htarget : removalTarget coverage files.length ≤ removalTarget coverage' files.length :=
    binary64_monotone (mul_le_mul_of_nonneg_right hle (binary64_nonneg (Nat.cast_nonneg _)))
  apply prefix_of_map_hashed hinj h.owns h'.owns
  exact h.greedy.prefix_of_imp IsTop.unique (fun taken henough => htarget.trans_lt henough)
    h'.greedy

end Run

/-! ### The groups of the report -/

section Groups
variable (sha256Hex : String → String)

/-- A group that reports the run in which `removed` leave. -/
structure Reported (owners : List (List AuthorId)) (emit : Bool) (digest : String → String)
    (removed : List AuthorId) (group : GroupBusFactor) : Prop where
  busFactor : group.busFactor = min removed.length u32Max
  files : group.files = min owners.length u32Max
  authors : ∃ ids : List AuthorId, ids.Nodup ∧ (∀ a, a ∈ ids ↔ Owns owners a) ∧
    group.authors = min ids.length u32Max
  keyAuthorIds : group.keyAuthorIds =
    if emit ∧ owners ≠ [] then some (removed.map fun a => digest (a.hashed sha256Hex)) else none

theorem groupBusFactor_reported {files : List (List AuthorId)} {coverage : ℚ} {emit : Bool}
    {digest : String → String} {removed : List AuthorId}
    (hinj : Set.InjOn (·.hashed sha256Hex) {a | Owns files a})
    (h : RemovalRun sha256Hex files coverage emit digest removed) :
    Reported sha256Hex files emit digest removed
      (groupBusFactor sha256Hex files coverage emit digest) := by
  obtain ⟨keys, hnodup, hkeys, hauthors, -⟩ := registry_registered hinj
  have hlength := congrArg List.length hauthors
  rw [List.length_map, List.length_map] at hlength
  by_cases hnil : files = []
  · subst hnil
    have hnobody : ∀ a, ¬ Owns [] a := by
      rintro a ⟨o, ho, -⟩
      cases ho
    obtain rfl : removed = [] := List.eq_nil_iff_forall_not_mem.mpr fun a ha =>
      hnobody a (h.owns a ha)
    have hgroup : groupBusFactor sha256Hex [] coverage emit digest = ⟨0, 0, 0, none⟩ := if_pos rfl
    rw [hgroup]
    constructor
    case busFactor => rfl
    case files => rfl
    case authors => exact ⟨[], List.nodup_nil, fun a => iff_of_false nofun (hnobody a), rfl⟩
    case keyAuthorIds => simp
  · have hgroup : groupBusFactor sha256Hex files coverage emit digest =
        { busFactor := (removalOf sha256Hex files coverage emit digest).removed
          files := min files.length u32Max
          authors := min (registry sha256Hex files).authors.length u32Max
          keyAuthorIds := (removalOf sha256Hex files coverage emit digest).keyAuthors } :=
      if_neg hnil
    rw [hgroup]
    constructor
    case busFactor => exact h.count
    case files => rfl
    case authors => exact ⟨keys, hnodup, hkeys, by rw [hlength]⟩
    case keyAuthorIds => simpa [hnil] using h.keyAuthors

variable (ln : ℚ → ℚ)

/-- A report each of whose groups, the repository and every directory with a name, tells of the
run `removal` gives for the group's files. -/
structure ReportOf (authorship : List FileAuthorship) (threshold : Option ℚ) (emit : Bool)
    (digest : String → String) (removal : List FileAuthorship → ℚ → List AuthorId)
    (report : BusFactor) : Prop where
  coverageThreshold : report.coverageThreshold = clampThreshold threshold
  repo : Reported sha256Hex ((contributed authorship).map (authorsOfFile sha256Hex ln)) emit digest
    (removal (contributed authorship) (clampThreshold threshold)) report.repo
  group : ∀ entry ∈ report.byDirectory, ∃ dir, slashPath dir = some entry.directory ∧
    filesUnder authorship dir ≠ [] ∧
    Reported sha256Hex ((filesUnder authorship dir).map (authorsOfFile sha256Hex ln)) emit digest
      (removal (filesUnder authorship dir) (clampThreshold threshold)) entry.group
  listed : ∀ dir directory, filesUnder authorship dir ≠ [] → slashPath dir = some directory →
    ∃ entry ∈ report.byDirectory, entry.directory = directory
  sorted : report.byDirectory.Pairwise fun a b => a.directory < b.directory

theorem mem_directories {authorship : List FileAuthorship} {dir : PathBytes} :
    dir ∈ ((contributed authorship).flatMap fun f => directoryKeys f.path).dedup ↔
      filesUnder authorship dir ≠ [] := by
  rw [List.mem_dedup, List.mem_flatMap, filesUnder, ne_eq, List.filter_eq_nil_iff]
  simp only [decide_eq_true_eq, not_forall, not_not, exists_prop]

/-- Two directories have two names. -/
theorem nodup_directories (group : PathBytes → GroupBusFactor) {dirs : List PathBytes}
    (h : dirs.Nodup) : ((dirs.filterMap fun dir => (slashPath dir).map fun directory =>
      (⟨directory, group dir⟩ : DirectoryBusFactor)).map (·.directory)).Nodup := by
  rw [List.map_filterMap]
  apply h.filterMap
  intro p q s hp hq
  rw [Option.mem_def, Option.map_map, Option.map_eq_some_iff] at hp hq
  obtain ⟨_, hp, rfl⟩ := hp
  obtain ⟨_, hq, heq⟩ := hq
  obtain rfl : _ = _ := heq
  exact slashPath_injective hp hq

theorem computeBusFactor_reportOf {authorship : List FileAuthorship} {threshold : Option ℚ}
    {emit : Bool} {key : Option (String → String)}
    {removal : List FileAuthorship → ℚ → List AuthorId}
    (h : ∀ files ⊆ authorship, Reported sha256Hex (files.map (authorsOfFile sha256Hex ln)) emit
      (key.getD id) (removal files (clampThreshold threshold))
      (groupBusFactor sha256Hex (files.map (authorsOfFile sha256Hex ln)) (clampThreshold threshold)
        emit (key.getD id))) :
    ReportOf sha256Hex ln authorship threshold emit (key.getD id) removal
      (computeBusFactor sha256Hex ln authorship threshold emit key) := by
  have hsub : ∀ p : FileAuthorship → Bool, (contributed authorship).filter p ⊆ authorship :=
    fun p f hf => List.mem_of_mem_filter (List.mem_of_mem_filter hf)
  constructor
  case coverageThreshold => rfl
  case repo => exact h _ fun f hf => List.mem_of_mem_filter hf
  case group =>
    intro entry hentry
    rw [computeBusFactor, List.mem_insertionSort, List.mem_filterMap] at hentry
    obtain ⟨dir, hdir, hentry⟩ := hentry
    obtain ⟨directory, hname, rfl⟩ := Option.map_eq_some_iff.mp hentry
    exact ⟨dir, hname, mem_directories.mp hdir, h _ (hsub _)⟩
  case listed =>
    intro dir directory hne hname
    refine ⟨⟨directory, groupBusFactor sha256Hex
      ((filesUnder authorship dir).map (authorsOfFile sha256Hex ln)) (clampThreshold threshold) emit
      (key.getD id)⟩, ?_, rfl⟩
    rw [computeBusFactor, List.mem_insertionSort, List.mem_filterMap]
    refine ⟨dir, mem_directories.mpr hne, ?_⟩
    rw [hname, Option.map_some]
    rfl
  case sorted =>
    have htotal : Std.Total fun a b : DirectoryBusFactor => a.directory ≤ b.directory :=
      ⟨fun a b => le_total a.directory b.directory⟩
    have htrans : IsTrans DirectoryBusFactor fun a b => a.directory ≤ b.directory :=
      ⟨fun _ _ _ => le_trans⟩
    have hsorted := List.pairwise_insertionSort
      (fun a b : DirectoryBusFactor => a.directory ≤ b.directory)
    have hnodup := fun group => nodup_directories group
      (List.nodup_dedup ((contributed authorship).flatMap fun f => directoryKeys f.path))
    rw [computeBusFactor]
    refine (hsorted _).imp₂ (fun a b hle hne => lt_of_le_of_ne hle hne) ?_
    apply List.pairwise_map.mp
    exact ((List.perm_insertionSort _ _).map _).nodup_iff.mpr (hnodup _)

end Groups

/-- The report is the same for every order, each of its groups tells of one run of the removal, the
run for a smaller coverage is an initial part of the run for a larger one, and every file with a
contribution has an owner. -/
theorem busFactor_laws (sha256Hex : String → String) (ln : ℚ → ℚ) :
    (∀ (authorship authorship' : List FileAuthorship) (coverageThreshold : Option ℚ) (emit : Bool)
      (key : Option (String → String)),
      Set.InjOn (·.hashed sha256Hex) {a | Contributes authorship a} →
      Reordered SameFile authorship authorship' →
      computeBusFactor sha256Hex ln authorship coverageThreshold emit key =
        computeBusFactor sha256Hex ln authorship' coverageThreshold emit key) ∧
    (∀ (authorship : List FileAuthorship) (emit : Bool) (key : Option (String → String)),
      Set.InjOn (·.hashed sha256Hex) {a | Contributes authorship a} →
      ∃ removal : List FileAuthorship → ℚ → List AuthorId,
        (∀ files ⊆ authorship, ∀ coverage,
          RemovalRun sha256Hex (files.map (authorsOfFile sha256Hex ln)) coverage emit
            (key.getD id) (removal files coverage)) ∧
        (∀ files ⊆ authorship, ∀ coverage coverage', coverage ≤ coverage' →
          removal files coverage <+: removal files coverage') ∧
        ∀ coverageThreshold, clampThreshold coverageThreshold ≤ maxCoverage ∧
          ReportOf sha256Hex ln authorship coverageThreshold emit (key.getD id) removal
            (computeBusFactor sha256Hex ln authorship coverageThreshold emit key)) ∧
    ∀ file : FileAuthorship, file.contributions ≠ [] → authorsOfFile sha256Hex ln file ≠ [] := by
  refine ⟨?_, ?_, ?_⟩
  · intro authorship authorship' coverageThreshold emit key hinj h
    exact computeBusFactor_reordered hinj h coverageThreshold emit key
  · intro authorship emit key hinj
    have hdistinct : ∀ files ⊆ authorship, Set.InjOn (·.hashed sha256Hex)
        {a | Owns (files.map (authorsOfFile sha256Hex ln)) a} := by
      intro files hsub
      apply hinj.mono
      rintro a ⟨o, ho, ha⟩
      obtain ⟨f, hf, rfl⟩ := List.mem_map.mp ho
      exact ⟨f, hsub hf, mem_authorsOfFile ha⟩
    have hrun : ∀ (files : List FileAuthorship) (coverage : ℚ), ∃ removed, files ⊆ authorship →
        RemovalRun sha256Hex (files.map (authorsOfFile sha256Hex ln)) coverage emit (key.getD id)
          removed := by
      intro files coverage
      by_cases hsub : files ⊆ authorship
      · obtain ⟨removed, hremoved⟩ := exists_removalRun (hdistinct files hsub)
        exact ⟨removed, fun _ => hremoved⟩
      · exact ⟨[], fun h => absurd h hsub⟩
    choose removal hremoval using hrun
    refine ⟨removal, fun files hsub coverage => hremoval files coverage hsub, ?_, ?_⟩
    · intro files hsub coverage coverage' hle
      exact (hremoval files coverage hsub).prefix_of_le (hdistinct files hsub) hle
        (hremoval files coverage' hsub)
    · intro coverageThreshold
      refine ⟨clampThreshold_le coverageThreshold, ?_⟩
      apply computeBusFactor_reportOf
      intro files hsub
      exact groupBusFactor_reported sha256Hex (hdistinct files hsub) (hremoval files _ hsub)
  · intro file h
    exact authorsOfFile_ne_nil sha256Hex ln h

/-- The logarithms of 1, 2 and 3. -/
def smallLn (x : ℚ) : ℚ :=
  if x = 2 then 6243314768165359 / 2 ^ 53
  else if x = 3 then 4947709893870347 / 2 ^ 52
  else 0

/-- A file of two developers and one of nobody. -/
def twoDevelopers : List FileAuthorship :=
  [⟨[97], [⟨⟨"p", true⟩, 1, true⟩, ⟨⟨"q", true⟩, 2, false⟩]⟩, ⟨[98], []⟩]

/-- Its report in another order, and the run it tells of. -/
theorem busFactor_laws_twoDevelopers :
    computeBusFactor id smallLn twoDevelopers none true none =
      computeBusFactor id smallLn
        [⟨[98], []⟩, ⟨[97], [⟨⟨"q", true⟩, 2, false⟩, ⟨⟨"p", true⟩, 1, true⟩]⟩] none true none ∧
    ∃ removal, ReportOf id smallLn twoDevelopers none true id removal
      (computeBusFactor id smallLn twoDevelopers none true none) := by
  have hinj : Set.InjOn (·.hashed id) {a | Contributes twoDevelopers a} := by
    rintro a ⟨f, hf, c, hc, rfl⟩ b ⟨g, hg, d, hd, rfl⟩ heq
    have hauthor : ∀ f ∈ twoDevelopers, ∀ c ∈ f.contributions,
        c.author = ⟨c.author.hashed id, true⟩ := by decide
    rw [hauthor f hf c hc, hauthor g hg d hd]
    exact congrArg (AuthorId.mk · true) heq
  constructor
  · apply (busFactor_laws id smallLn).1 _ _ _ _ _ hinj
    refine ⟨[⟨[97], [⟨⟨"q", true⟩, 2, false⟩, ⟨⟨"p", true⟩, 1, true⟩]⟩, ⟨[98], []⟩], ?_, .swap ..⟩
    exact .cons ⟨rfl, .swap ..⟩ (.cons ⟨rfl, .nil⟩ .nil)
  · obtain ⟨removal, -, -, hreport⟩ := (busFactor_laws id smallLn).2.1 twoDevelopers true none hinj
    exact ⟨removal, (hreport none).2⟩

end BigCodeAnalysis.Vcs
