import BigCodeAnalysis.Vcs.Blame

/-! The blame of a function counts lines. Where no line is covered twice and no hunk ends at
the largest `u32`, the runs that overlap the span give each commit the number of lines a
walk line by line gives it, and one record. -/

namespace BigCodeAnalysis.Vcs

open Sequences

variable {Oid F : Type*}

/-! ### Lines of a run -/

theorem countP_range' (lo hi n : ℕ) : ∀ s, ((List.range' s n).countP fun line =>
    decide (lo ≤ line ∧ line ≤ hi)) = min (s + n) (hi + 1) - max s lo := by
  induction n with
  | zero =>
    intro s
    rw [List.range'_zero, List.countP_nil]
    omega
  | succ n ih =>
    intro s
    rw [List.range'_succ, List.countP_cons, ih]
    simp only [decide_eq_true_eq]
    split_ifs <;> omega

theorem overlap_eq (span : LineSpan) (lo hi : ℕ) :
    span.overlap lo hi = span.lines.countP fun line => decide (lo ≤ line ∧ line ≤ hi) := by
  have hordered := span.ordered
  rw [LineSpan.lines, countP_range', LineSpan.overlap, LineSpan.lineCount]
  split_ifs <;> omega

/-- The hunk holds a line and ends before the largest `u32`. -/
def BlameHunk.InRange (hunk : BlameHunk Oid) : Prop :=
  0 < hunk.len ∧ hunk.startInBlamedFile + hunk.len < u32Max

instance (hunk : BlameHunk Oid) : Decidable hunk.InRange :=
  inferInstanceAs (Decidable (_ ∧ _))

theorem fromBlameHunk_eq {hunk : BlameHunk Oid} (h : hunk.InRange) :
    (LineRun.fromBlameHunk hunk).lo = hunk.startInBlamedFile + 1 ∧
    (LineRun.fromBlameHunk hunk).hi = hunk.startInBlamedFile + hunk.len := by
  obtain ⟨hpos, hlt⟩ := h
  unfold LineRun.fromBlameHunk saturatingAdd
  dsimp only
  constructor <;> omega

theorem overlap_fromBlameHunk (span : LineSpan) {hunk : BlameHunk Oid} (h : hunk.InRange) :
    span.overlap (LineRun.fromBlameHunk hunk).lo (LineRun.fromBlameHunk hunk).hi =
      span.lines.countP hunk.covers := by
  obtain ⟨hlo, hhi⟩ := fromBlameHunk_eq h
  rw [overlap_eq, hlo, hhi]
  rfl

/-! ### The hash map -/

section Map

variable [DecidableEq Oid] {span : LineSpan} {commits : Oid → Option (Option CommitMeta)}
  {surviving : Surviving Oid} {c : Oid}

/-- The lines of a commit among some entries. -/
def linesOf (c : Oid) (surviving : Surviving Oid) : ℕ :=
  (surviving.map fun entry => if entry.1 = c then entry.2.2 else 0).sum

/-- Keys are distinct, and each entry has its commit's data and some line. -/
structure Entries (commits : Oid → Option (Option CommitMeta)) (surviving : Surviving Oid) :
    Prop where
  nodup : (surviving.map Prod.fst).Nodup
  known : ∀ entry ∈ surviving, (commits entry.1).join = some entry.2.1 ∧ 0 < entry.2.2

theorem linesOf_addOverlap (id : Oid) (commit : CommitMeta) (n : ℕ) (surviving : Surviving Oid) :
    linesOf c (addOverlap id commit n surviving) =
      linesOf c surviving + if id = c then n else 0 := by
  induction surviving with
  | nil => simp [linesOf, addOverlap]
  | cons entry rest ih =>
    obtain ⟨key, known, lines⟩ := entry
    unfold linesOf at ih ⊢
    rw [addOverlap]
    by_cases hkey : key = id
    · rw [if_pos hkey]
      simp only [List.map_cons, List.sum_cons, hkey]
      split_ifs <;> omega
    · rw [if_neg hkey, List.map_cons, List.sum_cons, ih, List.map_cons, List.sum_cons]
      omega

theorem mem_keys_addOverlap (id : Oid) (commit : CommitMeta) (n : ℕ) (surviving : Surviving Oid) :
    c ∈ (addOverlap id commit n surviving).map Prod.fst ↔
      c = id ∨ c ∈ surviving.map Prod.fst := by
  induction surviving with
  | nil => simp [addOverlap]
  | cons entry rest ih =>
    obtain ⟨key, known, lines⟩ := entry
    rw [addOverlap]
    by_cases hkey : key = id
    · rw [if_pos hkey]
      simp [hkey]
    · rw [if_neg hkey, List.map_cons, List.map_cons, List.mem_cons, List.mem_cons, ih]
      exact or_left_comm

theorem Entries.addOverlap (h : Entries commits surviving) {id : Oid} {commit : CommitMeta}
    {n : ℕ} (hcommit : (commits id).join = some commit) (hn : 0 < n) :
    Entries commits (addOverlap id commit n surviving) := by
  induction surviving with
  | nil =>
    refine ⟨List.nodup_singleton _, fun entry hentry => ?_⟩
    rw [List.mem_singleton.mp hentry]
    exact ⟨hcommit, hn⟩
  | cons entry rest ih =>
    obtain ⟨key, known, lines⟩ := entry
    obtain ⟨hnotin, hnodup⟩ := List.nodup_cons.mp h.nodup
    have hhead := h.known _ List.mem_cons_self
    have hrest : Entries commits rest :=
      ⟨hnodup, fun e he => h.known e (List.mem_cons_of_mem _ he)⟩
    rw [Vcs.addOverlap]
    by_cases hkey : key = id
    · rw [if_pos hkey]
      refine ⟨h.nodup, fun e he => ?_⟩
      rcases List.mem_cons.mp he with rfl | he
      · exact ⟨hhead.1, by have := hhead.2; dsimp only at this ⊢; omega⟩
      · exact hrest.known e he
    · rw [if_neg hkey]
      refine ⟨List.nodup_cons.mpr ⟨fun hmem => ?_, (ih hrest).nodup⟩, fun e he => ?_⟩
      · rcases (mem_keys_addOverlap id commit n rest).mp hmem with heq | hmem
        · exact hkey heq
        · exact hnotin hmem
      · rcases List.mem_cons.mp he with rfl | he
        · exact hhead
        · exact (ih hrest).known e he

/-- One run's entry. -/
def addRun (span : LineSpan) (commits : Oid → Option (Option CommitMeta))
    (surviving : Surviving Oid) (run : LineRun Oid) : Surviving Oid :=
  match (commits run.commitId).join with
  | some commit => addOverlap run.commitId commit (span.overlap run.lo run.hi) surviving
  | none => surviving

/-- The lines of the span that some runs give to a commit. -/
def runLines (span : LineSpan) (commits : Oid → Option (Option CommitMeta)) (c : Oid)
    (runs : List (LineRun Oid)) : ℕ :=
  (runs.map fun run => if run.commitId = c ∧ (commits c).join.isSome = true then
    span.overlap run.lo run.hi else 0).sum

theorem linesOf_addRun (run : LineRun Oid) :
    linesOf c (addRun span commits surviving run) = linesOf c surviving +
      if run.commitId = c ∧ (commits c).join.isSome = true then span.overlap run.lo run.hi
      else 0 := by
  unfold addRun
  cases hcommit : (commits run.commitId).join with
  | some commit =>
    dsimp only
    rw [linesOf_addOverlap]
    by_cases hc : run.commitId = c
    · subst hc
      simp [hcommit]
    · simp [hc]
  | none =>
    by_cases hc : run.commitId = c
    · subst hc
      simp [hcommit]
    · simp [hc]

theorem foldl_addRun (runs : List (LineRun Oid)) : ∀ surviving : Surviving Oid,
    Entries commits surviving → (∀ run ∈ runs, 0 < span.overlap run.lo run.hi) →
    Entries commits (runs.foldl (addRun span commits) surviving) ∧
    ∀ c, linesOf c (runs.foldl (addRun span commits) surviving) =
      linesOf c surviving + runLines span commits c runs := by
  induction runs with
  | nil => exact fun _ h _ => ⟨h, fun c => rfl⟩
  | cons run runs ih =>
    intro surviving h hpos
    have hstep : Entries commits (addRun span commits surviving run) := by
      unfold addRun
      cases hcommit : (commits run.commitId).join with
      | some commit => exact h.addOverlap hcommit (hpos run List.mem_cons_self)
      | none => exact h
    obtain ⟨hentries, hlines⟩ := ih _ hstep fun r hr => hpos r (List.mem_cons_of_mem _ hr)
    refine ⟨hentries, fun c => ?_⟩
    rw [List.foldl_cons, hlines, linesOf_addRun, runLines, runLines, List.map_cons, List.sum_cons]
    omega

/-- The entry of a commit has all its lines. -/
theorem linesOf_of_mem (h : Entries commits surviving) {entry : Oid × CommitMeta × ℕ}
    (hentry : entry ∈ surviving) : linesOf entry.1 surviving = entry.2.2 := by
  induction surviving with
  | nil => cases hentry
  | cons e rest ih =>
    obtain ⟨hnotin, hnodup⟩ := List.nodup_cons.mp h.nodup
    have hrest : Entries commits rest :=
      ⟨hnodup, fun e he => h.known e (List.mem_cons_of_mem _ he)⟩
    have hother : ∀ c, c ∉ rest.map Prod.fst → linesOf c rest = 0 := by
      intro c hc
      refine List.sum_eq_zero fun n hn => ?_
      obtain ⟨e, he, rfl⟩ := List.mem_map.mp hn
      exact if_neg fun heq => hc (List.mem_map.mpr ⟨e, he, heq⟩)
    have hcons : ∀ c, linesOf c (e :: rest) = (if e.1 = c then e.2.2 else 0) + linesOf c rest :=
      fun c => rfl
    rw [hcons]
    rcases List.mem_cons.mp hentry with rfl | hmem
    · rw [if_pos rfl, hother _ hnotin, Nat.add_zero]
    · have hne : e.1 ≠ entry.1 := fun heq =>
        hnotin (List.mem_map.mpr ⟨entry, hmem, heq.symm⟩)
      rw [if_neg hne, ih hrest hmem, Nat.zero_add]

end Map

/-! ### The runs that are visited -/

section Runs

variable [DecidableEq Oid] {span : LineSpan} {commits : Oid → Option (Option CommitMeta)}
  {runs : List (LineRun Oid)} {hunks : List (BlameHunk Oid)}

/-- Runs that follow each other in the file. -/
def Ascending (runs : List (LineRun Oid)) : Prop :=
  runs.Pairwise (fun a b => a.hi < b.lo) ∧ ∀ run ∈ runs, run.lo ≤ run.hi

/-- The loop stops at the first run past the span, and no later run is within it. -/
theorem scanRuns_eq (runs : List (LineRun Oid)) : ∀ surviving : Surviving Oid, Ascending runs →
    scanRuns span commits runs surviving =
      (runs.filter fun run => run.lo ≤ span.stop).foldl (addRun span commits) surviving := by
  induction runs with
  | nil => exact fun _ _ => rfl
  | cons run runs ih =>
    intro surviving hasc
    obtain ⟨hpair, hle⟩ := hasc
    obtain ⟨hhead, htail⟩ := List.pairwise_cons.mp hpair
    have hrest : Ascending runs := ⟨htail, fun r hr => hle r (List.mem_cons_of_mem _ hr)⟩
    rw [scanRuns]
    by_cases hpast : span.stop < run.lo
    · have hnone : ((run :: runs).filter fun run => decide (run.lo ≤ span.stop)) = [] := by
        refine List.filter_eq_nil_iff.mpr fun r hr => ?_
        have hself := hle run List.mem_cons_self
        rcases List.mem_cons.mp hr with rfl | hr
        · simpa using hpast
        · have := hhead r hr
          simp only [decide_eq_true_eq]
          omega
      rw [if_pos hpast, hnone]
      rfl
    · rw [if_neg hpast, List.filter_cons_of_pos (by simpa using hpast), List.foldl_cons, addRun]
      cases hcommit : commits run.commitId with
      | none => exact ih _ hrest
      | some found =>
        cases found with
        | none => exact ih _ hrest
        | some commit => exact ih _ hrest

theorem survivingLines_eq (hasc : Ascending runs) : survivingLines span runs commits =
    (runs.filter fun run => span.start ≤ run.hi ∧ run.lo ≤ span.stop).foldl
      (addRun span commits) [] := by
  have hpart : Partitioned (fun run : LineRun Oid => decide (run.hi < span.start)) runs := by
    refine .of_sorted (hasc.1.and (List.pairwise_of_forall_mem_list
      (r := fun _ b => b.lo ≤ b.hi) fun a _ b hb => hasc.2 b hb)) fun a b hab hb => ?_
    have hb := of_decide_eq_true hb
    exact decide_eq_true (by omega)
  have hsub : Ascending (runs.filter fun run => !decide (run.hi < span.start)) :=
    ⟨hasc.1.sublist List.filter_sublist, fun r hr => hasc.2 r (List.mem_filter.mp hr).1⟩
  rw [survivingLines, partitionPoint_eq hpart, hpart.split.2, scanRuns_eq _ _ hsub,
    List.filter_filter]
  congr 2
  funext run
  rw [Bool.eq_iff_iff]
  simp only [Bool.and_eq_true, Bool.not_eq_true', decide_eq_true_eq, decide_eq_false_iff_not]
  omega

/-- Runs beside the span own none of its lines. -/
theorem runLines_filter (c : Oid) (runs : List (LineRun Oid)) :
    runLines span commits c
        (runs.filter fun run => span.start ≤ run.hi ∧ run.lo ≤ span.stop) =
      runLines span commits c runs := by
  induction runs with
  | nil => rfl
  | cons run runs ih =>
    unfold runLines at ih ⊢
    by_cases hin : span.start ≤ run.hi ∧ run.lo ≤ span.stop
    · rw [List.filter_cons_of_pos (by simpa using hin), List.map_cons, List.map_cons,
        List.sum_cons, List.sum_cons, ih]
    · have hzero : span.overlap run.lo run.hi = 0 := by
        have hordered := span.ordered
        rw [LineSpan.overlap]
        split_ifs <;> omega
      rw [List.filter_cons_of_neg (by simpa using hin), List.map_cons, List.sum_cons, ih, hzero,
        ite_self, Nat.zero_add]

omit [DecidableEq Oid] in
theorem overlap_pos {run : LineRun Oid} (hle : run.lo ≤ run.hi)
    (hin : span.start ≤ run.hi ∧ run.lo ≤ span.stop) : 0 < span.overlap run.lo run.hi := by
  have hordered := span.ordered
  rw [LineSpan.overlap]
  split_ifs <;> omega

omit [DecidableEq Oid] in
/-- Hunks that cover no line twice become runs one behind the other. -/
theorem ascending_sortedRuns (hrange : ∀ hunk ∈ hunks, hunk.InRange) (hnone : NoOverlap hunks) :
    Ascending (sortedRuns hunks) := by
  have hperm := List.perm_insertionSort (fun a b : LineRun Oid => a.lo ≤ b.lo)
    (hunks.map LineRun.fromBlameHunk)
  have hle : ∀ run ∈ sortedRuns hunks, run.lo ≤ run.hi := by
    intro run hrun
    obtain ⟨hunk, hmem, rfl⟩ := List.mem_map.mp (hperm.mem_iff.mp hrun)
    obtain ⟨hlo, hhi⟩ := fromBlameHunk_eq (hrange hunk hmem)
    have := (hrange hunk hmem).1
    omega
  have happart : (hunks.map LineRun.fromBlameHunk).Pairwise fun a b =>
      a.hi < b.lo ∨ b.hi < a.lo := by
    refine List.pairwise_map.mpr (hnone.imp_of_mem fun {a b} ha hb hab => ?_)
    obtain ⟨halo, hahi⟩ := fromBlameHunk_eq (hrange a ha)
    obtain ⟨hblo, hbhi⟩ := fromBlameHunk_eq (hrange b hb)
    have hapos := (hrange a ha).1
    have hbpos := (hrange b hb).1
    by_contra hmeet
    -- the later of the two first lines is in both
    have hline := hab (max (a.startInBlamedFile + 1) (b.startInBlamedFile + 1))
    simp only [BlameHunk.covers, decide_eq_true_eq, decide_eq_false_iff_not] at hline
    omega
  have hsorted : (sortedRuns hunks).Pairwise fun a b => a.lo ≤ b.lo :=
    List.pairwise_insertionSort _ _
  refine ⟨?_, hle⟩
  have hboth := hsorted.and (hperm.symm.pairwise happart fun {a b} h => h.symm)
  refine hboth.imp_of_mem fun {a b} _ hb hab => ?_
  have := hle b hb
  omega

theorem runLines_perm (c : Oid) {runs runs' : List (LineRun Oid)} (h : runs.Perm runs') :
    runLines span commits c runs = runLines span commits c runs' :=
  (h.map _).sum_eq

/-! ### The owners of lines -/

theorem countP_ownerOf (c : Oid) (lines : List ℕ) : ∀ {hunks : List (BlameHunk Oid)},
    NoOverlap hunks →
    (lines.countP fun line => ownerOf hunks line == some c) =
      (hunks.map fun hunk => if hunk.commitId = c then lines.countP hunk.covers else 0).sum := by
  intro hunks
  induction hunks with
  | nil => simp [ownerOf]
  | cons hunk hunks ih =>
    intro hnone
    obtain ⟨hhead, htail⟩ := List.pairwise_cons.mp hnone
    rw [List.map_cons, List.sum_cons, ← ih htail]
    have hother : ∀ line, hunk.covers line = true → ownerOf hunks line = none := by
      intro line hcover
      rw [ownerOf, List.find?_eq_none.mpr fun h hh => by
        rw [hhead h hh line hcover]
        exact Bool.false_ne_true]
      rfl
    have hcons : ∀ line, ownerOf (hunk :: hunks) line =
        if hunk.covers line then some hunk.commitId else ownerOf hunks line := by
      intro line
      rw [ownerOf, List.find?_cons]
      cases hunk.covers line <;> rfl
    by_cases hc : hunk.commitId = c
    · rw [if_pos hc]
      refine countP_add (fun line => ?_) lines
      rw [hcons]
      cases hcover : hunk.covers line with
      | true => simp [hc, hother line hcover]
      | false => simp
    · rw [if_neg hc, Nat.zero_add]
      refine List.countP_congr fun line _ => ?_
      rw [hcons]
      cases hcover : hunk.covers line with
      | true => simp [hc, hother line hcover]
      | false => simp

theorem runLines_eq_count (hrange : ∀ hunk ∈ hunks, hunk.InRange) (hnone : NoOverlap hunks)
    (c : Oid) : runLines span commits c (hunks.map LineRun.fromBlameHunk) =
      (lineOwners span hunks commits).count c := by
  have hterms : runLines span commits c (hunks.map LineRun.fromBlameHunk) =
      (hunks.map fun hunk => if hunk.commitId = c ∧ (commits c).join.isSome = true then
        span.lines.countP hunk.covers else 0).sum := by
    rw [runLines, List.map_map]
    refine congrArg List.sum (List.map_congr_left fun hunk hmem => ?_)
    rw [Function.comp_apply, overlap_fromBlameHunk span (hrange hunk hmem)]
    rfl
  rw [hterms, lineOwners]
  cases hknown : (commits c).join.isSome with
  | true =>
    have hcount : (span.lines.filterMap (ownerOf hunks)).count c =
        span.lines.countP fun line => ownerOf hunks line == some c := List.count_filterMap
    have hfilter : ((span.lines.filterMap (ownerOf hunks)).filter fun id =>
        (commits id).join.isSome).count c = (span.lines.filterMap (ownerOf hunks)).count c :=
      List.count_filter hknown
    rw [hfilter, hcount, countP_ownerOf c span.lines hnone]
    simp
  | false =>
    have hnot : c ∉ (span.lines.filterMap (ownerOf hunks)).filter fun id =>
        (commits id).join.isSome := by
      intro hmem
      have := (List.mem_filter.mp hmem).2
      rw [hknown] at this
      cases this
    rw [List.count_eq_zero.mpr hnot]
    simp

end Runs

/-! ### The records -/

section Records

variable [DecidableEq Oid] {span : LineSpan} {commits : Oid → Option (Option CommitMeta)}
  {hunks : List (BlameHunk Oid)}

/-- The entries of the map are the owners of lines with the number of their lines. -/
theorem entries_survivingLines (span : LineSpan) (commits : Oid → Option (Option CommitMeta))
    (hrange : ∀ hunk ∈ hunks, hunk.InRange) (hnone : NoOverlap hunks) :
    Entries commits (survivingLines span (sortedRuns hunks) commits) ∧
    ∀ c, linesOf c (survivingLines span (sortedRuns hunks) commits) =
      (lineOwners span hunks commits).count c := by
  have hasc := ascending_sortedRuns hrange hnone
  have hempty : Entries commits [] := ⟨List.nodup_nil, nofun⟩
  obtain ⟨hentries, hlines⟩ := foldl_addRun
    ((sortedRuns hunks).filter fun run => span.start ≤ run.hi ∧ run.lo ≤ span.stop) []
    hempty fun run hrun => by
      obtain ⟨hmem, hin⟩ := List.mem_filter.mp hrun
      exact overlap_pos (hasc.2 run hmem) (of_decide_eq_true hin)
  rw [survivingLines_eq hasc]
  refine ⟨hentries, fun c => ?_⟩
  have hperm := List.perm_insertionSort (fun a b : LineRun Oid => a.lo ≤ b.lo)
    (hunks.map LineRun.fromBlameHunk)
  rw [hlines, runLines_filter, sortedRuns, runLines_perm c hperm,
    runLines_eq_count hrange hnone]
  exact Nat.zero_add _

/-- One record for each commit that owns a surviving line of the span. -/
theorem records_perm [Zero F] (recentBoundary : ℤ) (hrange : ∀ hunk ∈ hunks, hunk.InRange)
    (hnone : NoOverlap hunks) :
    ((survivingLines span (sortedRuns hunks) commits).map fun entry =>
      (blameRecord recentBoundary entry.2.1 entry.2.2 : ChangeRecord F)).Perm
    (lineRecords recentBoundary span hunks commits) := by
  obtain ⟨hentries, hlines⟩ := entries_survivingLines span commits hrange hnone
  set surviving := survivingLines span (sortedRuns hunks) commits
  have hkeys : (surviving.map Prod.fst).Perm (lineOwners span hunks commits).dedup := by
    refine (List.perm_ext_iff_of_nodup hentries.nodup (List.nodup_dedup _)).mpr fun c => ?_
    have howner : c ∈ lineOwners span hunks commits ↔ 0 < linesOf c surviving := by
      rw [hlines, List.count_pos_iff]
    rw [List.mem_dedup, howner]
    constructor
    · intro hmem
      obtain ⟨entry, hentry, rfl⟩ := List.mem_map.mp hmem
      rw [linesOf_of_mem hentries hentry]
      exact (hentries.known entry hentry).2
    · intro hpos
      by_contra hnot
      have hzero : linesOf c surviving = 0 := by
        refine List.sum_eq_zero fun n hn => ?_
        obtain ⟨e, he, rfl⟩ := List.mem_map.mp hn
        exact if_neg fun heq => hnot (List.mem_map.mpr ⟨e, he, heq⟩)
      omega
  have hrecords : (surviving.map fun entry =>
      (blameRecord recentBoundary entry.2.1 entry.2.2 : ChangeRecord F)) =
      (surviving.map Prod.fst).filterMap fun id => (commits id).join.map fun commit =>
        blameRecord recentBoundary commit ((lineOwners span hunks commits).count id) := by
    rw [List.filterMap_map]
    have hall : ∀ entry ∈ surviving, ((fun id => (commits id).join.map fun commit =>
        (blameRecord recentBoundary commit ((lineOwners span hunks commits).count id) :
          ChangeRecord F)) ∘ Prod.fst) entry =
        some (blameRecord recentBoundary entry.2.1 entry.2.2) := by
      intro entry hentry
      rw [Function.comp_apply, (hentries.known entry hentry).1, ← hlines,
        linesOf_of_mem hentries hentry]
      rfl
    rw [List.filterMap_congr hall, List.filterMap_eq_map']
  rw [hrecords]
  exact hkeys.filterMap _

end Records

/-- The statistics of a span are those of counting its lines one by one, with one record for
each commit that owns a surviving line, in whatever order the map gives its values. Hunks
that are already sorted stay in their order. -/
theorem aggregateSpan_lines [DecidableEq Oid] [Zero F] [Add F] (ops : FloatOps F)
    (emitHashed : AuthorId → String) (session : BlameSession)
    (commits : Oid → Option (Option CommitMeta)) (span : LineSpan)
    (intoValues : Surviving Oid → Surviving Oid) (hvalues : ∀ s, (intoValues s).Perm s)
    {hunks : List (BlameHunk Oid)} (hrange : ∀ hunk ∈ hunks, hunk.InRange)
    (hnone : NoOverlap hunks) :
    ((intoValues (survivingLines span (sortedRuns hunks) commits)).map fun entry =>
      (blameRecord session.recentBoundary entry.2.1 entry.2.2 : ChangeRecord F)).Perm
        (lineRecords session.recentBoundary span hunks commits) ∧
    aggregateSpan ops emitHashed session intoValues span (sortedRuns hunks) commits =
      (Accumulator.collect span.lineCount
        (lineRecords session.recentBoundary span hunks commits)).finalize ops emitHashed
          session.now session.options 0 0 ∧
    (hunks.Pairwise (fun a b => a.startInBlamedFile ≤ b.startInBlamedFile) →
      sortedRuns hunks = hunks.map LineRun.fromBlameHunk) := by
  have hperm := ((hvalues (survivingLines span (sortedRuns hunks) commits)).map
    fun entry => (blameRecord session.recentBoundary entry.2.1 entry.2.2 : ChangeRecord F)).trans
      (records_perm session.recentBoundary hrange hnone)
  refine ⟨hperm, ?_, fun hsorted => ?_⟩
  · have hzero : ∀ change ∈ (intoValues (survivingLines span (sortedRuns hunks) commits)).map
        fun entry => (blameRecord session.recentBoundary entry.2.1 entry.2.2 : ChangeRecord F),
        change.changeEntropy = 0 := by
      intro change hchange
      obtain ⟨entry, -, rfl⟩ := List.mem_map.mp hchange
      rfl
    exact Accumulator.finalize_perm ops emitHashed hperm hzero _ _ _ _ _
  · refine List.Pairwise.insertionSort_eq (List.pairwise_map.mpr ?_)
    refine hsorted.imp_of_mem fun {a b} ha hb hab => ?_
    rw [(fromBlameHunk_eq (hrange a ha)).1, (fromBlameHunk_eq (hrange b hb)).1]
    omega

/-- A function of three lines whose first two are one commit's and whose last is another's. -/
theorem aggregateSpan_lines_two :
    let author : CommitMeta := ⟨5, ⟨true, false, false⟩, [⟨"a", false⟩]⟩
    let hunks : List (BlameHunk ℕ) := [⟨0, 2, 7⟩, ⟨2, 1, 9⟩, ⟨3, 2, 7⟩]
    let commits : ℕ → Option (Option CommitMeta) := fun id => some (if id = 7 then author else none)
    ((survivingLines (.new 2 4) (sortedRuns hunks) commits).map fun entry =>
      (blameRecord 3 entry.2.1 entry.2.2 : ChangeRecord ℕ)).Perm
        (lineRecords 3 (.new 2 4) hunks commits) ∧
    (lineRecords (F := ℕ) 3 (.new 2 4) hunks commits).map ChangeRecord.churn = [2] := by
  refine ⟨(aggregateSpan_lines ⟨fun _ _ => 0, id, fun _ => 0⟩ (fun _ => "")
    ⟨10, 3, ⟨⟨100, 10⟩, false⟩⟩ _ _ id (fun _ => List.Perm.refl _) ?_ ?_).1, ?_⟩
  · decide
  · simp only [NoOverlap, BlameHunk.covers, List.pairwise_cons, List.forall_mem_cons,
      decide_eq_true_eq, decide_eq_false_iff_not, List.not_mem_nil, false_implies,
      implies_true, List.Pairwise.nil, and_true]
    refine ⟨⟨fun line => ?_, fun line => ?_⟩, fun line => ?_⟩ <;> omega
  · decide

/-- A hunk whose line is the largest `u32` is a run of no lines. -/
theorem survivingLines_ceiling :
    let author : CommitMeta := ⟨5, ⟨true, false, false⟩, [⟨"a", false⟩]⟩
    let hunks : List (BlameHunk ℕ) := [⟨4294967294, 1, 7⟩]
    let span := LineSpan.new 4294967295 4294967295
    NoOverlap hunks ∧
    (survivingLines span (sortedRuns hunks) fun _ => some (some author)).length = 0 ∧
    (lineRecords (F := ℕ) 3 span hunks fun _ => some (some author)).map ChangeRecord.churn =
      [1] := by
  refine ⟨List.pairwise_singleton _ _, ?_, ?_⟩
  · decide
  · decide

end BigCodeAnalysis.Vcs
