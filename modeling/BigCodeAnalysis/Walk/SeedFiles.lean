import BigCodeAnalysis.Walk.Seeds
import Mathlib.Data.List.Nodup

/-! When a run analyses every file once. The path of a file is its seed followed by the names that
lead there, so a file has one spelling under each seed that admits it, and two seeds spell it
alike just when one is the other followed by names. Only equal spellings are told to be one file;
the set of files found is tracked over the seeds, one after the other. -/

namespace BigCodeAnalysis.Walk

open Baseline (PathBytes Component components)

variable {process : Process} (filters : WalkFilters) (walker : DirWalker process)

/-- The paths a seed asks for, before what is there already is left out. -/
def produced (seed : Path) : List Path :=
  match seedKind process seed with
  | some .file => if filters.includes (fileSeedMatchPath process seed) then [seed] else []
  | some .dir => walkDirectorySeed filters walker seed
  | none => []

theorem seedKind_of_locate {seed : Path} {place : List Name} {kind : FileKind}
    (h : process.locate seed = some place) (hkind : process.tree.kind place = some kind) :
    seedKind process seed = some (if kind = .file then .file else .dir) := by
  rw [seedKind, h, Option.bind_some, hkind]
  cases kind <;> rfl

theorem seedKind_eq_some {seed : Path} {kind : SeedKind} (h : seedKind process seed = some kind) :
    ∃ place fileKind, process.locate seed = some place ∧
      process.tree.kind place = some fileKind ∧ (kind = .file ↔ fileKind = .file) := by
  obtain ⟨fileKind, hbind, rfl⟩ := Option.map_eq_some_iff.mp h
  obtain ⟨place, hplace, hkind⟩ := Option.bind_eq_some_iff.mp hbind
  refine ⟨place, fileKind, hplace, hkind, ?_⟩
  cases fileKind <;> simp

theorem visitWalkEntry_eq_some {seed path : Path} {e : WalkEntry}
    (h : visitWalkEntry process filters seed e = some path) : e.filePath = some path := by
  cases e with
  | error => cases h
  | entry path' fileType =>
    cases fileType with
    | none => cases h
    | some kind =>
      cases kind with
      | file =>
        unfold visitWalkEntry at h
        dsimp only at h
        split_ifs at h
        exact h
      | dir => cases h
      | other => cases h

/-- A path that a seed asks for is the seed followed by the names that lead to a file. -/
theorem exists_of_mem_produced {seed path : Path} (h : path ∈ produced filters walker seed) :
    ∃ place rel, process.locate seed = some place ∧ path = seed ++ rel.map .normal ∧
      process.tree.kind (place ++ rel) = some .file := by
  unfold produced at h
  cases hkind : seedKind process seed with
  | none => rw [hkind] at h; cases h
  | some kind =>
    obtain ⟨place, fileKind, hplace, hfile, hiff⟩ := seedKind_eq_some hkind
    rw [hkind] at h
    cases kind with
    | file =>
      dsimp only at h
      split_ifs at h with hincluded
      · obtain rfl := List.mem_singleton.mp h
        refine ⟨place, [], hplace, (List.append_nil _).symm, ?_⟩
        rw [List.append_nil, hfile, hiff.mp rfl]
      · cases h
    | dir =>
      have hnot : process.tree.kind place ≠ some .file := by
        rw [hfile]
        intro heq
        exact absurd (hiff.mpr (Option.some.inj heq)) (by decide)
      obtain ⟨rels, -, hrels, hentries⟩ := walker.spec seed place hplace hnot
      have hvisited := (List.mergeSort_perm _ _).mem_iff.mp h
      obtain ⟨e, he, hvisit⟩ := List.mem_filterMap.mp hvisited
      have hpath : path ∈ rels.map fun rel => seed ++ rel.map .normal := by
        rw [← hentries]
        exact List.mem_filterMap.mpr ⟨e, he, visitWalkEntry_eq_some filters hvisit⟩
      obtain ⟨rel, hrel, rfl⟩ := List.mem_map.mp hpath
      exact ⟨place, rel, hplace, rfl, hrels rel hrel⟩

theorem locate_of_produced {seed : Path} {place rel : List Name}
    (hplace : process.locate seed = some place)
    (hfile : process.tree.kind (place ++ rel) = some .file) :
    process.locate (seed ++ rel.map .normal) = some (place ++ rel) :=
  process.locate_append_names hplace (by rw [hfile]; rfl)

/-! ### The set of files -/

/-- What a set of files holds after some seeds. -/
structure Tracks (seeds : List Path) (found : SeedSet) : Prop where
  seen : ∀ path, path ∈ found.seen ↔ path ∈ found.files
  nodup : found.files.Nodup
  files : ∀ path, path ∈ found.files ↔ ∃ seed ∈ seeds, path ∈ produced filters walker seed
  explicit : ∀ path, path ∈ found.explicitFiles ↔ ∃ before after, seeds = before ++ path :: after ∧
    seedKind process path = some .file ∧ path ∈ produced filters walker path ∧
    ∀ seed ∈ before, path ∉ produced filters walker seed

/-- The places of an element in a list that grew by one at the end. -/
theorem exists_split_concat {α : Type*} {l : List α} {a b : α} {q : List α → Prop} :
    (∃ before after, l ++ [b] = before ++ a :: after ∧ q before) ↔
      (∃ before after, l = before ++ a :: after ∧ q before) ∨ a = b ∧ q l := by
  constructor
  · rintro ⟨before, after, heq, hq⟩
    induction after using List.reverseRecOn with
    | nil =>
      obtain ⟨rfl, hlast⟩ := List.append_inj' heq rfl
      exact .inr ⟨(List.cons_eq_cons.mp hlast).1.symm, hq⟩
    | append_singleton after c _ =>
      rw [← List.cons_append, ← List.append_assoc] at heq
      exact .inl ⟨before, after, (List.append_inj' heq rfl).1, hq⟩
  · rintro (⟨before, after, rfl, hq⟩ | ⟨rfl, hq⟩)
    · exact ⟨before, after ++ [b], by rw [List.append_assoc, List.cons_append], hq⟩
    · exact ⟨l, [], rfl, hq⟩

theorem pushWalked_foldl (found : SeedSet) (paths : List Path)
    (hseen : ∀ path, path ∈ found.seen ↔ path ∈ found.files) (hnodup : found.files.Nodup) :
    let found' := paths.foldl SeedSet.pushWalked found
    (∀ path, path ∈ found'.seen ↔ path ∈ found'.files) ∧ found'.files.Nodup ∧
      (∀ path, path ∈ found'.files ↔ path ∈ found.files ∨ path ∈ paths) ∧
      found'.explicitFiles = found.explicitFiles := by
  induction paths generalizing found with
  | nil => exact ⟨hseen, hnodup, by simp, rfl⟩
  | cons path paths ih =>
    rw [List.foldl_cons]
    by_cases hmem : path ∈ found.seen
    · have hpush : found.pushWalked path = found := if_pos hmem
      rw [hpush]
      obtain ⟨hseen', hnodup', hfiles, hexplicit⟩ := ih found hseen hnodup
      refine ⟨hseen', hnodup', ?_, hexplicit⟩
      intro p
      rw [hfiles, List.mem_cons]
      have hin := (hseen path).mp hmem
      constructor
      · rintro (h | h)
        · exact .inl h
        · exact .inr (.inr h)
      · rintro (h | rfl | h)
        · exact .inl h
        · exact .inl hin
        · exact .inr h
    · have hpush : found.pushWalked path =
          { found with files := found.files ++ [path], seen := path :: found.seen } := if_neg hmem
      have hnot : path ∉ found.files := fun hin => hmem ((hseen path).mpr hin)
      rw [hpush]
      obtain ⟨hseen', hnodup', hfiles, hexplicit⟩ := ih
        { found with files := found.files ++ [path], seen := path :: found.seen }
        (by intro p; simp [hseen p, or_comm])
        (List.nodup_append'.mpr ⟨hnodup, List.nodup_singleton _, by simpa using hnot⟩)
      refine ⟨hseen', hnodup', ?_, hexplicit⟩
      intro p
      rw [hfiles, List.mem_append, List.mem_singleton, List.mem_cons, or_assoc]

variable {filters walker}

theorem mem_produced_concat {seeds : List Path} {seed path : Path} :
    (∃ s ∈ seeds ++ [seed], path ∈ produced filters walker s) ↔
      (∃ s ∈ seeds, path ∈ produced filters walker s) ∨ path ∈ produced filters walker seed := by
  constructor
  · rintro ⟨s, hs, hpath⟩
    rcases List.mem_append.mp hs with hs | hs
    · exact .inl ⟨s, hs, hpath⟩
    · exact .inr (List.mem_singleton.mp hs ▸ hpath)
  · rintro (⟨s, hs, hpath⟩ | hpath)
    · exact ⟨s, List.mem_append_left _ hs, hpath⟩
    · exact ⟨seed, List.mem_append_right _ (List.mem_singleton_self _), hpath⟩

/-- A seed that adds no path and is not the first to ask for itself changes nothing. -/
theorem Tracks.unchanged {seeds : List Path} {seed : Path} {found : SeedSet}
    (h : Tracks filters walker seeds found)
    (hfiles : ∀ path ∈ produced filters walker seed, path ∈ found.files) :
    Tracks filters walker (seeds ++ [seed]) found := by
  refine ⟨h.seen, h.nodup, ?_, ?_⟩
  · intro path
    rw [mem_produced_concat, ← h.files]
    exact ⟨.inl, fun hor => hor.elim id (hfiles path)⟩
  · intro path
    rw [exists_split_concat, h.explicit]
    refine ⟨.inl, fun hor => hor.elim id ?_⟩
    rintro ⟨rfl, -, hown, hnone⟩
    obtain ⟨s, hs, hpath⟩ := (h.files path).mp (hfiles path hown)
    exact absurd hpath (hnone s hs)

theorem Tracks.file {seeds : List Path} {seed : Path} {found : SeedSet}
    (h : Tracks filters walker seeds found) (hkind : seedKind process seed = some .file) :
    Tracks filters walker (seeds ++ [seed]) (admitFileSeed process filters seed found) := by
  unfold admitFileSeed
  by_cases hincluded : filters.includes (fileSeedMatchPath process seed) = true
  · have hproduced : produced filters walker seed = [seed] := by
      rw [produced, hkind]
      exact if_pos hincluded
    rw [if_pos hincluded, SeedSet.pushExplicit]
    by_cases hseen : seed ∈ found.seen
    · rw [if_pos hseen]
      apply h.unchanged
      intro path hpath
      rw [hproduced] at hpath
      rw [List.mem_singleton.mp hpath]
      exact (h.seen seed).mp hseen
    · rw [if_neg hseen]
      have hnew : seed ∉ found.files := fun hin => hseen ((h.seen seed).mpr hin)
      refine ⟨?_, ?_, ?_, ?_⟩
      · intro path
        simp [h.seen path, or_comm]
      · exact List.nodup_append'.mpr ⟨h.nodup, List.nodup_singleton _, by simpa using hnew⟩
      · intro path
        rw [mem_produced_concat, ← h.files, List.mem_append, hproduced]
      · intro path
        rw [exists_split_concat, ← h.explicit, List.mem_cons, or_comm]
        refine or_congr_right ⟨?_, And.left⟩
        rintro rfl
        refine ⟨rfl, hkind, hproduced ▸ List.mem_singleton_self _, ?_⟩
        intro s hs hpath
        exact hnew ((h.files path).mpr ⟨s, hs, hpath⟩)
  · have hproduced : produced filters walker seed = [] := by
      rw [produced, hkind]
      exact if_neg hincluded
    rw [if_neg hincluded]
    apply h.unchanged
    rw [hproduced]
    intro path hpath
    cases hpath

theorem Tracks.dir {seeds : List Path} {seed : Path} {found : SeedSet}
    (h : Tracks filters walker seeds found) (hkind : seedKind process seed = some .dir) :
    Tracks filters walker (seeds ++ [seed])
      ((walkDirectorySeed filters walker seed).foldl SeedSet.pushWalked found) := by
  have hproduced : produced filters walker seed = walkDirectorySeed filters walker seed := by
    rw [produced, hkind]
  obtain ⟨hseen, hnodup, hfiles, hexplicit⟩ :=
    pushWalked_foldl found (walkDirectorySeed filters walker seed) h.seen h.nodup
  refine ⟨hseen, hnodup, ?_, ?_⟩
  · intro path
    rw [mem_produced_concat, ← h.files, hproduced]
    exact hfiles path
  · intro path
    rw [exists_split_concat, ← h.explicit, hexplicit]
    refine ⟨.inl, fun hor => hor.elim id ?_⟩
    rintro ⟨rfl, hfile, -⟩
    rw [hkind] at hfile
    cases hfile

/-- One seed adds its paths, and is explicit if it is a file that was not there. -/
theorem Tracks.step {seeds : List Path} {seed : Path} {found : SeedSet}
    (h : Tracks filters walker seeds found) (hexists : (seedKind process seed).isSome) :
    ∃ found', expandSeed filters walker found seed = some found' ∧
      Tracks filters walker (seeds ++ [seed]) found' := by
  obtain ⟨kind, hkind⟩ := Option.isSome_iff_exists.mp hexists
  unfold expandSeed
  rw [hkind]
  cases kind with
  | file => exact ⟨_, rfl, h.file hkind⟩
  | dir => exact ⟨_, rfl, h.dir hkind⟩

theorem Tracks.run {before seeds : List Path} {found : SeedSet}
    (h : Tracks filters walker before found)
    (hexists : ∀ seed ∈ seeds, (seedKind process seed).isSome) :
    ∃ found', seeds.foldlM (expandSeed filters walker) found = some found' ∧
      Tracks filters walker (before ++ seeds) found' := by
  induction seeds generalizing before found with
  | nil => exact ⟨found, rfl, by rwa [List.append_nil]⟩
  | cons seed seeds ih =>
    obtain ⟨next, hnext, htracks⟩ := h.step (hexists seed (List.mem_cons_self ..))
    obtain ⟨found', hrun, htracks'⟩ := ih htracks fun s hs => hexists s (List.mem_cons_of_mem _ hs)
    refine ⟨found', ?_, by rwa [List.append_assoc] at htracks'⟩
    rw [List.foldlM_cons, hnext]
    exact hrun

theorem tracks_empty : Tracks filters walker [] .empty where
  seen := fun _ => Iff.rfl
  nodup := List.nodup_nil
  files := fun path => by simp [SeedSet.empty]
  explicit := fun path => by simp [SeedSet.empty]

variable (process) in
/-- The seeds as the walk spells them. -/
def walkSeeds (paths : List PathBytes) : List Path := (typedSeeds paths).map (reanchorSeed process)

theorem exists_resolved {paths : List PathBytes}
    (hexists : ∀ seed ∈ typedSeeds paths, (seedKind process seed).isSome) :
    ∃ found, expandSeedPaths filters walker paths = some ⟨found.files, found.explicitFiles⟩ ∧
      Tracks filters walker (walkSeeds process paths) found := by
  have hwalk : ∀ seed ∈ walkSeeds process paths, (seedKind process seed).isSome := by
    intro seed hseed
    obtain ⟨typed, htyped, rfl⟩ := List.mem_map.mp hseed
    obtain ⟨kind, hkind⟩ := Option.isSome_iff_exists.mp (hexists typed htyped)
    obtain ⟨place, fileKind, hplace, hfile, -⟩ := seedKind_eq_some hkind
    rw [seedKind_of_locate (locate_reanchorSeed hplace) hfile]
    rfl
  have hempty : Tracks filters walker [] .empty := tracks_empty
  obtain ⟨found, hrun, htracks⟩ := hempty.run hwalk
  refine ⟨found, ?_, htracks⟩
  rw [expandSeedPaths, ← walkSeeds, hrun]
  rfl

/-! ### One place, one spelling -/

variable (filters walker)

/-- The seed makes the run ask for the file at a place. -/
def Admits (seed : Path) (place : List Name) : Prop :=
  ∃ path ∈ produced filters walker seed, process.locate path = some place

/-- One of the two seeds is the other followed by names. -/
def SpelledAlike (s t : Path) : Prop :=
  ∃ names : List Name, t = s ++ names.map .normal ∨ s = t ++ names.map .normal

variable {filters walker}

theorem map_normal_injective : Function.Injective (List.map Component.normal) :=
  List.map_injective_iff.mpr fun _ _ h => Component.normal.inj h

theorem names_of_append {u : Path} {names rest : List Name}
    (h : names.map Component.normal = u ++ rest.map .normal) :
    ∃ middle, u = middle.map .normal ∧ names = middle ++ rest := by
  obtain ⟨middle, rest', rfl, hmiddle, hrest⟩ := List.map_eq_append_iff.mp h
  obtain rfl := map_normal_injective hrest
  exact ⟨middle, hmiddle.symm, rfl⟩

/-- What leads from a seed to a file goes through a seed that is spelled behind it. -/
theorem spelled_behind {s : Path} {dir dir' rel rel' names : List Name}
    (hs : process.locate s = some dir)
    (ht : process.locate (s ++ names.map .normal) = some dir') (h : dir ++ rel = dir' ++ rel') :
    rel = names ++ rel' := by
  rw [process.locate_append hs] at ht
  rw [FileTree.eq_of_follow_names ht, List.append_assoc] at h
  exact List.append_cancel_left h

/-- Two seeds spell a file in one way exactly if one seed is the other followed by names. -/
theorem path_eq_iff {s t p q : Path} {place : List Name} (hp : p ∈ produced filters walker s)
    (hq : q ∈ produced filters walker t) (hlocate : process.locate p = some place)
    (hlocate' : process.locate q = some place) : p = q ↔ SpelledAlike s t := by
  obtain ⟨dir, rel, hs, rfl, hfile⟩ := exists_of_mem_produced filters walker hp
  obtain ⟨dir', rel', ht, rfl, hfile'⟩ := exists_of_mem_produced filters walker hq
  rw [locate_of_produced hs hfile] at hlocate
  rw [locate_of_produced ht hfile'] at hlocate'
  have hplace : dir ++ rel = dir' ++ rel' := Option.some.inj (hlocate.trans hlocate'.symm)
  constructor
  · intro heq
    rcases List.append_eq_append_iff.mp heq with ⟨u, rfl, hrel⟩ | ⟨u, rfl, hrel⟩
    · obtain ⟨middle, rfl, -⟩ := names_of_append hrel
      exact ⟨middle, .inl rfl⟩
    · obtain ⟨middle, rfl, -⟩ := names_of_append hrel
      exact ⟨middle, .inr rfl⟩
  · rintro ⟨names, rfl | rfl⟩
    · have hdir := spelled_behind hs ht hplace
      rw [hdir, List.map_append, List.append_assoc]
    · have hdir := spelled_behind ht hs hplace.symm
      rw [hdir, List.map_append, List.append_assoc]

/-! ### Every file once -/

variable (filters walker)

variable (process) in
/-- The paths that lead to a place. -/
def filesAt (files : List Path) (place : List Name) : List Path :=
  files.filter fun path => process.locate path = some place

variable (process) in
/-- Every admitted file is listed once, and is explicit if a seed names it. -/
def AnalysedOnce (paths : List PathBytes) (resolved : ResolvedFiles) : Prop :=
  (∀ place, (∃ seed ∈ walkSeeds process paths, Admits filters walker seed place) →
    (filesAt process resolved.files place).length = 1) ∧
  ∀ seed ∈ typedSeeds paths, ∀ place, seedKind process seed = some .file →
    process.locate seed = some place →
    (∃ s ∈ walkSeeds process paths, Admits filters walker s place) →
    ∃ path ∈ resolved.explicitFiles, process.locate path = some place

/-- Seeds that admit one file are spelled alike. -/
def OneSpelling (seeds : List Path) : Prop :=
  ∀ s ∈ seeds, ∀ t ∈ seeds, ∀ place, Admits filters walker s place →
    Admits filters walker t place → SpelledAlike s t

variable (process) in
/-- The first seed that admits a file named by a seed is a file seed. -/
def NamedFirst (paths : List PathBytes) : Prop :=
  ∀ seed ∈ typedSeeds paths, ∀ place, seedKind process seed = some .file →
    process.locate seed = some place →
    ∀ before first after, walkSeeds process paths = before ++ first :: after →
      Admits filters walker first place → (∀ s ∈ before, ¬ Admits filters walker s place) →
      seedKind process first = some .file

variable {filters walker}

theorem exists_first {α : Type*} {l : List α} {q : α → Prop} (h : ∃ a ∈ l, q a) :
    ∃ before a after, l = before ++ a :: after ∧ q a ∧ ∀ b ∈ before, ¬ q b := by
  induction l with
  | nil =>
    obtain ⟨a, ha, -⟩ := h
    cases ha
  | cons b l ih =>
    by_cases hb : q b
    · exact ⟨[], b, l, rfl, hb, fun c hc => by cases hc⟩
    · have htail : ∃ a ∈ l, q a := by
        obtain ⟨a, ha, hq⟩ := h
        rcases List.mem_cons.mp ha with rfl | ha
        · exact absurd hq hb
        · exact ⟨a, ha, hq⟩
      obtain ⟨before, a, after, rfl, hq, hbefore⟩ := ih htail
      refine ⟨b :: before, a, after, rfl, hq, ?_⟩
      intro c hc
      rcases List.mem_cons.mp hc with rfl | hc
      · exact hb
      · exact hbefore c hc

/-- Two places of one list: the same, or one behind the other. -/
theorem split_cases {α : Type*} {before before' after after' : List α} {a b : α}
    (h : before ++ a :: after = before' ++ b :: after') :
    a = b ∧ before = before' ∨ a ∈ before' ∨ b ∈ before := by
  rcases List.append_eq_append_iff.mp h with ⟨u, rfl, hu⟩ | ⟨u, rfl, hu⟩
  · cases u with
    | nil => exact .inl ⟨(List.cons_eq_cons.mp hu).1, (List.append_nil _).symm⟩
    | cons c u =>
      obtain ⟨rfl, -⟩ := List.cons_eq_cons.mp hu
      exact .inr (.inl (List.mem_append_right _ (List.mem_cons_self ..)))
  · cases u with
    | nil => exact .inl ⟨(List.cons_eq_cons.mp hu).1.symm, List.append_nil _⟩
    | cons c u =>
      obtain ⟨rfl, -⟩ := List.cons_eq_cons.mp hu
      exact .inr (.inr (List.mem_append_right _ (List.mem_cons_self ..)))

theorem length_eq_one {α : Type*} {l : List α} {a : α} (hnodup : l.Nodup) (ha : a ∈ l)
    (hall : ∀ b ∈ l, b = a) : l.length = 1 := by
  cases l with
  | nil => cases ha
  | cons b l =>
    cases l with
    | nil => rfl
    | cons c l =>
      have hb := hall b (List.mem_cons_self ..)
      have hc := hall c (List.mem_cons_of_mem _ (List.mem_cons_self ..))
      obtain ⟨hnot, -⟩ := List.nodup_cons.mp hnodup
      exact absurd (hb.trans hc.symm ▸ List.mem_cons_self ..) hnot

theorem mem_filesAt {files : List Path} {place : List Name} {path : Path} :
    path ∈ filesAt process files place ↔ path ∈ files ∧ process.locate path = some place := by
  rw [filesAt, List.mem_filter, decide_eq_true_iff]

/-- Every admitted file is listed once exactly if the seeds that admit it are spelled alike. -/
theorem Tracks.once_iff {seeds : List Path} {found : SeedSet}
    (h : Tracks filters walker seeds found) :
    (∀ place, (∃ seed ∈ seeds, Admits filters walker seed place) →
      (filesAt process found.files place).length = 1) ↔
      OneSpelling filters walker seeds := by
  constructor
  · rintro honce s hs t ht place ⟨p, hp, hlocate⟩ ⟨q, hq, hlocate'⟩
    refine (path_eq_iff hp hq hlocate hlocate').mp ?_
    obtain ⟨path, heq⟩ := List.length_eq_one_iff.mp (honce place ⟨s, hs, p, hp, hlocate⟩)
    have hin : ∀ r, (∃ seed ∈ seeds, r ∈ produced filters walker seed) →
        process.locate r = some place → r = path := by
      intro r hr hplace
      have hmem := mem_filesAt.mpr ⟨(h.files r).mpr hr, hplace⟩
      rw [heq] at hmem
      exact List.mem_singleton.mp hmem
    rw [hin p ⟨s, hs, hp⟩ hlocate, hin q ⟨t, ht, hq⟩ hlocate']
  · rintro hone place ⟨s, hs, p, hp, hlocate⟩
    apply length_eq_one (h.nodup.filter _) (mem_filesAt.mpr ⟨(h.files p).mpr ⟨s, hs, hp⟩, hlocate⟩)
    intro q hq
    obtain ⟨hmem, hlocate'⟩ := mem_filesAt.mp hq
    obtain ⟨t, ht, hq⟩ := (h.files q).mp hmem
    exact (path_eq_iff hq hp hlocate' hlocate).mpr
      (hone t ht s hs place ⟨q, hq, hlocate'⟩ ⟨p, hp, hlocate⟩)

theorem produced_of_admits {seed : Path} {place : List Name}
    (h : Admits filters walker seed place) (hkind : seedKind process seed = some .file) :
    seed ∈ produced filters walker seed ∧ process.locate seed = some place := by
  obtain ⟨path, hpath, hlocate⟩ := h
  have hmem := hpath
  unfold produced at hpath
  rw [hkind] at hpath
  dsimp only at hpath
  split_ifs at hpath
  · obtain rfl := List.mem_singleton.mp hpath
    exact ⟨hmem, hlocate⟩
  · cases hpath

/-- A file is explicit if the first seed that admits it is a file seed. -/
theorem Tracks.explicit_of_first {seeds before after : List Path} {first : Path} {found : SeedSet}
    {place : List Name} (h : Tracks filters walker seeds found)
    (hsplit : seeds = before ++ first :: after) (hfirst : Admits filters walker first place)
    (hbefore : ∀ s ∈ before, ¬ Admits filters walker s place)
    (hkind : seedKind process first = some .file) :
    ∃ path ∈ found.explicitFiles, process.locate path = some place := by
  obtain ⟨hmem, hlocate⟩ := produced_of_admits hfirst hkind
  refine ⟨first, ?_, hlocate⟩
  refine (h.explicit first).mpr ⟨before, after, hsplit, hkind, hmem, ?_⟩
  intro s hs hpath
  exact hbefore s hs ⟨first, hpath, hlocate⟩

/-- Where seeds are spelled alike, only such a file is explicit. -/
theorem Tracks.first_of_explicit {seeds before after : List Path} {first path : Path}
    {found : SeedSet} {place : List Name} (h : Tracks filters walker seeds found)
    (hone : OneSpelling filters walker seeds) (hsplit : seeds = before ++ first :: after)
    (hfirst : Admits filters walker first place)
    (hbefore : ∀ s ∈ before, ¬ Admits filters walker s place)
    (hpath : path ∈ found.explicitFiles) (hlocate : process.locate path = some place) :
    seedKind process first = some .file := by
  obtain ⟨before', after', hsplit', hkind, hmem, hnone⟩ := (h.explicit path).mp hpath
  rcases split_cases (hsplit.symm.trans hsplit') with ⟨rfl, -⟩ | hin | hin
  · exact hkind
  · -- the first seed would have listed the path already
    obtain ⟨q, hq, hlocate'⟩ := hfirst
    have halike := hone path (hsplit' ▸ List.mem_append_right _ (List.mem_cons_self ..)) first
      (hsplit ▸ List.mem_append_right _ (List.mem_cons_self ..)) place ⟨path, hmem, hlocate⟩
      ⟨q, hq, hlocate'⟩
    have heq := (path_eq_iff hmem hq hlocate hlocate').mpr halike
    exact absurd (heq ▸ hq) (hnone first hin)
  · exact absurd ⟨path, hmem, hlocate⟩ (hbefore path hin)

/-- A run over seeds that exist lists every admitted file once, and the named ones as explicit,
exactly if seeds that admit one file are spelled alike and the first seed that admits a file some
seed names is a file seed. -/
theorem analysed_once_iff (paths : List PathBytes)
    (hexists : ∀ seed ∈ typedSeeds paths, (seedKind process seed).isSome) :
    ∃ resolved, expandSeedPaths filters walker paths = some resolved ∧
      (AnalysedOnce process filters walker paths resolved ↔
        OneSpelling filters walker (walkSeeds process paths) ∧
          NamedFirst process filters walker paths) := by
  obtain ⟨found, hrun, htracks⟩ := exists_resolved hexists
  refine ⟨_, hrun, ?_⟩
  constructor
  · rintro ⟨honce, hexplicit⟩
    have hone := htracks.once_iff.mp honce
    refine ⟨hone, ?_⟩
    intro seed hseed place hkind hplace before first after hsplit hfirst hbefore
    have hmem : first ∈ walkSeeds process paths :=
      hsplit ▸ List.mem_append_right _ (List.mem_cons_self ..)
    obtain ⟨path, hpath, hlocate⟩ := hexplicit seed hseed place hkind hplace ⟨first, hmem, hfirst⟩
    exact htracks.first_of_explicit hone hsplit hfirst hbefore hpath hlocate
  · rintro ⟨hone, hnamed⟩
    refine ⟨htracks.once_iff.mpr hone, ?_⟩
    intro seed hseed place hkind hplace hadmitted
    obtain ⟨before, first, after, hsplit, hfirst, hbefore⟩ := exists_first hadmitted
    exact htracks.explicit_of_first hsplit hfirst hbefore
      (hnamed seed hseed place hkind hplace before first after hsplit hfirst hbefore)

/-! ### A working directory and its subdirectory -/

def ascii (text : String) : Name := text.toList.map fun c => UInt8.ofNat c.toNat

/-- The one file of a small tree. -/
def onlyFile : List Name := [ascii "repo", ascii "src", ascii "f.rs"]

def smallTree : FileTree where
  kind place :=
    if place = onlyFile then some .file
    else if place ∈ [[], [ascii "repo"], [ascii "repo", ascii "src"]] then some .dir
    else none
  root := by decide
  parent := by
    intro place name h
    have hplace : place = (place ++ [name]).dropLast := List.dropLast_concat.symm
    by_cases hfile : place ++ [name] = onlyFile
    · rw [hplace, hfile]
      decide
    · rw [if_neg hfile] at h
      split_ifs at h with hdir
      · simp only [List.mem_cons, List.not_mem_nil, or_false] at hdir
        rcases hdir with heq | heq | heq
        · exact absurd heq (List.append_ne_nil_of_right_ne_nil _ (List.cons_ne_nil _ _))
        · rw [hplace, heq]
          decide
        · rw [hplace, heq]
          decide
      · cases h

def smallProcess : Process where
  tree := smallTree
  cwd := [ascii "repo"]
  currentDir := some (absolute [ascii "repo"])
  cwd_dir := by decide
  currentDir_eq := fun _ h => (Option.some.inj h).symm

/-- What remains of the only file beneath a place. -/
def onlyBeneath (place : List Name) : List (List Name) :=
  if place <+: onlyFile then [onlyFile.drop place.length] else []

def smallWalker : DirWalker smallProcess where
  entries seed :=
    match smallProcess.locate seed with
    | some place => (onlyBeneath place).map fun rel => .entry (seed ++ rel.map .normal) (some .file)
    | none => []
  spec := by
    intro seed place hplace _
    refine ⟨onlyBeneath place, ?_, ?_, ?_⟩
    · unfold onlyBeneath
      split_ifs
      · exact List.nodup_singleton _
      · exact List.nodup_nil
    · intro rel hrel
      unfold onlyBeneath at hrel
      split_ifs at hrel with hbeneath
      · rw [List.mem_singleton.mp hrel, List.prefix_iff_eq_append.mp hbeneath]
        decide
      · cases hrel
    · rw [hplace]
      dsimp only
      rw [List.filterMap_map]
      exact congrFun List.filterMap_eq_map (onlyBeneath place)

/-- No globs. -/
def noFilters : WalkFilters where
  include_ := ⟨true, fun _ => false⟩
  excludes := ⟨⟨true, fun _ => false⟩, ⟨true, fun _ => false⟩, ⟨none, absolute [ascii "repo"], none⟩⟩

/-- A file named before its directory. -/
theorem analysed_once_named : ∃ resolved,
    expandSeedPaths noFilters smallWalker [ascii "src/f.rs", ascii "src"] = some resolved ∧
      AnalysedOnce smallProcess noFilters smallWalker [ascii "src/f.rs", ascii "src"] resolved := by
  have hseeds : walkSeeds smallProcess [ascii "src/f.rs", ascii "src"] =
      [[.normal (ascii "src"), .normal (ascii "f.rs")], [.normal (ascii "src")]] := by
    decide +kernel
  obtain ⟨resolved, hrun, hiff⟩ := @analysed_once_iff smallProcess noFilters smallWalker
    [ascii "src/f.rs", ascii "src"] (by decide +kernel)
  refine ⟨resolved, hrun, hiff.mpr ⟨?_, ?_⟩⟩
  · rw [hseeds]
    intro s hs t ht _ _ _
    simp only [List.mem_cons, List.not_mem_nil, or_false] at hs ht
    rcases hs with rfl | rfl <;> rcases ht with rfl | rfl
    · exact ⟨[], .inl rfl⟩
    · exact ⟨[ascii "f.rs"], .inr rfl⟩
    · exact ⟨[ascii "f.rs"], .inl rfl⟩
    · exact ⟨[], .inl rfl⟩
  · intro seed hseed place hkind hplace before first after hsplit hfirst hbefore
    rw [hseeds] at hsplit
    have htyped : seed = [.normal (ascii "src"), .normal (ascii "f.rs")] := by
      have hboth : typedSeeds [ascii "src/f.rs", ascii "src"] =
          [[.normal (ascii "src"), .normal (ascii "f.rs")], [.normal (ascii "src")]] := by
        decide +kernel
      rw [hboth] at hseed
      simp only [List.mem_cons, List.not_mem_nil, or_false] at hseed
      rcases hseed with rfl | rfl
      · rfl
      · exact absurd hkind (by decide +kernel)
    subst htyped
    cases before with
    | nil =>
      obtain ⟨rfl, -⟩ := List.cons_eq_cons.mp hsplit
      exact hkind
    | cons s before =>
      obtain ⟨rfl, -⟩ := List.cons_eq_cons.mp hsplit
      refine absurd ?_ (hbefore _ (List.mem_cons_self ..))
      exact ⟨_, by decide +kernel, hplace⟩

/-- The working directory and its subdirectory give one file two spellings. -/
theorem analysed_twice : ¬ ∀ (process : Process) (filters : WalkFilters) (walker : DirWalker process)
    (paths : List PathBytes), (∀ seed ∈ typedSeeds paths, (seedKind process seed).isSome) →
    ∃ resolved, expandSeedPaths filters walker paths = some resolved ∧
      AnalysedOnce process filters walker paths resolved := by
  intro h
  obtain ⟨resolved, hrun, honce, -⟩ :=
    h smallProcess noFilters smallWalker [ascii ".", ascii "src"] (by decide +kernel)
  have hfiles : expandSeedPaths noFilters smallWalker [ascii ".", ascii "src"] =
      some ⟨[[.curDir, .normal (ascii "src"), .normal (ascii "f.rs")],
        [.normal (ascii "src"), .normal (ascii "f.rs")]], []⟩ := by decide +kernel
  rw [hfiles] at hrun
  cases hrun
  have hadmitted : ∃ seed ∈ walkSeeds smallProcess [ascii ".", ascii "src"],
      Admits noFilters smallWalker seed onlyFile := by
    refine ⟨[.normal (ascii "src")], by decide +kernel, ?_⟩
    exact ⟨[.normal (ascii "src"), .normal (ascii "f.rs")], by decide +kernel, by decide +kernel⟩
  have htwo := honce onlyFile hadmitted
  revert htwo
  decide +kernel

end BigCodeAnalysis.Walk
