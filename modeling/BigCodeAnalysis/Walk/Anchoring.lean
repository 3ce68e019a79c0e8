import BigCodeAnalysis.Walk.SeedFiles

/-! The form of a path after the walk against the form the walk matched it in. After the walk the
seed that admitted a path is forgotten, and the first seed that holds the path stands in for it. -/

namespace BigCodeAnalysis.Walk

open Baseline (PathBytes Component components)

variable {process : Process} {filters : WalkFilters} {walker : DirWalker process}

/-! ### Dots and roots stand first -/

/-- Only the first component is a root or a dot. -/
def Proper (path : Path) : Prop := ∀ c ∈ path.tail, c ≠ .rootDir ∧ c ≠ .curDir

/-- No component is a root or a dot. -/
def Plain (path : Path) : Prop := ∀ c ∈ path, c ≠ .rootDir ∧ c ≠ .curDir

theorem plain_names (names : List Name) : Plain (names.map .normal) := by
  intro c hc
  obtain ⟨name, -, rfl⟩ := List.mem_map.mp hc
  exact ⟨Component.noConfusion, Component.noConfusion⟩

theorem Plain.proper {path : Path} (h : Plain path) : Proper path :=
  fun c hc => h c (List.mem_of_mem_tail hc)

theorem plain_filterMap (names : List PathBytes) : Plain (names.filterMap Component.ofName) := by
  intro c hc
  obtain ⟨name, -, hname⟩ := List.mem_filterMap.mp hc
  unfold Component.ofName at hname
  split_ifs at hname
  · obtain rfl := Option.some.inj hname
    exact ⟨Component.noConfusion, Component.noConfusion⟩
  · obtain rfl := Option.some.inj hname
    exact ⟨Component.noConfusion, Component.noConfusion⟩

theorem proper_components (text : PathBytes) : Proper (components text) := by
  unfold components
  have hplain := plain_filterMap (Baseline.names text)
  split_ifs
  · exact fun c hc => hplain c hc
  · exact fun c hc => hplain c hc
  · exact hplain.proper

theorem proper_typedSeeds {paths : List PathBytes} {seed : Path} (h : seed ∈ typedSeeds paths) :
    Proper seed := by
  unfold typedSeeds at h
  split_ifs at h
  · obtain rfl := List.mem_singleton.mp h
    intro c hc
    cases hc
  · obtain ⟨text, -, rfl⟩ := List.mem_map.mp h
    exact proper_components text

/-- What stands behind a part of a proper path is plain. -/
theorem Proper.plain_suffix {base rel : Path} (h : Proper (base ++ rel)) (hne : base ≠ []) :
    Plain rel := by
  intro c hc
  apply h
  rw [List.tail_append_of_ne_nil hne]
  exact List.mem_append_right _ hc

theorem stripCurDir_plain {path : Path} (h : Plain path) : stripCurDir path = path := by
  have hnone : stripPrefix path [.curDir] = none := by
    unfold stripPrefix
    apply if_neg
    rintro ⟨rest, rfl⟩
    exact (h .curDir (List.mem_cons_self ..)).2 rfl
  rw [stripCurDir, hnone]
  rfl

theorem stripCurDir_absolute {path : Path} (h : isAbsolute path = true) :
    stripCurDir path = path := by
  have hnone : stripPrefix path [.curDir] = none := by
    unfold stripPrefix
    apply if_neg
    rintro ⟨rest, rfl⟩
    cases h
  rw [stripCurDir, hnone]
  rfl

/-- The form that a seed makes of a path behind it, without the dot. -/
theorem stripCurDir_matchPathFor {seed rel : Path} (h : Plain rel) :
    stripCurDir (matchPathFor seed (seed ++ rel)) = rel := by
  have hnot : ¬ (isAbsolute rel = true ∨ ([.curDir] : Path) = []) := by
    rintro (habs | hnil)
    · cases rel with
      | nil => cases habs
      | cons c rel =>
        exact (h c (List.mem_cons_self ..)).1 (Option.some.inj (of_decide_eq_true habs))
    · cases hnil
  have hdrop : rel.dropWhile (· = .curDir) = rel := by
    cases rel with
    | nil => rfl
    | cons c rel =>
      apply List.dropWhile_cons_of_neg
      simpa using (h c (List.mem_cons_self ..)).2
  rw [matchPathFor, stripPrefix_append]
  show stripCurDir (join [.curDir] rel) = rel
  rw [join, if_neg hnot, hdrop, stripCurDir, stripPrefix_append]
  rfl

/-! ### Re-anchored seeds -/

theorem plain_relativeTail {path rel : Path} (hproper : Proper path)
    (h : relativeTail process path (absolute process.cwd) = some rel) : Plain rel := by
  rcases relativeTail_cases h with rfl | ⟨names, rfl, -⟩
  · exact hproper.plain_suffix (List.cons_ne_nil _ _)
  · exact plain_names names

/-- What remains of the working directory itself. -/
theorem relativeTail_of_locate {path : Path} (h : process.locate path = some process.cwd) :
    (relativeTail process path (absolute process.cwd)).isSome := by
  rw [relativeTail, relativeTailVia, Option.bind_none, Option.none_or, Option.none_or,
    Process.canonicalize, h, Option.map_some, Option.bind_some]
  have hself : stripPrefix (absolute process.cwd) (absolute process.cwd) = some [] :=
    stripPrefix_eq_some.mpr (List.append_nil _).symm
  rw [hself, Option.some_or, Option.or_some]
  rfl

/-- A re-anchored seed is proper, and if it is absolute it does not lead to the working
directory. -/
theorem proper_reanchorSeed {seed : Path} (h : Proper seed) :
    Proper (reanchorSeed process seed) := by
  unfold reanchorSeed
  split_ifs
  · exact h
  · exact h
  · cases hcwd : process.currentDir with
    | none => exact h
    | some cwd =>
      obtain rfl := process.currentDir_eq cwd hcwd
      dsimp only
      cases htail : relativeTail process seed (absolute process.cwd) with
      | none => exact h
      | some rel =>
        have hplain := plain_relativeTail h htail
        cases rel with
        | nil =>
          intro c hc
          cases hc
        | cons c rel => exact hplain.proper

theorem reanchorSeed_ne_cwd {seed : Path} (hproper : Proper seed) {cwd : Path}
    (hcwd : process.currentDir = some cwd)
    (habsolute : isAbsolute (reanchorSeed process seed) = true) :
    process.locate (reanchorSeed process seed) ≠ some process.cwd := by
  obtain rfl := process.currentDir_eq cwd hcwd
  intro hlocate
  revert habsolute hlocate
  unfold reanchorSeed
  rw [hcwd]
  split_ifs with hrelative hdir
  · intro habsolute
    rw [habsolute] at hrelative
    cases hrelative
  · intro _ hlocate
    rw [isDir, hlocate, Option.bind_some, process.cwd_dir] at hdir
    exact absurd hdir (by decide)
  · dsimp only
    cases htail : relativeTail process seed (absolute process.cwd) with
    | none =>
      intro _ hlocate
      have hsome := relativeTail_of_locate hlocate
      rw [htail] at hsome
      cases hsome
    | some rel =>
      have hplain := plain_relativeTail hproper htail
      cases rel with
      | nil =>
        intro habsolute
        cases habsolute
      | cons c rel =>
        intro habsolute
        have hroot := (hplain c (List.mem_cons_self ..)).1
        exact absurd (Option.some.inj (of_decide_eq_true habsolute)) hroot

/-! ### The first seed that holds a path -/

/-- Whether a path lies strictly beneath a seed, as both are spelled. -/
def holds (path seed : Path) : Bool :=
  match stripPrefix path seed with
  | some (_ :: _) => true
  | _ => false

theorem holds_iff {path seed : Path} :
    holds path seed = true ↔ ∃ rel, rel ≠ [] ∧ path = seed ++ rel := by
  unfold holds
  cases h : stripPrefix path seed with
  | none =>
    constructor
    · intro hfalse
      cases hfalse
    · rintro ⟨rel, -, rfl⟩
      rw [stripPrefix_append] at h
      cases h
  | some rel =>
    have heq := stripPrefix_eq_some.mp h
    cases rel with
    | nil =>
      constructor
      · intro hfalse
        cases hfalse
      · rintro ⟨rel', hne, heq'⟩
        exact absurd (List.append_cancel_left (heq.symm.trans heq')).symm hne
    | cons c rel => exact ⟨fun _ => ⟨c :: rel, List.cons_ne_nil _ _, heq⟩, fun _ => rfl⟩

theorem anchorAgainstSeeds_eq (seeds : List Path) (path : Path) :
    anchorAgainstSeeds process seeds path =
      ((seeds.find? (holds path)).map fun seed => matchPathFor seed path).getD
        (fileSeedMatchPath process path) := by
  unfold anchorAgainstSeeds
  congr 1
  induction seeds with
  | nil => rfl
  | cons seed seeds ih =>
    rw [List.findSome?_cons, List.find?_cons, ih]
    unfold holds
    cases stripPrefix path seed with
    | none => rfl
    | some rel => cases rel <;> rfl

variable (process) in
/-- The form in which the walk matched a path against its globs. -/
def walkForm (seed path : Path) : Path :=
  if seedKind process seed = some .file then fileSeedMatchPath process path
  else matchPathFor seed path

variable (filters walker) in
/-- The seed that listed a path: the first that asks for it. -/
def AdmittedBy (seeds : List Path) (path seed : Path) : Prop :=
  ∃ before after, seeds = before ++ seed :: after ∧ path ∈ produced filters walker seed ∧
    ∀ s ∈ before, path ∉ produced filters walker s

/-- What the walk asked of a path of a seed. -/
theorem admitted_form {seed path : Path} (h : path ∈ produced filters walker seed) :
    if seedKind process seed = some .file then
      filters.includes (walkForm process seed path) = true
    else filters.passes process path (walkForm process seed path) = true := by
  unfold produced at h
  unfold walkForm
  cases hkind : seedKind process seed with
  | none => rw [hkind] at h; cases h
  | some kind =>
    rw [hkind] at h
    cases kind with
    | file =>
      dsimp only at h
      split_ifs at h with hincluded
      · rw [List.mem_singleton.mp h, if_pos rfl, if_pos rfl]
        exact hincluded
      · cases h
    | dir =>
      rw [if_neg (by decide), if_neg (by decide)]
      have hvisited := (List.mergeSort_perm _ _).mem_iff.mp h
      obtain ⟨e, -, hvisit⟩ := List.mem_filterMap.mp hvisited
      cases e with
      | error => cases hvisit
      | entry path' fileType =>
        cases fileType with
        | none => cases hvisit
        | some fileKind =>
          cases fileKind with
          | file =>
            unfold visitWalkEntry at hvisit
            dsimp only at hvisit
            split_ifs at hvisit with hpasses
            obtain rfl := Option.some.inj hvisit
            exact hpasses
          | dir => cases hvisit
          | other => cases hvisit

theorem proper_of_produced {seed path : Path} (hseed : Proper seed)
    (h : path ∈ produced filters walker seed) : Proper path := by
  obtain ⟨place, rel, hplace, rfl, -⟩ := exists_of_mem_produced filters walker h
  intro c hc
  rw [List.tail_append_of_ne_nil (process.ne_nil_of_locate hplace)] at hc
  rcases List.mem_append.mp hc with hc | hc
  · exact hseed c hc
  · exact plain_names rel c hc

/-- A walked path lies strictly beneath its seed. -/
theorem names_of_walked {seed path : Path} (h : path ∈ produced filters walker seed)
    (hkind : seedKind process seed ≠ some .file) :
    ∃ names : List Name, names ≠ [] ∧ path = seed ++ names.map .normal := by
  obtain ⟨place, rel, hplace, rfl, hfile⟩ := exists_of_mem_produced filters walker h
  refine ⟨rel, ?_, rfl⟩
  rintro rfl
  rw [List.append_nil] at hfile
  exact hkind (seedKind_of_locate hplace hfile)

variable (process) in
/-- The form of a path that a seed holds, without the dot, is what stands behind the seed. -/
theorem exists_rel_of_find {seeds : List Path} {path t : Path} (hproper : Proper path)
    (hne : ∀ s ∈ seeds, s ≠ []) (h : seeds.find? (holds path) = some t) :
    ∃ rel, path = t ++ rel ∧ t ≠ [] ∧ Plain rel ∧
      stripCurDir (anchorAgainstSeeds process seeds path) = rel := by
  obtain ⟨rel, -, rfl⟩ := holds_iff.mp (List.find?_some h)
  have ht := hne t (List.mem_of_find?_eq_some h)
  have hplain := hproper.plain_suffix ht
  refine ⟨rel, rfl, ht, hplain, ?_⟩
  rw [anchorAgainstSeeds_eq, h]
  exact stripCurDir_matchPathFor hplain

theorem walked_agrees_iff {seeds : List Path} {seed path : Path} (hseed : seed ∈ seeds)
    (hproper : Proper path) (hne : ∀ s ∈ seeds, s ≠ [])
    (hproduced : path ∈ produced filters walker seed)
    (hkind : seedKind process seed ≠ some .file) :
    stripCurDir (anchorAgainstSeeds process seeds path) = stripCurDir (walkForm process seed path) ↔
      seeds.find? (holds path) = some seed := by
  obtain ⟨names, hnames, hpath⟩ := names_of_walked hproduced hkind
  have hform : stripCurDir (walkForm process seed path) = names.map .normal := by
    rw [walkForm, if_neg hkind, hpath]
    exact stripCurDir_matchPathFor (plain_names names)
  have hholds : holds path seed = true :=
    holds_iff.mpr ⟨_, by simpa using hnames, hpath⟩
  cases hfind : seeds.find? (holds path) with
  | none => exact absurd hholds (List.find?_eq_none.mp hfind seed hseed)
  | some t =>
    obtain ⟨rel, hrel, -, -, hanchor⟩ := exists_rel_of_find process hproper hne hfind
    rw [hanchor, hform]
    have hboth : t ++ rel = seed ++ names.map .normal := hrel.symm.trans hpath
    constructor
    · rintro rfl
      rw [List.append_cancel_right hboth]
    · intro hsome
      obtain rfl := Option.some.inj hsome
      exact List.append_cancel_left hboth

/-- Without its dot a relative path is what stands behind a seed only if the seed is the dot. -/
theorem stripCurDir_relative_iff {t rel : Path} (ht : t ≠ []) :
    stripCurDir (t ++ rel) = rel ↔ t = [.curDir] := by
  have hlong : t ++ rel ≠ rel := by
    intro h
    exact ht (List.append_left_eq_self.mp h)
  unfold stripCurDir
  cases hstrip : stripPrefix (t ++ rel) [.curDir] with
  | none =>
    rw [Option.getD_none]
    constructor
    · intro h
      exact absurd h hlong
    · rintro rfl
      rw [stripPrefix_append] at hstrip
      cases hstrip
  | some rest =>
    have heq := stripPrefix_eq_some.mp hstrip
    rw [Option.getD_some]
    constructor
    · rintro rfl
      exact List.append_cancel_right heq
    · rintro rfl
      exact (List.append_cancel_left heq).symm

/-- No seed that holds an absolute path is the directory its form is relative to. -/
theorem absolute_form_ne {t rel : Path} {place : List Name}
    (habsolute : isAbsolute (t ++ rel) = true) (ht : t ≠ []) (hproper : Proper (t ++ rel))
    (hplace : process.locate (t ++ rel) = some place)
    (hcwd : ∀ cwd, process.currentDir = some cwd → process.locate t ≠ some process.cwd) :
    stripCurDir (fileSeedMatchPath process (t ++ rel)) ≠ rel := by
  have hspelled : stripCurDir (t ++ rel) ≠ rel := by
    rw [stripCurDir_absolute habsolute]
    intro h
    exact ht (List.append_left_eq_self.mp h)
  unfold fileSeedMatchPath
  rw [habsolute, if_neg (by decide)]
  cases hcurrent : process.currentDir with
  | none => exact hspelled
  | some cwd =>
    obtain rfl := process.currentDir_eq cwd hcurrent
    dsimp only
    cases htail : relativeTail process (t ++ rel) (absolute process.cwd) with
    | none => exact hspelled
    | some tail =>
      cases tail with
      | nil => exact hspelled
      | cons c tail =>
        show stripCurDir (c :: tail) ≠ rel
        rw [stripCurDir_plain (plain_relativeTail hproper htail)]
        rintro rfl
        rcases relativeTail_cases htail with hlexical | ⟨names, hnames, hlocate⟩
        · have hroot := List.append_cancel_right hlexical
          exact hcwd _ hcurrent (hroot ▸ locate_cwd)
        · -- the place of the seed is the working directory, since the same names lead on
          rw [hnames] at hlocate
          have hdir : process.locate t = some process.cwd := by
            cases hlocated : process.locate t with
            | none =>
              rw [Process.locate, if_neg ht] at hlocated
              rw [Process.locate, if_neg (List.append_ne_nil_of_left_ne_nil ht _),
                FileTree.follow_append, hlocated] at hlocate
              cases hlocate
            | some dir =>
              rw [process.locate_append hlocated] at hlocate
              have hsame := FileTree.eq_of_follow_names hlocate
              rw [List.append_cancel_right hsame]
          exact hcwd _ hcurrent hdir

theorem named_agrees_iff {paths : List PathBytes} {path : Path} {place : List Name}
    (hproper : Proper path) (hplace : process.locate path = some place)
    (hne : ∀ s ∈ walkSeeds process paths, s ≠ [])
    (hkind : seedKind process path = some .file) :
    stripCurDir (anchorAgainstSeeds process (walkSeeds process paths) path) =
        stripCurDir (walkForm process path path) ↔
      ∀ t, (walkSeeds process paths).find? (holds path) = some t → t = [.curDir] := by
  rw [walkForm, if_pos hkind]
  cases hfind : (walkSeeds process paths).find? (holds path) with
  | none =>
    rw [anchorAgainstSeeds_eq, hfind]
    constructor
    · intro _ t ht
      cases ht
    · intro _
      rfl
  | some t =>
    obtain ⟨rel, rfl, ht, -, hanchor⟩ := exists_rel_of_find process hproper hne hfind
    have hiff : stripCurDir (fileSeedMatchPath process (t ++ rel)) = rel ↔ t = [.curDir] := by
      cases habsolute : isAbsolute (t ++ rel) with
      | false =>
        rw [fileSeedMatchPath, habsolute]
        exact stripCurDir_relative_iff ht
      | true =>
        have hroot : isAbsolute t = true := by
          cases t with
          | nil => exact absurd rfl ht
          | cons c t => exact habsolute
        have hcwd : ∀ cwd, process.currentDir = some cwd → process.locate t ≠ some process.cwd := by
          intro cwd hcurrent
          obtain ⟨typed, htyped, rfl⟩ := List.mem_map.mp (List.mem_of_find?_eq_some hfind)
          exact reanchorSeed_ne_cwd (proper_typedSeeds htyped) hcurrent hroot
        constructor
        · intro h
          exact absurd h (absolute_form_ne habsolute ht hproper hplace hcwd)
        · rintro rfl
          cases hroot
    rw [hanchor, eq_comm, hiff]
    constructor
    · rintro rfl t' ht'
      exact (Option.some.inj ht').symm
    · intro h
      exact h t rfl

/-- After the walk every path of the run has the form in which the walk admitted it exactly if the
first seed that holds the path is the directory seed that listed it, or, for a path that a seed
names, if no seed holds it or the first one that does is the dot. -/
theorem anchoring_agrees_iff (paths : List PathBytes)
    (hexists : ∀ seed ∈ typedSeeds paths, (seedKind process seed).isSome) :
    ∃ resolved, expandSeedPaths filters walker paths = some resolved ∧
      (∀ path, path ∈ resolved.files ↔
        ∃ seed, AdmittedBy filters walker (walkSeeds process paths) path seed) ∧
      ∀ path seed, AdmittedBy filters walker (walkSeeds process paths) path seed →
        (if seedKind process seed = some .file then
          filters.includes (walkForm process seed path) = true
        else filters.passes process path (walkForm process seed path) = true) ∧
        (stripCurDir (anchorAgainstSeeds process (walkSeeds process paths) path) =
            stripCurDir (walkForm process seed path) ↔
          if seedKind process seed = some .file then
            ∀ t, (walkSeeds process paths).find? (holds path) = some t → t = [.curDir]
          else (walkSeeds process paths).find? (holds path) = some seed) := by
  obtain ⟨found, hrun, htracks⟩ := @exists_resolved process filters walker paths hexists
  have hne : ∀ s ∈ walkSeeds process paths, s ≠ [] := by
    intro s hs
    obtain ⟨typed, htyped, rfl⟩ := List.mem_map.mp hs
    obtain ⟨kind, hkind⟩ := Option.isSome_iff_exists.mp (hexists typed htyped)
    obtain ⟨place, fileKind, hplace, -⟩ := seedKind_eq_some hkind
    exact process.ne_nil_of_locate (locate_reanchorSeed hplace)
  refine ⟨_, hrun, ?_, ?_⟩
  · intro path
    refine (htracks.files path).trans ⟨?_, ?_⟩
    · intro hproduced
      obtain ⟨before, seed, after, hsplit, hown, hbefore⟩ := exists_first hproduced
      exact ⟨seed, before, after, hsplit, hown, hbefore⟩
    · rintro ⟨seed, before, after, hsplit, hown, -⟩
      exact ⟨seed, hsplit ▸ List.mem_append_right _ (List.mem_cons_self ..), hown⟩
  · rintro path seed ⟨before, after, hsplit, hproduced, -⟩
    refine ⟨admitted_form hproduced, ?_⟩
    have hseed : seed ∈ walkSeeds process paths :=
      hsplit ▸ List.mem_append_right _ (List.mem_cons_self ..)
    have hproper : Proper path := by
      obtain ⟨typed, htyped, rfl⟩ := List.mem_map.mp hseed
      exact proper_of_produced (proper_reanchorSeed (proper_typedSeeds htyped)) hproduced
    by_cases hkind : seedKind process seed = some .file
    · rw [if_pos hkind]
      obtain ⟨place, rel, hplace, hpath, hfile⟩ := exists_of_mem_produced filters walker hproduced
      have hsame : path = seed := by
        have hmem := hproduced
        unfold produced at hmem
        rw [hkind] at hmem
        dsimp only at hmem
        split_ifs at hmem
        · exact List.mem_singleton.mp hmem
        · cases hmem
      subst hsame
      exact named_agrees_iff hproper hplace hne hkind
    · rw [if_neg hkind]
      exact walked_agrees_iff hseed hproper hne hproduced hkind

theorem anchoring_agrees_walked :
    stripCurDir (anchorAgainstSeeds smallProcess (walkSeeds smallProcess [ascii "src"])
        [.normal (ascii "src"), .normal (ascii "f.rs")]) =
      stripCurDir (walkForm smallProcess [.normal (ascii "src")]
        [.normal (ascii "src"), .normal (ascii "f.rs")]) := by
  obtain ⟨-, -, -, hforms⟩ :=
    @anchoring_agrees_iff smallProcess noFilters smallWalker [ascii "src"] (by decide +kernel)
  have hadmitted : AdmittedBy noFilters smallWalker (walkSeeds smallProcess [ascii "src"])
      [.normal (ascii "src"), .normal (ascii "f.rs")] [.normal (ascii "src")] := by
    refine ⟨[], [], by decide +kernel, by decide +kernel, ?_⟩
    intro s hs
    cases hs
  obtain ⟨-, hagree⟩ := hforms _ _ hadmitted
  exact hagree.mpr (by decide +kernel)

/-- A file named before its directory is matched as it is spelled in the walk, and beneath the
directory after it. -/
theorem forms_differ : ¬ ∀ (process : Process) (filters : WalkFilters) (walker : DirWalker process)
    (paths : List PathBytes), (∀ seed ∈ typedSeeds paths, (seedKind process seed).isSome) →
    ∀ path seed, AdmittedBy filters walker (walkSeeds process paths) path seed →
      stripCurDir (anchorAgainstSeeds process (walkSeeds process paths) path) =
        stripCurDir (walkForm process seed path) := by
  intro h
  have hadmitted : AdmittedBy noFilters smallWalker
      (walkSeeds smallProcess [ascii "src/f.rs", ascii "src"])
      [.normal (ascii "src"), .normal (ascii "f.rs")]
      [.normal (ascii "src"), .normal (ascii "f.rs")] := by
    refine ⟨[], [[.normal (ascii "src")]], by decide +kernel, by decide +kernel, ?_⟩
    intro s hs
    cases hs
  have hforms := h smallProcess noFilters smallWalker [ascii "src/f.rs", ascii "src"]
    (by decide +kernel) _ _ hadmitted
  revert hforms
  decide +kernel

end BigCodeAnalysis.Walk
