import BigCodeAnalysis.Output.OffenderRecord
import BigCodeAnalysis.Preproc.IncludeClosure
import BigCodeAnalysis.Walk.Anchoring

/-! Which file an include is taken to name: the only file of its name, or the one it leads to from
the directory of the including file, or the only one that ends in it, or the only one beneath that
directory, or the nearest ones. The answers are the same whatever order the files were walked in.
The rest is about runs over the same files, in whatever order the maps are walked, and about the
macros that a file sees after one. -/

namespace BigCodeAnalysis.Preproc

open Baseline (PathBytes Component components render)
open Graphs
open Output (pathToStr)
open Relation (ReflTransGen TransGen)
open Walk (Path componentRank join stripPrefix)

/-! ### Where an include leads -/

/-- `Path::parent` -/
def parent (path : Path) : Option Path :=
  match path.getLast? with
  | none | some .rootDir => none
  | some _ => some path.dropLast

/-- `Path::file_name` -/
def fileName (path : Path) : Option PathBytes :=
  match path.getLast? with
  | some (.normal name) => some name
  | _ => none

def normalizeStep (out : Path) : Component → Path
  | .rootDir => [.rootDir]
  | .curDir => out
  | .parentDir => (parent out).getD out
  | .normal name => out ++ [.normal name]

def normalizePath (path : Path) : Path := path.foldl normalizeStep []

/-- The path and its parents. Each is shorter by one. -/
def ancestorsFrom : ℕ → Path → List Path
  | 0, path => [path]
  | n + 1, path => path :: (parent path).elim [] (ancestorsFrom n)

def ancestors (path : Path) : List Path := ancestorsFrom path.length path

def getPathsDist (path1 path2 : Path) : Option ℕ :=
  ((ancestors path1).find? fun ancestor => ancestor <+: path2 ∧ ancestor ≠ []).bind
    fun ancestor => (stripPrefix path1 ancestor).bind fun path1 =>
      (stripPrefix path2 ancestor).map fun path2 => path1.length + path2.length

/-- An only match. -/
def uniqueFilter (possibilities : List Path) (currentPath : Path) (pred : Path → Bool) :
    Option (List Path) :=
  let matched := possibilities.filter fun p => currentPath ≠ p && pred p
  if matched.length = 1 then some matched else none

def resolveAgainstResolved (possibilities : List Path) (currentPath : Path)
    (resolved : Option Path) : Option (List Path) :=
  resolved.bind fun resolved =>
    (uniqueFilter possibilities currentPath fun p => p = resolved).or
      (uniqueFilter possibilities currentPath fun p => resolved <:+ p)

def resolveAgainstParent (possibilities : List Path) (currentPath : Path) : Option (List Path) :=
  (parent currentPath).bind fun dir =>
    uniqueFilter possibilities currentPath fun p => dir <+: p

/-- The distance of another path. -/
def distanceFrom (currentPath p : Path) : Option ℕ :=
  if currentPath = p then none else getPathsDist currentPath p

def minDistanceStep (currentPath : Path) (s : ℕ × List Path) (p : Path) : ℕ × List Path :=
  match distanceFrom currentPath p with
  | none => s
  | some dist =>
    if dist < s.1 then (dist, [p]) else if dist = s.1 then (s.1, s.2 ++ [p]) else s

def minDistanceCandidates (possibilities : List Path) (currentPath : Path) : List Path :=
  (possibilities.foldl (minDistanceStep currentPath) (2 ^ 64 - 1, [])).2

abbrev AllFiles := List (String × List Path)

/-- An include without the prefix `mozilla/`. -/
def includeBytes (text : String) : PathBytes :=
  let bytes := text.toUTF8.toList
  let mozilla := "mozilla/".toUTF8.toList
  if mozilla <+: bytes then bytes.drop mozilla.length else bytes

def guessFile (allFiles : AllFiles) (currentPath : Path) (text : String) : List Path :=
  let includePath := components (includeBytes text)
  let resolvedPath := (parent currentPath).map fun dir => normalizePath (join dir includePath)
  let includePath := normalizePath includePath
  match ((fileName includePath).bind pathToStr).bind fun name => allFiles.lookup name with
  | none => []
  | some possibilities =>
    if possibilities.length = 1 then possibilities
    else ((resolveAgainstResolved possibilities currentPath resolvedPath).or
      ((uniqueFilter possibilities currentPath fun p => includePath <:+ p).or
        (resolveAgainstParent possibilities currentPath))).getD
          (minDistanceCandidates possibilities currentPath)

def pushByBasename (allFiles : AllFiles) (path : Path) : AllFiles :=
  match (fileName path).bind pathToStr with
  | none => allFiles
  | some key =>
    if key ∈ allFiles.map Prod.fst then
      allFiles.map fun entry => if entry.1 = key then (key, entry.2 ++ [path]) else entry
    else allFiles ++ [(key, [path])]

def groupFilesByBasename (paths : List Path) : AllFiles := paths.foldl pushByBasename []

/-! ### Groups -/

def hasName (name : String) (path : Path) : Bool := (fileName path).bind pathToStr = some name

theorem lookup_map_push (allFiles : AllFiles) (key name : String) (path : Path) :
    (allFiles.map fun entry => if entry.1 = key then (key, entry.2 ++ [path]) else entry).lookup
        name =
      if name = key then (allFiles.lookup key).map (· ++ [path]) else allFiles.lookup name := by
  induction allFiles with
  | nil => split_ifs <;> rfl
  | cons entry allFiles ih =>
    rw [List.map_cons]
    by_cases hentry : entry.1 = key
    · rw [if_pos hentry]
      by_cases hname : name = key
      · subst hname
        rw [List.lookup_cons_self, if_pos rfl, ← hentry, List.lookup_cons_self, Option.map_some]
      · rw [lookup_cons_of_ne hname, ih, if_neg hname, if_neg hname,
          lookup_cons_of_ne fun heq => hname (heq.trans hentry)]
    · rw [if_neg hentry]
      by_cases hself : name = entry.1
      · subst hself
        rw [List.lookup_cons_self, if_neg hentry, List.lookup_cons_self]
      · rw [lookup_cons_of_ne hself, ih, lookup_cons_of_ne (Ne.symm hentry), lookup_cons_of_ne hself]

theorem lookup_pushByBasename (allFiles : AllFiles) (path : Path) (name : String) :
    (pushByBasename allFiles path).lookup name =
      if hasName name path then some ((allFiles.lookup name).getD [] ++ [path])
      else allFiles.lookup name := by
  rw [pushByBasename]
  cases hkey : (fileName path).bind pathToStr with
  | none =>
    have hnot : hasName name path = false := by rw [hasName, hkey]; rfl
    rw [hnot]
    rfl
  | some key =>
    have hname : hasName name path = true ↔ name = key := by
      rw [hasName, hkey, decide_eq_true_iff, Option.some_inj]
      exact eq_comm
    simp only [hname]
    split_ifs with hmem heq heq
    · obtain ⟨files, hfiles⟩ : ∃ files, allFiles.lookup key = some files :=
        Option.ne_none_iff_exists'.mp fun hnone => lookup_eq_none.mp hnone hmem
      rw [lookup_map_push, if_pos heq, heq, hfiles, Option.map_some, Option.getD_some]
    · rw [lookup_map_push, if_neg heq]
    · have hnone : allFiles.lookup name = none := lookup_eq_none.mpr (heq ▸ hmem)
      rw [List.lookup_append, hnone, heq, List.lookup_cons_self]
      rfl
    · rw [List.lookup_append, lookup_cons_of_ne heq, List.lookup_nil, Option.or_none]

/-- The files of a name, as they were walked. -/
theorem lookup_groupFilesByBasename (paths : List Path) (name : String) :
    (groupFilesByBasename paths).lookup name =
      if paths.filter (hasName name) = [] then none else some (paths.filter (hasName name)) := by
  induction paths using List.reverseRecOn with
  | nil => rfl
  | append_singleton paths path ih =>
    have hfold : groupFilesByBasename (paths ++ [path]) =
        pushByBasename (groupFilesByBasename paths) path := List.foldl_append ..
    rw [hfold, lookup_pushByBasename, ih, List.filter_append]
    by_cases hname : hasName name path = true
    · rw [if_pos hname, List.filter_cons_of_pos hname, List.filter_nil,
        if_neg (List.append_ne_nil_of_right_ne_nil _ (List.cons_ne_nil _ _))]
      split_ifs with hempty
      · rw [hempty]
        rfl
      · rfl
    · rw [if_neg hname, List.filter_cons_of_neg hname, List.filter_nil, List.append_nil]

/-! ### The order of the candidates -/

theorem uniqueFilter_perm {possibilities possibilities' : List Path}
    (h : possibilities.Perm possibilities') (currentPath : Path) (pred : Path → Bool) :
    uniqueFilter possibilities currentPath pred = uniqueFilter possibilities' currentPath pred := by
  have hmatched := h.filter fun p => currentPath ≠ p && pred p
  rw [uniqueFilter, uniqueFilter, hmatched.length_eq]
  split_ifs with hone
  · obtain ⟨p, hp⟩ := List.length_eq_one_iff.mp hone
    rw [hp] at hmatched ⊢
    rw [List.perm_singleton.mp hmatched]
  · rfl

/-- Those that are as near as any are kept. -/
structure Nearest (currentPath : Path) (possibilities : List Path) (s : ℕ × List Path) : Prop where
  kept : s.2 = possibilities.filter fun p => distanceFrom currentPath p = some s.1
  least : ∀ p ∈ possibilities, ∀ dist, distanceFrom currentPath p = some dist → s.1 ≤ dist
  le_max : s.1 ≤ 2 ^ 64 - 1
  attained : s.1 = 2 ^ 64 - 1 ∨ ∃ p ∈ possibilities, distanceFrom currentPath p = some s.1

theorem nearest_foldl (currentPath : Path) (possibilities : List Path) :
    Nearest currentPath possibilities
      (possibilities.foldl (minDistanceStep currentPath) (2 ^ 64 - 1, [])) := by
  induction possibilities using List.reverseRecOn with
  | nil => exact ⟨rfl, fun _ hp => absurd hp List.not_mem_nil, le_refl _, .inl rfl⟩
  | append_singleton possibilities p ih =>
    rw [List.foldl_append, List.foldl_cons, List.foldl_nil, minDistanceStep]
    generalize possibilities.foldl (minDistanceStep currentPath) (2 ^ 64 - 1, []) = s at ih ⊢
    have hweaken : (s.1 = 2 ^ 64 - 1 ∨
        ∃ q ∈ possibilities ++ [p], distanceFrom currentPath q = some s.1) :=
      ih.attained.imp_right fun ⟨q, hq, hdist⟩ => ⟨q, List.mem_append_left _ hq, hdist⟩
    cases hp : distanceFrom currentPath p with
    | none =>
      refine ⟨?_, ?_, ih.le_max, hweaken⟩
      · rw [List.filter_append, ← ih.kept, List.filter_cons_of_neg (by simp [hp]), List.filter_nil,
          List.append_nil]
      · rw [List.forall_mem_append, List.forall_mem_singleton]
        exact ⟨ih.least, fun dist hdist => by rw [hp] at hdist; cases hdist⟩
    | some dist =>
      have hnew : ∀ d, distanceFrom currentPath p = some d → d = dist := fun d hd =>
        (Option.some.inj (hp.symm.trans hd)).symm
      dsimp only
      split_ifs with hlt heq
      · refine ⟨?_, ?_, (hlt.trans_le ih.le_max).le, .inr ⟨p, ?_, hp⟩⟩
        · have hnone : possibilities.filter
              (fun q => distanceFrom currentPath q = some dist) = [] :=
            List.filter_eq_nil_iff.mpr fun q hq hdist =>
              absurd (ih.least q hq dist (of_decide_eq_true hdist)) (Nat.not_le.mpr hlt)
          rw [List.filter_append, hnone, List.filter_cons_of_pos (by simp [hp])]
          rfl
        · rw [List.forall_mem_append, List.forall_mem_singleton]
          exact ⟨fun q hq d hd => hlt.le.trans (ih.least q hq d hd), fun d hd => (hnew d hd).ge⟩
        · exact List.mem_append_right _ (List.mem_singleton_self p)
      · refine ⟨?_, ?_, ih.le_max, hweaken⟩
        · rw [List.filter_append, ← ih.kept, List.filter_cons_of_pos (by simp [hp, heq]),
            List.filter_nil]
        · rw [List.forall_mem_append, List.forall_mem_singleton]
          exact ⟨ih.least, fun d hd => by rw [hnew d hd, heq]⟩
      · refine ⟨?_, ?_, ih.le_max, hweaken⟩
        · rw [List.filter_append, ← ih.kept, List.filter_cons_of_neg (by simp [hp, heq]),
            List.filter_nil, List.append_nil]
        · rw [List.forall_mem_append, List.forall_mem_singleton]
          exact ⟨ih.least, fun d hd => by rw [hnew d hd]; exact Nat.not_lt.mp hlt⟩

theorem Nearest.le {currentPath : Path} {possibilities possibilities' : List Path}
    {s s' : ℕ × List Path} (h : Nearest currentPath possibilities s)
    (h' : Nearest currentPath possibilities' s') (hsubset : possibilities' ⊆ possibilities) :
    s.1 ≤ s'.1 := by
  rcases h'.attained with hmax | ⟨p, hp, hdist⟩
  · exact hmax ▸ h.le_max
  · exact h.least p (hsubset hp) s'.1 hdist

theorem minDistanceCandidates_perm {possibilities possibilities' : List Path}
    (h : possibilities.Perm possibilities') (currentPath : Path) :
    (minDistanceCandidates possibilities currentPath).Perm
      (minDistanceCandidates possibilities' currentPath) := by
  have hnear := nearest_foldl currentPath possibilities
  have hnear' := nearest_foldl currentPath possibilities'
  rw [minDistanceCandidates, minDistanceCandidates, hnear.kept, hnear'.kept,
    le_antisymm (hnear.le hnear' h.symm.subset) (hnear'.le hnear h.subset)]
  exact h.filter _

/-- The candidates come in some order, the answer is the same but for order. -/
theorem guessFile_perm {walked walked' : List Path} (h : walked.Perm walked') (currentPath : Path)
    (text : String) : (guessFile (groupFilesByBasename walked) currentPath text).Perm
      (guessFile (groupFilesByBasename walked') currentPath text) := by
  rw [guessFile, guessFile]
  cases (fileName (normalizePath (components (includeBytes text)))).bind pathToStr with
  | none => exact .refl _
  | some name =>
    have hfiles := h.filter (hasName name)
    rw [Option.bind_some, Option.bind_some, lookup_groupFilesByBasename,
      lookup_groupFilesByBasename]
    by_cases hempty : walked.filter (hasName name) = []
    · have hempty' : walked'.filter (hasName name) = [] :=
        List.perm_nil.mp (hempty ▸ hfiles.symm)
      rw [if_pos hempty, if_pos hempty']
    · have hempty' : walked'.filter (hasName name) ≠ [] := fun heq =>
        hempty (List.perm_nil.mp (heq ▸ hfiles))
      rw [if_neg hempty, if_neg hempty']
      dsimp only
      rw [hfiles.length_eq]
      split_ifs with hone
      · exact hfiles
      · simp only [resolveAgainstResolved, resolveAgainstParent, uniqueFilter_perm hfiles]
        cases Option.or _ _ with
        | none => exact minDistanceCandidates_perm hfiles currentPath
        | some found => exact .refl _

/-! ### The file an include names -/

theorem parent_concat (path : Path) {c : Component} (h : c ≠ .rootDir) :
    parent (path ++ [c]) = some path := by
  rw [parent, List.getLast?_concat, List.dropLast_concat]
  cases c with
  | rootDir => exact absurd rfl h
  | curDir => rfl
  | parentDir => rfl
  | normal name => rfl

/-- What is normalized behind a path keeps its end. -/
theorem foldl_normalizeStep {path : Path} (h : ∀ c ∈ path, c ≠ .rootDir) (base out : Path)
    (hout : ∀ c ∈ out, c ≠ .rootDir) : ∃ base',
      path.foldl normalizeStep (base ++ out) = base' ++ path.foldl normalizeStep out := by
  induction path generalizing base out with
  | nil => exact ⟨base, rfl⟩
  | cons c path ih =>
    obtain ⟨hc, hpath⟩ := List.forall_mem_cons.mp h
    rw [List.foldl_cons, List.foldl_cons]
    cases c with
    | rootDir => exact absurd rfl hc
    | curDir => exact ih hpath base out hout
    | parentDir =>
      rw [normalizeStep, normalizeStep]
      rcases List.eq_nil_or_concat out with rfl | ⟨out, d, rfl⟩
      · rw [List.append_nil]
        obtain ⟨base', hbase⟩ := ih hpath ((parent base).getD base) [] hout
        rw [List.append_nil] at hbase
        exact ⟨base', hbase⟩
      · rw [List.concat_eq_append] at hout ⊢
        rw [List.forall_mem_append, List.forall_mem_singleton] at hout
        rw [← List.append_assoc, parent_concat _ hout.2, parent_concat _ hout.2, Option.getD_some,
          Option.getD_some]
        exact ih hpath base out hout.1
    | normal name =>
      rw [normalizeStep, normalizeStep, List.append_assoc]
      refine ih hpath base (out ++ [.normal name]) ?_
      rw [List.forall_mem_append, List.forall_mem_singleton]
      exact ⟨hout, Component.noConfusion⟩

theorem foldl_normalizeStep_dropWhile (path out : Path) :
    (path.dropWhile (· = .curDir)).foldl normalizeStep out = path.foldl normalizeStep out := by
  induction path with
  | nil => rfl
  | cons c path ih =>
    by_cases hc : c = .curDir
    · rw [List.dropWhile_cons_of_pos (by simpa using hc), ih, hc]
      rfl
    · rw [List.dropWhile_cons_of_neg (by simpa using hc)]

theorem getLast?_of_fileName {path : Path} {name : PathBytes} (h : fileName path = some name) :
    path.getLast? = some (.normal name) := by
  rw [fileName] at h
  split at h
  · cases h
    assumption
  · cases h

theorem fileName_append (base : Path) {path : Path} {name : PathBytes}
    (h : fileName path = some name) : fileName (base ++ path) = some name := by
  rw [fileName, List.getLast?_append, getLast?_of_fileName h]
  rfl

/-- Where an include leads from a directory, there is a file of its name. -/
theorem fileName_join (dir : Path) {text : PathBytes} {name : PathBytes}
    (h : fileName (normalizePath (components text)) = some name) :
    fileName (normalizePath (join dir (components text))) = some name := by
  rw [join]
  split_ifs with habsolute
  · exact h
  · have hroot : ∀ c ∈ components text, c ≠ .rootDir := by
      have hproper := Walk.proper_components text
      rw [not_or, Walk.isAbsolute, decide_eq_true_iff] at habsolute
      cases hpath : components text with
      | nil => exact fun _ hc => absurd hc List.not_mem_nil
      | cons d path =>
        rw [hpath] at hproper habsolute
        rw [List.forall_mem_cons]
        exact ⟨fun heq => habsolute.1 (congrArg some heq), fun c hc => (hproper c hc).1⟩
    obtain ⟨base, hbase⟩ := foldl_normalizeStep
      (fun c hc => hroot c (List.dropWhile_sublist _ |>.subset hc)) (normalizePath dir) []
      fun _ hc => absurd hc List.not_mem_nil
    rw [List.append_nil, foldl_normalizeStep_dropWhile _ []] at hbase
    rw [normalizePath, List.foldl_append]
    exact (congrArg fileName hbase).trans (fileName_append base h)

/-- A file that stands where the include leads from the directory of the including file is the
answer, whatever other files have its name. -/
theorem guessFile_exact {walked : List Path} (hnodup : walked.Nodup) {currentPath dir : Path}
    {text name : String} (hparent : parent currentPath = some dir)
    (hname : (fileName (normalizePath (components (includeBytes text)))).bind pathToStr =
      some name)
    (hmem : normalizePath (join dir (components (includeBytes text))) ∈ walked)
    (hne : normalizePath (join dir (components (includeBytes text))) ≠ currentPath) :
    guessFile (groupFilesByBasename walked) currentPath text =
      [normalizePath (join dir (components (includeBytes text)))] := by
  obtain ⟨bytes, hbytes, htext⟩ := Option.bind_eq_some_iff.mp hname
  have htarget := fileName_join dir hbytes
  rw [guessFile, hname, hparent, Option.bind_some, Option.map_some, lookup_groupFilesByBasename]
  generalize normalizePath (join dir (components (includeBytes text))) = target at *
  have hfile : target ∈ walked.filter (hasName name) := by
    refine List.mem_filter.mpr ⟨hmem, ?_⟩
    rw [hasName, htarget, Option.bind_some, htext, decide_eq_true_iff]
  have hfiles := hnodup.filter (hasName name)
  generalize walked.filter (hasName name) = files at *
  rw [if_neg (List.ne_nil_of_mem hfile)]
  dsimp only
  split_ifs with hone
  · obtain ⟨p, rfl⟩ := List.length_eq_one_iff.mp hone
    rw [List.mem_singleton.mp hfile]
  · have hexact : files.filter (fun p => currentPath ≠ p && decide (p = target)) = [target] := by
      refine List.perm_singleton.mp ((List.perm_ext_iff_of_nodup (hfiles.filter _)
        (List.nodup_singleton _)).mpr fun p => ?_)
      rw [List.mem_filter, Bool.and_eq_true, decide_eq_true_iff, decide_eq_true_iff,
        List.mem_singleton]
      constructor
      · exact fun h => h.2.2
      · rintro rfl
        exact ⟨hfile, hne.symm, rfl⟩
    rw [resolveAgainstResolved, Option.bind_some, uniqueFilter, hexact]
    rfl

/-- A header above the directory of the source, with another of its name beside the source. -/
theorem guessFile_exact_above :
    guessFile (groupFilesByBasename [[.normal [97], .normal [104]], [.normal [97], .normal [98],
      .normal [104]]]) [.normal [97], .normal [98], .normal [99]] "../h" =
        [normalizePath (join [.normal [97], .normal [98]] (components (includeBytes "../h")))] := by
  have hname : (fileName (normalizePath (components (includeBytes "../h")))).bind pathToStr =
      some "h" := by decide +kernel
  exact guessFile_exact (by decide) rfl hname (by decide +kernel) (by decide +kernel)

variable {π : Type*}

/-! ### The same files, walked in another order -/

section Reproducible
variable {paths : Paths π}

/-- The same path, sets and includes, each set walked in some order. -/
structure AlikeFile (a b : π × PreprocFile) : Prop where
  path : a.1 = b.1
  direct : a.2.directIncludes.Perm b.2.directIncludes
  indirect : a.2.indirectIncludes.Perm b.2.indirectIncludes
  macros : a.2.macros.Perm b.2.macros

theorem AlikeFile.symm {a b : π × PreprocFile} (h : AlikeFile a b) : AlikeFile b a :=
  ⟨h.path.symm, h.direct.symm, h.indirect.symm, h.macros.symm⟩

def Alike (files files' : Files π) : Prop := ∃ l, List.Forall₂ AlikeFile files l ∧ l.Perm files'

theorem Alike.symm {files files' : Files π} (h : Alike files files') : Alike files' files := by
  obtain ⟨l, hforall, hperm⟩ := h
  have hflip : List.Forall₂ AlikeFile l files := hforall.flip.imp fun _ _ => AlikeFile.symm
  exact List.perm_comp_forall₂ hperm.symm hflip

theorem Alike.exists_mem {files files' : Files π} (h : Alike files files') {a : π × PreprocFile}
    (ha : a ∈ files) : ∃ b ∈ files', AlikeFile a b := by
  obtain ⟨l, hforall, hperm⟩ := h
  have hmem : ∃ b ∈ l, AlikeFile a b := by
    clear hperm
    induction hforall with
    | nil => exact absurd ha List.not_mem_nil
    | cons hab _ ih =>
      rcases List.mem_cons.mp ha with rfl | ha
      · exact ⟨_, List.mem_cons_self, hab⟩
      · obtain ⟨b, hb, hab⟩ := ih ha
        exact ⟨b, List.mem_cons_of_mem _ hb, hab⟩
  obtain ⟨b, hb, hab⟩ := hmem
  exact ⟨b, hperm.subset hb, hab⟩

/-- What is listed for alike files is the same but for order. -/
theorem Alike.perm_flatMap {files files' : Files π} (h : Alike files files') {α : Type*}
    {f g : π × PreprocFile → List α} (hfg : ∀ a b, AlikeFile a b → (f a).Perm (g b)) :
    (files.flatMap f).Perm (files'.flatMap g) := by
  obtain ⟨l, hforall, hperm⟩ := h
  refine .trans ?_ (hperm.flatMap_right g)
  clear hperm
  induction hforall with
  | nil => exact List.Perm.refl _
  | cons hab _ ih => exact (hfg _ _ hab).append ih

theorem Alike.perm_keys {files files' : Files π} (h : Alike files files') :
    (files.map Prod.fst).Perm (files'.map Prod.fst) := by
  rw [List.map_eq_flatMap, List.map_eq_flatMap]
  exact h.perm_flatMap fun a b hab => hab.path ▸ List.Perm.refl _

theorem perm_cycleDiagnostics {cycle cycle' : List π} (h : cycle.Perm cycle') :
    (cycleDiagnostics paths cycle).Perm (cycleDiagnostics paths cycle') := by
  rw [cycleDiagnostics, cycleDiagnostics,
    insertionSort_eq_of_perm (h.filterMap paths.toStr).dedup]
  exact (h.filterMap _).append_right _

theorem key_injective : Function.Injective (PreprocDiagnostic.key (π := π)) := by
  intro a b h
  cases a <;> cases b <;> simp_all [PreprocDiagnostic.key]

variable [LinearOrder π] {guessFile guessFile' : π → String → List π} {files files' : Files π}

section Same
variable (hguess : ∀ p path, (guessFile p path).Perm (guessFile' p path))

include hguess in
theorem resolveSingleInclude_congr (p : π) (path : String) :
    resolveSingleInclude guessFile p path = resolveSingleInclude guessFile' p path := by
  refine Option.ext fun q => ?_
  rw [resolveSingleInclude, resolveSingleInclude, List.min?_eq_some_iff, List.min?_eq_some_iff,
    (hguess p path).mem_iff]
  exact and_congr_right fun _ => forall_congr' fun r => imp_congr_left (hguess p path).mem_iff

include hguess in
theorem perm_selfInclusions {a b : π × PreprocFile} (h : AlikeFile a b) :
    (selfInclusions guessFile a).Perm (selfInclusions guessFile' b) := by
  simp only [selfInclusions, resolveSingleInclude_congr hguess, h.path]
  exact h.direct.filterMap _

variable (h : Alike files files')

include hguess h in
theorem includes_imp {p q : π} (hpq : Includes guessFile files p q) :
    Includes guessFile' files' p q := by
  obtain ⟨pf, hmem, path, hpath, hresolve, hne⟩ := hpq
  obtain ⟨⟨p', pf'⟩, hmem', halike⟩ := h.exists_mem hmem
  obtain rfl : p = p' := halike.path
  exact ⟨pf', hmem', path, halike.direct.subset hpath,
    (resolveSingleInclude_congr hguess p path) ▸ hresolve, hne⟩

include hguess h in
theorem includes_congr : Includes guessFile files = Includes guessFile' files' :=
  funext₂ fun _ _ => propext ⟨includes_imp hguess h,
    includes_imp (fun p path => (hguess p path).symm) h.symm⟩

include hguess h in
theorem known_congr (p : π) : Known guessFile files p ↔ Known guessFile' files' p := by
  rw [Known, Known, includes_congr hguess h, h.perm_keys.mem_iff]

include hguess h in
/-- The same is said, in some order. -/
theorem Outcome.perm_diagnostics (o : Outcome paths guessFile files)
    (o' : Outcome paths guessFile' files') : o.diagnostics.Perm o'.diagnostics := by
  have hincludes := includes_congr hguess h
  have hknown : o.known.Perm o'.known := by
    refine (List.perm_ext_iff_of_nodup o.nodup_known o'.nodup_known).mpr fun p => ?_
    rw [o.mem_known, o'.mem_known, known_congr hguess h]
  refine ((h.perm_flatMap fun a b => perm_selfInclusions hguess).append ?_).append
    (hknown.flatMap fun p hp => ?_)
  · refine o.classes.perm_flatMap ?_ fun _ _ => perm_cycleDiagnostics
    simpa only [Reaches, hincludes] using o'.classes
  · rw [pathDiagnostics, pathDiagnostics]
    simp only [h.perm_keys.mem_iff]
    split_ifs with hmem
    · refine List.Perm.map _ ((List.perm_ext_iff_of_nodup (o.nodup_missed p hp)
        (o'.nodup_missed p (hknown.subset hp))).mpr fun q => ?_)
      rw [o.mem_missed p hp, o'.mem_missed p (hknown.subset hp), Misses, Misses, Reaches, Reaches,
        hincludes]
    · exact List.Perm.refl _

end Same

theorem insertionSort_key_eq {l l' : List (PreprocDiagnostic π)} (h : l.Perm l') :
    l.insertionSort (fun a b => a.key ≤ b.key) = l'.insertionSort fun a b => a.key ≤ b.key := by
  have : Std.Total fun a b : PreprocDiagnostic π => a.key ≤ b.key := ⟨fun _ _ => le_total _ _⟩
  have : IsTrans (PreprocDiagnostic π) fun a b => a.key ≤ b.key := ⟨fun _ _ _ => le_trans⟩
  refine List.Perm.eq_of_pairwise (fun a b _ _ hab hba => key_injective (le_antisymm hab hba))
    (List.pairwise_insertionSort _ l) (List.pairwise_insertionSort _ l') ?_
  exact ((List.perm_insertionSort _ l).trans h).trans (List.perm_insertionSort _ l').symm

/-! ### The document -/

def serializeEntry (entry : π × PreprocFile) : π × PreprocFile := (entry.1, entry.2.serialize)

section Document
variable (hguess : ∀ p path, (guessFile p path).Perm (guessFile' p path))
  (h : Alike files files')

include hguess h in
theorem serializeEntry_eq {a b a' b' : π × PreprocFile} (hab : AlikeFile a b)
    (ha : Fixed paths guessFile files a a') (hb : Fixed paths guessFile' files' b b')
    (hset : a.2.indirectIncludes.Nodup) : serializeEntry a' = serializeEntry b' := by
  have hindirect : a'.2.indirectIncludes.Perm b'.2.indirectIncludes := by
    refine (List.perm_ext_iff_of_nodup (ha.nodup hset)
      (hb.nodup (hab.indirect.nodup_iff.mp hset))).mpr fun t => ?_
    rw [ha.indirect, hb.indirect, hab.indirect.mem_iff, hab.path, Gets, Gets, Reaches, Reaches,
      includes_congr hguess h]
  rw [serializeEntry, serializeEntry, PreprocFile.serialize, PreprocFile.serialize, ha.path, hb.path,
    hab.path, ha.direct, hb.direct, ha.macros, hb.macros]
  simp only [serializeSortedNames, insertionSort_eq_of_perm hab.direct,
    insertionSort_eq_of_perm hindirect, insertionSort_eq_of_perm hab.macros]

include hguess h in
theorem map_serializeEntry_eq {before before' after after' : Files π}
    (halike : List.Forall₂ AlikeFile before before')
    (hafter : List.Forall₂ (Fixed paths guessFile files) before after)
    (hafter' : List.Forall₂ (Fixed paths guessFile' files') before' after')
    (hset : ∀ e ∈ before, e.2.indirectIncludes.Nodup) :
    after.map serializeEntry = after'.map serializeEntry := by
  induction halike generalizing after after' with
  | nil =>
    cases hafter
    cases hafter'
    rfl
  | cons hab _ ih =>
    cases hafter with
    | cons ha hrest =>
      cases hafter' with
      | cons hb hrest' =>
        rw [List.map_cons, List.map_cons,
          serializeEntry_eq hguess h hab ha hb (hset _ List.mem_cons_self),
          ih hrest hrest' fun e he => hset e (List.mem_cons_of_mem _ he)]

/-- Files with the same entries make the same document. -/
theorem serializeSortedFiles_eq {fixed fixed' : Files π}
    (hperm : (fixed.map serializeEntry).Perm (fixed'.map serializeEntry))
    (hkeys : (fixed.map Prod.fst).Nodup) :
    serializeSortedFiles fixed = serializeSortedFiles fixed' := by
  have hdef (l : Files π) : serializeSortedFiles l =
      (l.insertionSort fun a b => a.1 ≤ b.1).map serializeEntry := rfl
  have hsorted (l : Files π) : (serializeSortedFiles l).Pairwise fun a b => a.1 ≤ b.1 := by
    have : Std.Total fun a b : π × PreprocFile => a.1 ≤ b.1 := ⟨fun _ _ => le_total _ _⟩
    have : IsTrans (π × PreprocFile) fun a b => a.1 ≤ b.1 := ⟨fun _ _ _ => le_trans⟩
    rw [hdef, List.pairwise_map]
    exact List.pairwise_insertionSort (fun a b : π × PreprocFile => a.1 ≤ b.1) l
  have hentries (l : Files π) : (serializeSortedFiles l).Perm (l.map serializeEntry) := by
    rw [hdef]
    exact (List.perm_insertionSort _ l).map _
  have hsame := ((hentries fixed).trans hperm).trans (hentries fixed').symm
  have hnodup : ((serializeSortedFiles fixed).map Prod.fst).Nodup := by
    rw [((hentries fixed).map Prod.fst).nodup_iff, List.map_map]
    exact hkeys
  refine List.Perm.eq_of_pairwise (fun a b ha hb hab hba => ?_) (hsorted fixed) (hsorted fixed')
    hsame
  exact List.inj_on_of_nodup_map hnodup ha (hsame.symm.subset hb) (le_antisymm hab hba)

end Document

theorem keys_fixed {fixed : Files π} (h : List.Forall₂ (Fixed paths guessFile files) files' fixed) :
    fixed.map Prod.fst = files'.map Prod.fst := by
  induction h with
  | nil => rfl
  | cons hab _ ih => rw [List.map_cons, List.map_cons, ih, hab.path]

/-- Two runs over the same files end in the same document and say the same, whatever the order of
the maps, the sets and the candidates, and whatever the graph library answers. -/
theorem fixIncludes_agree {lib lib' : Petgraph π}
    {hashOrder hashOrder' : List (π × ℕ) → List (π × ℕ)} (hlib : lib.Documented)
    (hlib' : lib'.Documented) (horder : ∀ l, (hashOrder l).Perm l)
    (horder' : ∀ l, (hashOrder' l).Perm l)
    (hguess : ∀ p path, (guessFile p path).Perm (guessFile' p path)) (h : Alike files files')
    (hfiles : (files.map Prod.fst).Nodup) (hset : ∀ e ∈ files, e.2.indirectIncludes.Nodup) :
    ∃ fixed fixed' diagnostics,
      fixIncludes paths lib guessFile hashOrder files = some (fixed, diagnostics) ∧
      fixIncludes paths lib' guessFile' hashOrder' files' = some (fixed', diagnostics) ∧
      serializeSortedFiles fixed = serializeSortedFiles fixed' := by
  obtain ⟨o, ho⟩ := fixIncludes_outcome paths guessFile hlib horder hfiles
  obtain ⟨o', ho'⟩ := fixIncludes_outcome paths guessFile' hlib' horder'
    (h.perm_keys.nodup_iff.mp hfiles)
  rw [← insertionSort_key_eq (Outcome.perm_diagnostics hguess h o o')] at ho'
  refine ⟨o.fixed, o'.fixed, _, ho, ho', ?_⟩
  have hkeys : (o.fixed.map Prod.fst).Nodup := by
    rw [keys_fixed o.forall₂_fixed]
    exact hfiles
  refine serializeSortedFiles_eq ?_ hkeys
  obtain ⟨l, hforall, hperm⟩ := h
  obtain ⟨after, hafter, hsame⟩ := List.perm_comp_forall₂ hperm o'.forall₂_fixed
  rw [map_serializeEntry_eq hguess ⟨l, hforall, hperm⟩ hforall o.forall₂_fixed hafter hset]
  exact hsame.map _

end Reproducible

/-! ### Paths in order -/

/-- The derived order of components. -/
def componentKey (c : Component) : ℕ ×ₗ List ℕ :=
  toLex (componentRank c, match c with
    | .normal name => name.map UInt8.toNat
    | _ => [])

theorem componentKey_injective : Function.Injective componentKey := by
  intro c d h
  obtain ⟨hrank, hname⟩ := Prod.mk.inj (toLex.injective h)
  cases c with
  | normal name =>
    cases d with
    | normal name' =>
      have hbytes : Function.Injective UInt8.toNat := fun _ _ => UInt8.toNat_inj.mp
      rw [List.map_injective_iff.mpr hbytes hname]
    | rootDir | curDir | parentDir => cases hrank
  | rootDir | curDir | parentDir => cases d <;> first | rfl | cases hrank

instance : LinearOrder Component := LinearOrder.lift' componentKey componentKey_injective

/-- Two runs over the same files end in the same document and say the same, whatever the order of
the walk, the maps and the sets, and whatever the graph library answers. -/
theorem fixIncludes_reproducible {paths : Paths Path} {lib lib' : Petgraph Path}
    {hashOrder hashOrder' : List (Path × ℕ) → List (Path × ℕ)} (hlib : lib.Documented)
    (hlib' : lib'.Documented) (horder : ∀ l, (hashOrder l).Perm l)
    (horder' : ∀ l, (hashOrder' l).Perm l) {walked walked' : List Path}
    (hwalked : walked.Perm walked') {files files' : Files Path} (h : Alike files files')
    (hfiles : (files.map Prod.fst).Nodup) (hset : ∀ e ∈ files, e.2.indirectIncludes.Nodup) :
    ∃ fixed fixed' diagnostics,
      fixIncludes paths lib (guessFile (groupFilesByBasename walked)) hashOrder files =
        some (fixed, diagnostics) ∧
      fixIncludes paths lib' (guessFile (groupFilesByBasename walked')) hashOrder' files' =
        some (fixed', diagnostics) ∧
      serializeSortedFiles fixed = serializeSortedFiles fixed' :=
  fixIncludes_agree hlib hlib' horder horder' (guessFile_perm hwalked) h hfiles hset

/-- Paths spelled by their components. -/
def spelled (display : Path → String) : Paths Path where
  empty := []
  toStr p := if components (render p) = p then pathToStr (render p) else none
  ofStr s := components s.toUTF8.data.toList
  display := display
  ofStr_of_toStr p s h := by
    split_ifs at h with hspelled
    rw [pathToStr, String.fromUTF8?] at h
    split_ifs at h with hvalid
    cases h
    exact hspelled

def ringPaths : Files Path :=
  ringFiles.map fun entry => (components entry.1.toUTF8.data.toList, entry.2)

theorem fixIncludes_reproducible_ring : ∃ fixed fixed' diagnostics,
    fixIncludes (spelled fun _ => "") (Petgraph.computed Path)
        (guessFile (groupFilesByBasename (ringPaths.map Prod.fst))) id ringPaths =
      some (fixed, diagnostics) ∧
    fixIncludes (spelled fun _ => "") (Petgraph.computed Path)
        (guessFile (groupFilesByBasename (ringPaths.map Prod.fst).reverse)) List.reverse
          ringPaths.reverse =
      some (fixed', diagnostics) ∧
    serializeSortedFiles fixed = serializeSortedFiles fixed' := by
  have hsame : List.Forall₂ AlikeFile ringPaths ringPaths :=
    List.forall₂_same.mpr fun _ _ => ⟨rfl, .refl _, .refl _, .refl _⟩
  exact fixIncludes_reproducible Petgraph.computed_documented Petgraph.computed_documented
    (fun _ => .refl _) List.reverse_perm (List.reverse_perm _).symm
    ⟨ringPaths, hsame, (List.reverse_perm ringPaths).symm⟩ (by decide +kernel) (by decide +kernel)

/-! ### The macros a file sees -/

section Macros
variable [LinearOrder π] {paths : Paths π} {lib : Petgraph π}
  {guessFile : π → String → List π} {hashOrder : List (π × ℕ) → List (π × ℕ)}

/-- A file that another includes, by way of others or not, or had among its includes before. -/
def Sees (paths : Paths π) (guessFile : π → String → List π) (files : Files π) (p : π)
    (pf : PreprocFile) (q : π) : Prop :=
  (∃ t ∈ pf.indirectIncludes, paths.ofStr t = q) ∨
    (Reaches guessFile files p q ∧ (paths.toStr q).isSome ∧
      (q = paths.empty → TransGen (Includes guessFile files) q q))

theorem Fixed.sees_iff {files : Files π} {p : π} {pf pf' : PreprocFile}
    (h : Fixed paths guessFile files (p, pf) (p, pf')) {q : π} :
    (∃ t ∈ pf'.indirectIncludes, paths.ofStr t = q) ↔ Sees paths guessFile files p pf q := by
  constructor
  · rintro ⟨t, ht, rfl⟩
    rcases (h.indirect t).mp ht with ht | ⟨q, hreach, htext, hempty⟩
    · exact .inl ⟨t, ht, rfl⟩
    · rw [paths.ofStr_of_toStr q t htext]
      exact .inr ⟨hreach, Option.isSome_iff_exists.mpr ⟨t, htext⟩, hempty⟩
  · rintro (⟨t, ht, rfl⟩ | ⟨hreach, htext, hempty⟩)
    · exact ⟨t, (h.indirect t).mpr (.inl ht), rfl⟩
    · obtain ⟨t, htext⟩ := Option.isSome_iff_exists.mp htext
      exact ⟨t, (h.indirect t).mpr (.inr ⟨q, hreach, htext, hempty⟩),
        paths.ofStr_of_toStr q t htext⟩

/-- After the run a file sees the macros of its own and of the files it reaches. -/
theorem mem_visibleMacros (hlib : lib.Documented) (horder : ∀ l, (hashOrder l).Perm l)
    {files : Files π} (hfiles : (files.map Prod.fst).Nodup) :
    ∃ files' diagnostics, fixIncludes paths lib guessFile hashOrder files =
        some (files', diagnostics) ∧ ∀ p m, m ∈ visibleMacros paths files' p ↔
          ∃ pf, (p, pf) ∈ files ∧ (m ∈ pf.macros ∨
            ∃ q qf, (q, qf) ∈ files ∧ m ∈ qf.macros ∧ Sees paths guessFile files p pf q) := by
  obtain ⟨o, ho⟩ := fixIncludes_outcome paths guessFile hlib horder hfiles
  refine ⟨o.fixed, _, ho, fun p m => ?_⟩
  have hkeys : (o.fixed.map Prod.fst).Nodup := by
    rw [keys_fixed o.forall₂_fixed]
    exact hfiles
  have hafter {p : π} {pf : PreprocFile} (hp : (p, pf) ∈ files) :
      ∃ pf', o.fixed.lookup p = some pf' ∧ Fixed paths guessFile files (p, pf) (p, pf') := by
    obtain ⟨n, hn, hget⟩ := List.getElem_of_mem hp
    have hn' : n < o.fixed.length := o.forall₂_fixed.length_eq ▸ hn
    have hfixed := o.forall₂_fixed.get hn hn'
    rw [List.get_eq_getElem, List.get_eq_getElem, hget] at hfixed
    have hpath : (o.fixed[n]).1 = p := hfixed.path
    refine ⟨(o.fixed[n]).2, lookup_eq_some hkeys ?_, ?_⟩
    · rw [← hpath]
      exact List.getElem_mem hn'
    · rw [← hpath] at hfixed ⊢
      exact hfixed
  have hbefore {p : π} {pf' : PreprocFile} (hp : o.fixed.lookup p = some pf') :
      ∃ pf, (p, pf) ∈ files := by
    have hmem : p ∈ o.fixed.map Prod.fst :=
      List.mem_map_of_mem (f := Prod.fst) (mem_of_lookup hp)
    rw [keys_fixed o.forall₂_fixed] at hmem
    obtain ⟨⟨q, pf⟩, hq, rfl⟩ := List.mem_map.mp hmem
    exact ⟨pf, hq⟩
  rw [visibleMacros]
  cases hlookup : o.fixed.lookup p with
  | none =>
    refine iff_of_false List.not_mem_nil ?_
    rintro ⟨pf, hp, -⟩
    obtain ⟨pf', hsome, -⟩ := hafter hp
    exact absurd (hlookup.symm.trans hsome) (Option.some_ne_none pf').symm
  | some pf' =>
    obtain ⟨pf, hp⟩ := hbefore hlookup
    obtain ⟨pf'', hsome, hfixed⟩ := hafter hp
    obtain rfl : pf' = pf'' := Option.some.inj (hlookup.symm.trans hsome)
    have hunique {qf : PreprocFile} (hq : (p, qf) ∈ files) : qf = pf :=
      eq_of_keys_nodup hfiles hq hp
    dsimp only
    rw [List.mem_append, List.mem_flatMap, hfixed.macros]
    constructor
    · rintro (hm | ⟨t, ht, hm⟩)
      · exact ⟨pf, hp, .inl hm⟩
      · refine ⟨pf, hp, .inr ?_⟩
        cases hq : o.fixed.lookup (paths.ofStr t) with
        | none => rw [hq] at hm; exact absurd hm List.not_mem_nil
        | some qf' =>
          rw [hq] at hm
          obtain ⟨qf, hqf⟩ := hbefore hq
          obtain ⟨qf'', hsome, hfixed'⟩ := hafter hqf
          obtain rfl : qf' = qf'' := Option.some.inj (hq.symm.trans hsome)
          exact ⟨paths.ofStr t, qf, hqf, hfixed'.macros ▸ hm, hfixed.sees_iff.mp ⟨t, ht, rfl⟩⟩
    · rintro ⟨pf₀, hp₀, hm⟩
      rw [hunique hp₀] at hm
      rcases hm with hm | ⟨q, qf, hqf, hm, hsees⟩
      · exact .inl hm
      · obtain ⟨t, ht, rfl⟩ := hfixed.sees_iff.mpr hsees
        obtain ⟨qf', hq, hfixed'⟩ := hafter hqf
        refine .inr ⟨t, ht, ?_⟩
        rw [hq, Option.elim_some, hfixed'.macros]
        exact hm

end Macros

theorem mem_visibleMacros_ring : ∃ files' diagnostics,
    fixIncludes textPaths (Petgraph.computed String) (fun _ path => [path]) List.reverse ringFiles =
        some (files', diagnostics) ∧ ∀ p m, m ∈ visibleMacros textPaths files' p ↔
          ∃ pf, (p, pf) ∈ ringFiles ∧ (m ∈ pf.macros ∨ ∃ q qf, (q, qf) ∈ ringFiles ∧
            m ∈ qf.macros ∧ Sees textPaths (fun _ path => [path]) ringFiles p pf q) :=
  mem_visibleMacros Petgraph.computed_documented List.reverse_perm (by decide)

end BigCodeAnalysis.Preproc
