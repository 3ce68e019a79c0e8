import BigCodeAnalysis.Vcs.BusFactorRemoval
import Mathlib.Data.List.Nodup
import Mathlib.Data.Set.Function

/-! The registry of a group lists every owner once, with exactly the files it owns. -/

namespace BigCodeAnalysis.Vcs

open Sequences

variable (sha256Hex : String → String)

/-- The digests of the owners of every file. -/
def hashedOwners (files : List (List AuthorId)) : List (List String) :=
  files.map fun o => o.map (·.hashed sha256Hex)

/-- The ids that own a file of the group. -/
def Owns (files : List (List AuthorId)) (a : AuthorId) : Prop := ∃ o ∈ files, a ∈ o

/-! ### One entry after the other -/

/-- Every owner of every file, in the order they are registered. -/
def entries (files : List (List AuthorId)) (start : ℕ) : List (ℕ × AuthorId) :=
  (files.zipIdx start).flatMap fun file => file.1.map fun a => (file.2, a)

theorem registry_eq_foldl (files : List (List AuthorId)) :
    registry sha256Hex files = (entries files 0).foldl (fun s e => register sha256Hex s e.1 e.2)
      ⟨fun _ => none, [], List.replicate files.length 0⟩ := by
  rw [entries, List.foldl_flatMap, registry]
  congr 1
  funext s file
  rw [List.foldl_map]

/-- The files registered for one id. -/
def filesOf (done : List (ℕ × AuthorId)) (a : AuthorId) : List ℕ :=
  (done.filter fun e => e.2 = a).map Prod.fst

theorem filesOf_append (done : List (ℕ × AuthorId)) (i : ℕ) (a b : AuthorId) :
    filesOf (done ++ [(i, a)]) b = if b = a then filesOf done b ++ [i] else filesOf done b := by
  rw [filesOf, List.filter_append, List.map_append]
  by_cases h : b = a
  · simp [h, filesOf]
  · simp [h, filesOf, Ne.symm h]

theorem filesOf_eq_nil {done : List (ℕ × AuthorId)} {a : AuthorId}
    (h : a ∉ done.map Prod.snd) : filesOf done a = [] := by
  rw [filesOf, List.map_eq_nil_iff, List.filter_eq_nil_iff]
  intro e he heq
  exact h (List.mem_map.mpr ⟨e, he, of_decide_eq_true heq⟩)

/-- The index and the developers after the entries of `done`; `keys` are the ids met so far. -/
structure Indexed (done : List (ℕ × AuthorId)) (keys : List AuthorId) (s : Registry) : Prop where
  nodup : keys.Nodup
  mem : ∀ a, a ∈ keys ↔ a ∈ done.map Prod.snd
  index : ∀ a, s.authorIndex a = if a ∈ keys then some (keys.idxOf a) else none
  authors : s.authors = keys.map fun a => ⟨a.hashed sha256Hex, filesOf done a⟩

theorem modify_map_idxOf {keys : List AuthorId} (hnodup : keys.Nodup) (a : AuthorId)
    (f : AuthorId → GroupAuthor) (g : GroupAuthor → GroupAuthor) :
    (keys.map f).modify (keys.idxOf a) g =
      keys.map fun b => if b = a then g (f b) else f b := by
  apply List.ext_getElem?
  intro i
  rw [List.getElem?_modify, List.getElem?_map, List.getElem?_map]
  rcases hb : keys[i]? with _ | b
  · rfl
  · obtain ⟨hi, rfl⟩ := List.getElem?_eq_some_iff.mp hb
    by_cases h : keys[i] = a
    · have hidx : keys.idxOf a = i := by
        rw [← h]
        exact hnodup.idxOf_getElem i hi
      simp [h, hidx]
    · have hidx : keys.idxOf a ≠ i := by
        rintro rfl
        exact h (List.getElem_idxOf hi)
      simp [h, hidx]

/-- The files of one id grow by one. -/
theorem modify_push {keys : List AuthorId} (hnodup : keys.Nodup) (done : List (ℕ × AuthorId))
    (i : ℕ) (a : AuthorId) :
    (keys.map fun b => (⟨b.hashed sha256Hex, filesOf done b⟩ : GroupAuthor)).modify (keys.idxOf a)
        (fun b => { b with authoredFiles := b.authoredFiles ++ [i] }) =
      keys.map fun b => ⟨b.hashed sha256Hex, filesOf (done ++ [(i, a)]) b⟩ := by
  rw [modify_map_idxOf hnodup]
  apply List.map_congr_left
  intro b _
  rw [filesOf_append]
  by_cases h : b = a
  · rw [if_pos h, if_pos h]
  · rw [if_neg h, if_neg h]

variable {sha256Hex}

theorem Indexed.register {done : List (ℕ × AuthorId)} {keys : List AuthorId} {s : Registry}
    (h : Indexed sha256Hex done keys s) (i : ℕ) (a : AuthorId) :
    ∃ keys', Indexed sha256Hex (done ++ [(i, a)]) keys' (Vcs.register sha256Hex s i a) := by
  by_cases hknown : a ∈ keys
  · have hindex : s.authorIndex a = some (keys.idxOf a) := by rw [h.index, if_pos hknown]
    refine ⟨keys, h.nodup, ?_, ?_, ?_⟩
    · intro b
      have hmem := h.mem b
      have hknown := (h.mem a).mp hknown
      rw [List.map_append, List.mem_append, ← hmem]
      refine ⟨.inl, ?_⟩
      rintro (hb | hb)
      · exact hb
      · obtain rfl := List.mem_singleton.mp hb
        exact hmem.mpr hknown
    · simpa [Vcs.register, hindex] using h.index
    · simp only [Vcs.register, hindex]
      rw [h.authors]
      exact modify_push sha256Hex h.nodup done i a
  · have hindex : s.authorIndex a = none := by rw [h.index, if_neg hknown]
    have hnodup : (keys ++ [a]).Nodup :=
      List.Nodup.append h.nodup (List.nodup_singleton a) (by simpa using hknown)
    have hlength : s.authors.length = keys.length := by rw [h.authors, List.length_map]
    have hidx : (keys ++ [a]).idxOf a = keys.length := by
      rw [List.idxOf_append_of_notMem hknown]
      simp
    refine ⟨keys ++ [a], hnodup, ?_, ?_, ?_⟩
    · intro b
      rw [List.map_append, List.mem_append, List.mem_append, h.mem b]
      rfl
    · intro b
      have hupdate : (Vcs.register sha256Hex s i a).authorIndex b =
          if b = a then some keys.length else s.authorIndex b := by
        simp only [Vcs.register, hindex, Function.update_apply, hlength]
      rw [hupdate]
      by_cases hb : b = a
      · subst hb
        simp [hidx]
      · rw [if_neg hb, h.index]
        by_cases hmem : b ∈ keys
        · simp [hmem, List.idxOf_append_of_mem hmem]
        · simp [hmem, hb]
    · simp only [Vcs.register, hindex]
      have hfresh : filesOf done a = [] := filesOf_eq_nil (mt (h.mem a).mpr hknown)
      have hpush : s.authors ++ [⟨a.hashed sha256Hex, []⟩] =
          (keys ++ [a]).map fun b => (⟨b.hashed sha256Hex, filesOf done b⟩ : GroupAuthor) := by
        rw [h.authors, List.map_append, List.map_singleton, hfresh]
      rw [hpush, hlength, ← hidx]
      exact modify_push sha256Hex hnodup done i a

theorem Indexed.foldl (more : List (ℕ × AuthorId)) :
    ∀ {done : List (ℕ × AuthorId)} {keys : List AuthorId} {s : Registry},
      Indexed sha256Hex done keys s →
      ∃ keys', Indexed sha256Hex (done ++ more) keys'
        (more.foldl (fun s e => Vcs.register sha256Hex s e.1 e.2) s) := by
  induction more with
  | nil =>
    intro done keys s h
    exact ⟨keys, by rwa [List.append_nil]⟩
  | cons e more ih =>
    intro done keys s h
    obtain ⟨keys', h'⟩ := h.register e.1 e.2
    obtain ⟨keys'', h''⟩ := ih h'
    rw [List.append_assoc] at h''
    exact ⟨keys'', h''⟩

/-! ### The whole registry -/

theorem mem_entries {files : List (List AuthorId)} {a : AuthorId} (start : ℕ) :
    a ∈ (entries files start).map Prod.snd ↔ Owns files a := by
  induction files generalizing start with
  | nil => simp [entries, Owns]
  | cons o files ih =>
    have hcons : entries (o :: files) start =
        o.map (fun a => (start, a)) ++ entries files (start + 1) := rfl
    rw [hcons, List.map_append, List.mem_append, ih (start + 1), List.map_map]
    simp [Owns]

/-- The files of an id are the occurrences of its digest, when digests tell ids apart. -/
theorem filesOf_entries {files : List (List AuthorId)} {a : AuthorId} (start : ℕ)
    (hinj : ∀ b, Owns files b → b.hashed sha256Hex = a.hashed sha256Hex → b = a) :
    filesOf (entries files start) a =
      occurrences (hashedOwners sha256Hex files) (a.hashed sha256Hex) start := by
  induction files generalizing start with
  | nil => rfl
  | cons o files ih =>
    have hcons : entries (o :: files) start =
        o.map (fun a => (start, a)) ++ entries files (start + 1) := rfl
    have hoccurrences : occurrences (hashedOwners sha256Hex (o :: files)) (a.hashed sha256Hex) start =
        List.replicate ((o.map (·.hashed sha256Hex)).count (a.hashed sha256Hex)) start ++
          occurrences (hashedOwners sha256Hex files) (a.hashed sha256Hex) (start + 1) := rfl
    have hrest := ih (start + 1) fun b hb => hinj b (by
      obtain ⟨o', ho', hb⟩ := hb
      exact ⟨o', List.mem_cons_of_mem _ ho', hb⟩)
    rw [hoccurrences, hcons, filesOf, List.filter_append, List.map_append]
    rw [filesOf] at hrest
    rw [hrest]
    congr 1
    have hcount : ∀ p : List AuthorId, p ⊆ o →
        ((p.map fun a => (start, a)).filter fun e => e.2 = a).map Prod.fst =
          List.replicate ((p.map (·.hashed sha256Hex)).count (a.hashed sha256Hex)) start := by
      intro p
      induction p with
      | nil => intro _; rfl
      | cons b p ihp =>
        intro hsub
        obtain ⟨hb, hp⟩ := List.cons_subset.mp hsub
        have hrest := ihp hp
        by_cases h : b = a
        · simp [h, hrest, List.replicate_succ]
        · have hne : b.hashed sha256Hex ≠ a.hashed sha256Hex :=
            fun heq => h (hinj b ⟨o, List.mem_cons_self .., hb⟩ heq)
          simp [h, hne, hrest]
    exact hcount o (List.Subset.refl o)

/-- The ids of a group in the order they are met, and the registry they give. -/
theorem registry_registered {files : List (List AuthorId)}
    (hinj : Set.InjOn (·.hashed sha256Hex) {a | Owns files a}) :
    ∃ keys : List AuthorId, keys.Nodup ∧ (∀ a, a ∈ keys ↔ Owns files a) ∧
      (registry sha256Hex files).authors.map (·.hashed) = keys.map (·.hashed sha256Hex) ∧
      Registered (registry sha256Hex files).authors (hashedOwners sha256Hex files) := by
  have hstart : Indexed sha256Hex [] []
      ⟨fun _ => none, [], List.replicate files.length 0⟩ :=
    ⟨List.nodup_nil, fun _ => Iff.rfl, fun _ => rfl, rfl⟩
  obtain ⟨keys, h⟩ := hstart.foldl (entries files 0)
  rw [← registry_eq_foldl, List.nil_append] at h
  have hmem : ∀ a, a ∈ keys ↔ Owns files a := fun a => (h.mem a).trans (mem_entries 0)
  have hhashed : (registry sha256Hex files).authors.map (·.hashed) =
      keys.map (·.hashed sha256Hex) := by
    rw [h.authors, List.map_map]
    rfl
  refine ⟨keys, h.nodup, hmem, hhashed, ?_, ?_, ?_⟩
  · rw [hhashed]
    exact h.nodup.map_on fun a ha b hb heq => hinj ((hmem a).mp ha) ((hmem b).mp hb) heq
  · intro author hauthor
    rw [h.authors] at hauthor
    obtain ⟨a, ha, rfl⟩ := List.mem_map.mp hauthor
    exact filesOf_entries 0 fun b hb heq => hinj hb ((hmem a).mp ha) heq
  · intro digest
    rw [hhashed, List.mem_map]
    constructor
    · rintro ⟨a, ha, rfl⟩
      obtain ⟨o, ho, ha⟩ := (hmem a).mp ha
      exact ⟨_, List.mem_map.mpr ⟨o, ho, rfl⟩, List.mem_map.mpr ⟨a, ha, rfl⟩⟩
    · rintro ⟨o', ho', hdigest⟩
      obtain ⟨o, ho, rfl⟩ := List.mem_map.mp ho'
      obtain ⟨a, ha, rfl⟩ := List.mem_map.mp hdigest
      exact ⟨a, (hmem a).mpr ⟨o, ho, ha⟩, rfl⟩

theorem register_remaining (s : Registry) (i : ℕ) (a : AuthorId) :
    (register sha256Hex s i a).remainingAuthors = s.remainingAuthors.modify i (· + 1) := by
  unfold register
  rcases s.authorIndex a <;> rfl

theorem foldl_register_remaining (i : ℕ) (o : List AuthorId) (before after : List ℕ)
    (hi : before.length = i) : ∀ (s : Registry) (count : ℕ),
      s.remainingAuthors = before ++ count :: after →
      (o.foldl (fun s a => register sha256Hex s i a) s).remainingAuthors =
        before ++ (count + o.length) :: after := by
  induction o with
  | nil => intro s count h; exact h
  | cons a o ih =>
    intro s count h
    rw [List.foldl_cons, ih _ (count + 1), List.length_cons]
    · congr 2
      omega
    · rw [register_remaining, h, ← hi]
      rw [List.modify_eq_take_cons_drop (by simp)]
      simp

/-- At first every file has all its owners. -/
theorem registry_remaining (files : List (List AuthorId)) :
    (registry sha256Hex files).remainingAuthors = files.map List.length := by
  have h : ∀ (rest : List (List AuthorId)) (before : List ℕ) (s : Registry),
      s.remainingAuthors = before ++ List.replicate rest.length 0 →
      ((rest.zipIdx before.length).foldl
        (fun s file => file.1.foldl (fun s a => register sha256Hex s file.2 a) s)
        s).remainingAuthors = before ++ rest.map List.length := by
    intro rest
    induction rest with
    | nil => intro before s h; exact h
    | cons o rest ih =>
      intro before s h
      rw [List.length_cons, List.replicate_succ] at h
      have hfile := @foldl_register_remaining sha256Hex before.length o before _ rfl s 0 h
      rw [Nat.zero_add] at hfile
      have hrest := ih (before ++ [o.length])
        (o.foldl (fun s a => register sha256Hex s before.length a) s) (by simpa using hfile)
      simpa using hrest
  exact h files [] _ rfl

end BigCodeAnalysis.Vcs
