import BigCodeAnalysis.Sequences.Fallible
import Mathlib.Data.List.Perm.Basic
import Mathlib.Order.Defs.LinearOrder
import Mathlib.Order.Lattice

/-! Maps kept as lists in the order of their keys. -/

namespace BigCodeAnalysis.Sequences

/-- A map with ordered keys, listed in their order. -/
structure SortedMap (κ α : Type*) [LinearOrder κ] where
  entries : List (κ × α)
  sorted : entries.Pairwise fun a b => a.1 < b.1

namespace SortedMap
variable {κ α : Type*} [LinearOrder κ]

def empty : SortedMap κ α := ⟨[], .nil⟩

def keys (m : SortedMap κ α) : List κ := m.entries.map Prod.fst

/-! ### Insertion -/

def insertEntry (k : κ) (v : α) : List (κ × α) → List (κ × α)
  | [] => [(k, v)]
  | e :: m =>
    if k < e.1 then (k, v) :: e :: m
    else if k = e.1 then (k, v) :: m
    else e :: insertEntry k v m

theorem mem_insertEntry {k : κ} {v : α} {e : κ × α} {m : List (κ × α)}
    (h : e ∈ insertEntry k v m) : e = (k, v) ∨ e ∈ m := by
  induction m with
  | nil => exact .inl (List.mem_singleton.mp h)
  | cons e' m ih =>
    rw [insertEntry] at h
    split_ifs at h
    · exact List.mem_cons.mp h
    · rcases List.mem_cons.mp h with h | h
      · exact .inl h
      · exact .inr (List.mem_cons_of_mem _ h)
    · rcases List.mem_cons.mp h with rfl | h
      · exact .inr (List.mem_cons_self ..)
      · exact (ih h).imp_right (List.mem_cons_of_mem _)

theorem sorted_insertEntry (k : κ) (v : α) {m : List (κ × α)}
    (h : m.Pairwise fun a b => a.1 < b.1) :
    (insertEntry k v m).Pairwise fun a b => a.1 < b.1 := by
  induction m with
  | nil => exact List.pairwise_singleton ..
  | cons e m ih =>
    obtain ⟨he, hm⟩ := List.pairwise_cons.mp h
    rw [insertEntry]
    split_ifs with hlt heq
    · refine List.pairwise_cons.mpr ⟨fun a ha => ?_, h⟩
      rcases List.mem_cons.mp ha with rfl | ha
      · exact hlt
      · exact lt_trans hlt (he a ha)
    · exact List.pairwise_cons.mpr ⟨fun a ha => heq ▸ he a ha, hm⟩
    · refine List.pairwise_cons.mpr ⟨fun a ha => ?_, ih hm⟩
      rcases mem_insertEntry ha with rfl | ha
      · exact lt_of_le_of_ne (not_lt.mp hlt) (Ne.symm heq)
      · exact he a ha

def insert (m : SortedMap κ α) (k : κ) (v : α) : SortedMap κ α :=
  ⟨insertEntry k v m.entries, sorted_insertEntry k v m.sorted⟩

/-- A new key adds one entry. -/
theorem insert_perm {m : SortedMap κ α} {k : κ} (v : α) (h : k ∉ m.keys) :
    (m.insert k v).entries.Perm ((k, v) :: m.entries) := by
  obtain ⟨entries, hsorted⟩ := m
  simp only [insert, keys] at h ⊢
  clear hsorted
  induction entries with
  | nil => exact .refl _
  | cons e m ih =>
    rw [List.map_cons, List.mem_cons, not_or] at h
    rw [insertEntry, if_neg h.1]
    split_ifs
    · exact .refl _
    · exact ((ih h.2).cons e).trans (.swap ..)

/-! ### Lookup -/

def get (m : SortedMap κ α) (k : κ) : Option α := (m.entries.find? fun e => e.1 = k).map Prod.snd

theorem find_insertEntry (k : κ) (v : α) (k' : κ) (m : List (κ × α)) :
    ((insertEntry k v m).find? fun e => e.1 = k').map Prod.snd =
      if k' = k then some v else (m.find? fun e => e.1 = k').map Prod.snd := by
  induction m with
  | nil =>
    by_cases h : k' = k
    · simp [insertEntry, h]
    · simp [insertEntry, h, Ne.symm h]
  | cons e m ih =>
    rw [insertEntry]
    by_cases hlt : k < e.1
    · rw [if_pos hlt]
      by_cases h : k' = k
      · simp [h]
      · rw [if_neg h, List.find?_cons_of_neg (by simpa using Ne.symm h)]
    · rw [if_neg hlt]
      by_cases heq : k = e.1
      · rw [if_pos heq]
        by_cases h : k' = k
        · simp [h]
        · have he : e.1 ≠ k' := fun he => h (he ▸ heq.symm)
          rw [if_neg h, List.find?_cons_of_neg (by simpa using Ne.symm h),
            List.find?_cons_of_neg (by simpa using he)]
      · rw [if_neg heq]
        by_cases he : e.1 = k'
        · have hne : k' ≠ k := fun h => heq (h ▸ he.symm)
          simp [he, hne]
        · rw [List.find?_cons_of_neg (by simpa using he), ih,
            List.find?_cons_of_neg (by simpa using he)]

theorem get_insert (m : SortedMap κ α) (k : κ) (v : α) (k' : κ) :
    (m.insert k v).get k' = if k' = k then some v else m.get k' :=
  find_insertEntry k v k' m.entries

theorem get_eq_some {m : SortedMap κ α} {k : κ} {v : α} :
    m.get k = some v ↔ (k, v) ∈ m.entries := by
  obtain ⟨entries, hsorted⟩ := m
  simp only [get]
  induction entries with
  | nil => simp
  | cons e entries ih =>
    obtain ⟨hlt, htail⟩ := List.pairwise_cons.mp hsorted
    by_cases he : e.1 = k
    · have hnot : (k, v) ∉ entries := fun h => ne_of_lt (hlt (k, v) h) he
      obtain ⟨k', v'⟩ := e
      obtain rfl : k' = k := he
      simp [hnot, eq_comm]
    · rw [List.find?_cons_of_neg (by simpa using he), ih htail, List.mem_cons]
      refine ⟨.inr, ?_⟩
      rintro (rfl | h)
      · exact absurd rfl he
      · exact h

theorem get_isSome {m : SortedMap κ α} {k : κ} : (m.get k).isSome ↔ k ∈ m.keys := by
  rw [Option.isSome_iff_exists, keys, List.mem_map]
  constructor
  · rintro ⟨v, hv⟩
    exact ⟨(k, v), get_eq_some.mp hv, rfl⟩
  · rintro ⟨e, he, rfl⟩
    exact ⟨e.2, get_eq_some.mpr he⟩

theorem nodup_keys (m : SortedMap κ α) : m.keys.Nodup :=
  List.pairwise_map.mpr (m.sorted.imp fun h => ne_of_lt h)

def filter (m : SortedMap κ α) (p : κ → α → Bool) : SortedMap κ α :=
  ⟨m.entries.filter fun e => p e.1 e.2, m.sorted.filter _⟩

theorem get_filter (m : SortedMap κ α) (p : κ → α → Bool) (k : κ) :
    (m.filter p).get k = (m.get k).filter (p k) := by
  ext v
  simp only [get_eq_some, filter, List.mem_filter, Option.filter_eq_some_iff]

/-! ### Values -/

def map {β : Type*} (f : α → β) (m : SortedMap κ α) : SortedMap κ β :=
  ⟨m.entries.map fun e => (e.1, f e.2), List.pairwise_map.mpr m.sorted⟩

theorem get_map {β : Type*} (f : α → β) (m : SortedMap κ α) (k : κ) :
    (m.map f).get k = (m.get k).map f := by
  simp only [get, map, List.find?_map, Option.map_map]
  rfl

theorem map_insert {β : Type*} (f : α → β) (m : SortedMap κ α) (k : κ) (v : α) :
    (m.insert k v).map f = (m.map f).insert k (f v) := by
  obtain ⟨entries, hsorted⟩ := m
  simp only [insert, map, mk.injEq]
  clear hsorted
  induction entries with
  | nil => rfl
  | cons e entries ih =>
    simp only [insertEntry, List.map_cons]
    split_ifs
    · rfl
    · rfl
    · rw [List.map_cons, ih]

/-! ### Layers -/

def insertAll (m : SortedMap κ α) (es : List (κ × α)) : SortedMap κ α :=
  es.foldl (fun m e => m.insert e.1 e.2) m

def extend (m upper : SortedMap κ α) : SortedMap κ α := m.insertAll upper.entries

/-- The last value a list gives a key. -/
def lastOf (es : List (κ × α)) (k : κ) : Option α :=
  (es.reverse.find? fun e => e.1 = k).map Prod.snd

theorem lastOf_cons (e : κ × α) (es : List (κ × α)) (k : κ) :
    lastOf (e :: es) k = (lastOf es k).or (if e.1 = k then some e.2 else none) := by
  unfold lastOf
  rw [List.reverse_cons, List.find?_append, Option.map_or]
  by_cases h : e.1 = k
  · simp [h]
  · simp [h]

theorem get_insertAll (es : List (κ × α)) (m : SortedMap κ α) (k : κ) :
    (m.insertAll es).get k = (lastOf es k).or (m.get k) := by
  induction es generalizing m with
  | nil => rfl
  | cons e es ih =>
    have hrest : (m.insertAll (e :: es)).get k = (lastOf es k).or ((m.insert e.1 e.2).get k) :=
      ih (m.insert e.1 e.2)
    rw [hrest, get_insert, lastOf_cons, Option.or_assoc]
    by_cases h : e.1 = k
    · rw [if_pos h, if_pos h.symm]
      rfl
    · rw [if_neg h, if_neg (Ne.symm h)]
      rfl

theorem lastOf_entries (m : SortedMap κ α) (k : κ) : lastOf m.entries k = m.get k := by
  have hmem : ∀ v, lastOf m.entries k = some v → m.get k = some v := by
    intro v hv
    obtain ⟨e, he, rfl⟩ := Option.map_eq_some_iff.mp hv
    have hk : e.1 = k := by simpa using List.find?_some he
    exact get_eq_some.mpr (hk ▸ List.mem_reverse.mp (List.mem_of_find?_eq_some he))
  cases hlast : lastOf m.entries k with
  | some v => exact (hmem v hlast).symm
  | none =>
    rw [lastOf, Option.map_eq_none_iff, List.find?_eq_none] at hlast
    cases hget : m.get k with
    | none => rfl
    | some v =>
      have hne := hlast (k, v) (List.mem_reverse.mpr (get_eq_some.mp hget))
      exact absurd (decide_eq_true rfl) hne

/-- Renaming keys and computing values commutes with picking the last one. -/
theorem lastOf_map {κ' β : Type*} [LinearOrder κ'] {g : κ → κ'} (hg : Function.Injective g)
    (f : κ → α → β) (es : List (κ × α)) (k : κ) :
    lastOf (es.map fun e => (g e.1, f e.1 e.2)) (g k) = (lastOf es k).map (f k) := by
  induction es with
  | nil => rfl
  | cons e es ih =>
    rw [List.map_cons, lastOf_cons, lastOf_cons, ih, Option.map_or]
    by_cases h : e.1 = k
    · rw [if_pos h, if_pos (congrArg g h), ← h]
      rfl
    · rw [if_neg h, if_neg fun hk => h (hg hk)]
      rfl

theorem get_extend (m upper : SortedMap κ α) (k : κ) :
    (m.extend upper).get k = (upper.get k).or (m.get k) := by
  rw [extend, get_insertAll, lastOf_entries]

/-! ### Updates that may fail -/

/-- Replace the value of each listed key, from what is listed and what the map has. -/
def updateM {β ε : Type*} (f : κ → β → Option α → Except ε α) :
    List (κ × β) → SortedMap κ α → Except ε (SortedMap κ α)
  | [], m => .ok m
  | e :: es, m =>
    match f e.1 e.2 (m.get e.1) with
    | .error x => .error x
    | .ok v => updateM f es (m.insert e.1 v)

section
variable {β ε : Type*} {f : κ → β → Option α → Except ε α}

theorem get_updateM_of_notMem {es : List (κ × β)} {m m' : SortedMap κ α}
    (h : updateM f es m = .ok m') {k : κ} (hk : k ∉ es.map Prod.fst) : m'.get k = m.get k := by
  induction es generalizing m with
  | nil =>
    cases h
    rfl
  | cons e es ih =>
    rw [List.map_cons, List.mem_cons, not_or] at hk
    rw [updateM] at h
    split at h
    · cases h
    · rw [ih h hk.2, get_insert, if_neg hk.1]

/-- A listed key has the value its own entry gave, whatever the other entries did. -/
theorem get_updateM_of_mem {es : List (κ × β)} (hnodup : (es.map Prod.fst).Nodup)
    {m m' : SortedMap κ α} (h : updateM f es m = .ok m') {e : κ × β} (he : e ∈ es) :
    ∃ v, f e.1 e.2 (m.get e.1) = .ok v ∧ m'.get e.1 = some v := by
  induction es generalizing m with
  | nil => cases he
  | cons a es ih =>
    obtain ⟨ha, hnodup⟩ := List.nodup_cons.mp hnodup
    rw [updateM] at h
    split at h
    · cases h
    next v hv =>
    rcases List.mem_cons.mp he with rfl | he
    · refine ⟨v, hv, ?_⟩
      rw [get_updateM_of_notMem h ha, get_insert, if_pos rfl]
    · have hne : e.1 ≠ a.1 := fun hk => ha (hk ▸ List.mem_map_of_mem he)
      obtain ⟨w, hw, hget⟩ := ih hnodup h he
      rw [get_insert, if_neg hne] at hw
      exact ⟨w, hw, hget⟩

/-- An update fails only where one of its entries does on the map it started from. -/
theorem updateM_ok {es : List (κ × β)} (hnodup : (es.map Prod.fst).Nodup) {m : SortedMap κ α} :
    (∃ m', updateM f es m = .ok m') ↔ ∀ e ∈ es, ∃ v, f e.1 e.2 (m.get e.1) = .ok v := by
  constructor
  · rintro ⟨m', hm'⟩ e he
    obtain ⟨v, hv, _⟩ := get_updateM_of_mem hnodup hm' he
    exact ⟨v, hv⟩
  · intro h
    induction es generalizing m with
    | nil => exact ⟨m, rfl⟩
    | cons a es ih =>
      obtain ⟨ha, hnodup⟩ := List.nodup_cons.mp hnodup
      obtain ⟨v, hv⟩ := h a (List.mem_cons_self ..)
      rw [updateM, hv]
      apply ih hnodup
      intro e he
      have hne : e.1 ≠ a.1 := fun hk => ha (hk ▸ List.mem_map_of_mem he)
      rw [get_insert, if_neg hne]
      exact h e (List.mem_cons_of_mem _ he)

end

/-- Compute every value from its key and the one before. -/
def mapE {β ε : Type*} (f : κ → α → Except ε β) (m : SortedMap κ α) : Except ε (SortedMap κ β) :=
  match h : Sequences.mapE (fun e => (f e.1 e.2).map (e.1, ·)) m.entries with
  | .error e => .error e
  | .ok entries => .ok ⟨entries, by
      have hkeys : entries.map Prod.fst = m.entries.map Prod.fst := by
        refine map_of_mapE (fun a b hab => ?_) h
        cases hf : f a.1 a.2 with
        | error e =>
          rw [hf] at hab
          cases hab
        | ok v =>
          rw [hf] at hab
          cases hab
          rfl
      have hsorted : (m.entries.map Prod.fst).Pairwise (· < ·) := List.pairwise_map.mpr m.sorted
      exact List.pairwise_map.mp (hkeys ▸ hsorted)⟩

theorem mem_mapE {β ε : Type*} {f : κ → α → Except ε β} {m : SortedMap κ α} {m' : SortedMap κ β}
    (h : m.mapE f = .ok m') {k : κ} {b : β} :
    m'.get k = some b ↔ ∃ a, m.get k = some a ∧ f k a = .ok b := by
  unfold mapE at h
  split at h
  · cases h
  next entries hentries =>
  cases h
  rw [get_eq_some, mem_of_mapE hentries]
  constructor
  · rintro ⟨e, he, hb⟩
    cases hf : f e.1 e.2 with
    | error x =>
      rw [hf] at hb
      cases hb
    | ok v =>
      rw [hf] at hb
      cases hb
      exact ⟨e.2, get_eq_some.mpr he, hf⟩
  · rintro ⟨a, ha, hb⟩
    refine ⟨(k, a), get_eq_some.mp ha, ?_⟩
    dsimp only
    rw [hb]
    rfl

theorem mapE_ok {β ε : Type*} {f : κ → α → Except ε β} {m : SortedMap κ α} :
    (∃ m', m.mapE f = .ok m') ↔ ∀ k a, m.get k = some a → ∃ b, f k a = .ok b := by
  have hentries : (∃ m', m.mapE f = .ok m') ↔
      ∃ es, Sequences.mapE (fun e => (f e.1 e.2).map (e.1, ·)) m.entries = .ok es := by
    unfold mapE
    split
    · next e he => simp [he]
    · next es he => simp [he]
  rw [hentries, Sequences.mapE_ok]
  constructor
  · intro h k a ha
    obtain ⟨b, hb⟩ := h (k, a) (get_eq_some.mp ha)
    dsimp only at hb
    cases hf : f k a with
    | error x =>
      rw [hf] at hb
      cases hb
    | ok v => exact ⟨v, rfl⟩
  · intro h e he
    obtain ⟨b, hb⟩ := h e.1 e.2 (get_eq_some.mpr he)
    exact ⟨(e.1, b), by rw [hb]; rfl⟩

/-! ### Removal -/

def removeEntry (k : κ) : List (κ × α) → Option (α × List (κ × α))
  | [] => none
  | e :: m =>
    if k = e.1 then some (e.2, m) else (removeEntry k m).map fun (v, m) => (v, e :: m)

theorem removeEntry_perm {k : κ} {v : α} {m m' : List (κ × α)}
    (h : removeEntry k m = some (v, m')) : m.Perm ((k, v) :: m') ∧ m'.Sublist m := by
  induction m generalizing m' with
  | nil => cases h
  | cons e m ih =>
    rw [removeEntry] at h
    split_ifs at h with hk
    · obtain ⟨rfl, rfl⟩ := Prod.mk.inj (Option.some.inj h)
      exact ⟨by rw [hk], List.sublist_cons_self ..⟩
    · obtain ⟨⟨v', m''⟩, hm, heq⟩ := Option.map_eq_some_iff.mp h
      obtain ⟨rfl, rfl⟩ := Prod.mk.inj heq
      obtain ⟨hperm, hsub⟩ := ih hm
      exact ⟨(hperm.cons e).trans (.swap ..), hsub.cons_cons e⟩

theorem removeEntry_eq_none {k : κ} {m : List (κ × α)} :
    removeEntry k m = none ↔ k ∉ m.map Prod.fst := by
  induction m with
  | nil => simp [removeEntry]
  | cons e m ih =>
    rw [removeEntry, List.map_cons, List.mem_cons]
    split_ifs with hk
    · simp [hk]
    · rw [Option.map_eq_none_iff, ih]
      simp [hk]

/-- The value of a key and the map without it. -/
def remove (m : SortedMap κ α) (k : κ) : Option (α × SortedMap κ α) :=
  match h : removeEntry k m.entries with
  | none => none
  | some (v, entries) => some (v, ⟨entries, m.sorted.sublist (removeEntry_perm h).2⟩)

theorem remove_eq_none {m : SortedMap κ α} {k : κ} : m.remove k = none ↔ k ∉ m.keys := by
  rw [keys, ← removeEntry_eq_none, remove]
  split <;> simp_all

theorem remove_perm {m m' : SortedMap κ α} {k : κ} {v : α} (h : m.remove k = some (v, m')) :
    m.entries.Perm ((k, v) :: m'.entries) := by
  rw [remove] at h
  split at h
  · cases h
  · next v' entries hremove =>
    obtain ⟨rfl, rfl⟩ := Prod.mk.inj (Option.some.inj h)
    exact (removeEntry_perm hremove).1

end SortedMap

end BigCodeAnalysis.Sequences
