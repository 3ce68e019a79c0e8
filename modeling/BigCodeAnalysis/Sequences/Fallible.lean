import Mathlib.Data.List.Basic
import Mathlib.Data.Nat.Notation

/-! Lists of computations of which each may fail: the first failure is the answer. -/

namespace BigCodeAnalysis.Sequences
variable {α β ε : Type*}

def mapE (f : α → Except ε β) : List α → Except ε (List β)
  | [] => .ok []
  | a :: as =>
    match f a with
    | .error e => .error e
    | .ok b =>
      match mapE f as with
      | .error e => .error e
      | .ok bs => .ok (b :: bs)

theorem mapE_cons_ok {f : α → Except ε β} {a : α} {as : List α} {bs : List β} :
    mapE f (a :: as) = .ok bs ↔ ∃ b bs', f a = .ok b ∧ mapE f as = .ok bs' ∧ bs = b :: bs' := by
  rw [mapE]
  cases f a with
  | error e => simp
  | ok b =>
    cases mapE f as with
    | error e => simp
    | ok bs' => simp [eq_comm]

theorem mapE_forall₂ {f : α → Except ε β} {as : List α} {bs : List β}
    (h : mapE f as = .ok bs) : List.Forall₂ (fun a b => f a = .ok b) as bs := by
  induction as generalizing bs with
  | nil =>
    cases h
    exact .nil
  | cons a as ih =>
    obtain ⟨b, bs', hb, hbs, rfl⟩ := mapE_cons_ok.mp h
    exact .cons hb (ih hbs)

theorem mapE_ok {f : α → Except ε β} {as : List α} :
    (∃ bs, mapE f as = .ok bs) ↔ ∀ a ∈ as, ∃ b, f a = .ok b := by
  induction as with
  | nil => simp [mapE]
  | cons a as ih =>
    rw [List.forall_mem_cons, ← ih]
    constructor
    · rintro ⟨bs, hbs⟩
      obtain ⟨b, bs', hb, hbs', _⟩ := mapE_cons_ok.mp hbs
      exact ⟨⟨b, hb⟩, bs', hbs'⟩
    · rintro ⟨⟨b, hb⟩, bs', hbs'⟩
      exact ⟨b :: bs', mapE_cons_ok.mpr ⟨b, bs', hb, hbs', rfl⟩⟩

/-- What every result keeps of its element, the lists keep. -/
theorem map_of_mapE {γ : Type*} {f : α → Except ε β} {g : β → γ} {h : α → γ}
    (hf : ∀ a b, f a = .ok b → g b = h a) {as : List α} {bs : List β} (hmap : mapE f as = .ok bs) :
    bs.map g = as.map h := by
  induction as generalizing bs with
  | nil =>
    cases hmap
    rfl
  | cons a as ih =>
    obtain ⟨b, bs', hb, hbs, rfl⟩ := mapE_cons_ok.mp hmap
    rw [List.map_cons, List.map_cons, hf a b hb, ih hbs]

/-- What is computed from an element is in the result, and nothing else is. -/
theorem mem_of_mapE {f : α → Except ε β} {as : List α} {bs : List β} (h : mapE f as = .ok bs)
    {b : β} : b ∈ bs ↔ ∃ a ∈ as, f a = .ok b := by
  induction mapE_forall₂ h with
  | nil => simp
  | cons hab _ ih =>
    obtain ⟨_, _, hb', hbs, heq⟩ := mapE_cons_ok.mp h
    obtain ⟨rfl, rfl⟩ := List.cons.inj heq
    rw [List.mem_cons, ih hbs, List.exists_mem_cons_iff]
    constructor
    · rintro (rfl | hb)
      · exact .inl hab
      · exact .inr hb
    · rintro (hb | hb)
      · exact .inl (Except.ok.inj (hb.symm.trans hab))
      · exact .inr hb

/-- Two outcomes a function does not tell apart look the same to whatever reads no more. -/
theorem map_eq_of_map_eq {ε α β γ : Type*} {x y : Except ε α} {f : α → β} {g : α → γ}
    (h : x.map f = y.map f) (hg : ∀ a b, f a = f b → g a = g b) : x.map g = y.map g := by
  cases x with
  | error e =>
    cases y with
    | error e' => simpa only [Except.map, Except.error.injEq] using h
    | ok b => cases h
  | ok a =>
    cases y with
    | error e' => cases h
    | ok b => exact congrArg Except.ok (hg a b (Except.ok.inj h))

/-- A computation that fails nowhere on a list gives the list of its answers. -/
theorem mapM_eq_some {f : α → Option β} {g : α → β} {as : List α}
    (h : ∀ a ∈ as, f a = some (g a)) : as.mapM f = some (as.map g) := by
  induction as with
  | nil => rfl
  | cons a as ih =>
    have htail := ih fun b hb => h b (List.mem_cons_of_mem a hb)
    rw [List.mapM_cons, h a List.mem_cons_self, htail]
    rfl

theorem getElem?_of_mapM {f : α → Option β} {as : List α} : ∀ {bs : List β},
    as.mapM f = some bs → ∀ {i : ℕ} {a : α}, as[i]? = some a → f a = bs[i]? := by
  induction as with
  | nil =>
    intro bs _ i a ha
    cases ha
  | cons c as ih =>
    intro bs h i a ha
    rw [List.mapM_cons] at h
    obtain ⟨b, hb, h⟩ := Option.bind_eq_some_iff.mp h
    obtain ⟨bs', hbs, h⟩ := Option.bind_eq_some_iff.mp h
    cases h
    cases i with
    | zero =>
      cases ha
      exact hb
    | succ i => exact ih hbs ha

end BigCodeAnalysis.Sequences
