import Mathlib.Algebra.BigOperators.Group.List.Basic
import Mathlib.Algebra.GroupWithZero.Nat
import Mathlib.Data.List.Flatten
import Mathlib.Data.List.Forall2

/-! The elements of one list, each replaced by a related one, in any order. -/

namespace BigCodeAnalysis.Sequences

variable {α β γ δ : Type*}

def Reordered (R : α → β → Prop) (l : List α) (l' : List β) : Prop :=
  ∃ mid, List.Forall₂ R l mid ∧ mid.Perm l'

namespace Reordered
variable {R : α → β → Prop} {S : γ → δ → Prop} {l : List α} {l' : List β}

theorem mono {R' : α → β → Prop} (himp : ∀ a ∈ l, ∀ b, R a b → R' a b) (h : Reordered R l l') :
    Reordered R' l l' := by
  obtain ⟨mid, hrel, hperm⟩ := h
  refine ⟨mid, ?_, hperm⟩
  have hboth := (List.forall₂_and_left (p := (· ∈ l)) l mid).mpr ⟨fun a ha => ha, hrel⟩
  exact hboth.imp fun a b h => himp a h.1 b h.2

theorem map {f : α → γ} {g : β → δ} (himp : ∀ a b, R a b → S (f a) (g b))
    (h : Reordered R l l') : Reordered S (l.map f) (l'.map g) := by
  obtain ⟨mid, hrel, hperm⟩ := h
  exact ⟨mid.map g, List.rel_map himp hrel, hperm.map g⟩

theorem filter {p : α → Bool} {q : β → Bool} (himp : ∀ a b, R a b → p a = q b)
    (h : Reordered R l l') : Reordered R (l.filter p) (l'.filter q) := by
  obtain ⟨mid, hrel, hperm⟩ := h
  refine ⟨mid.filter q, List.rel_filter (fun a b h => ?_) hrel, hperm.filter q⟩
  show p a = true ↔ q b = true
  rw [himp a b h]

theorem length_eq (h : Reordered R l l') : l.length = l'.length := by
  obtain ⟨mid, hrel, hperm⟩ := h
  exact hrel.length_eq.trans hperm.length_eq

theorem perm_map {f : α → γ} {g : β → γ} (himp : ∀ a b, R a b → f a = g b)
    (h : Reordered R l l') : (l.map f).Perm (l'.map g) := by
  obtain ⟨mid, hrel, hperm⟩ := h
  have hmap : l.map f = mid.map g := List.forall₂_eq_eq_eq ▸ List.rel_map himp hrel
  exact hmap ▸ hperm.map g

theorem countP_eq {p : α → Bool} {q : β → Bool} (himp : ∀ a b, R a b → p a = q b)
    (h : Reordered R l l') : l.countP p = l'.countP q := by
  have hcount := (h.perm_map himp).countP_eq id
  rwa [List.countP_map, List.countP_map] at hcount

theorem sum_eq {f : α → ℕ} {g : β → ℕ} (himp : ∀ a b, R a b → f a = g b)
    (h : Reordered R l l') : (l.map f).sum = (l'.map g).sum :=
  (h.perm_map himp).sum_eq

theorem perm_flatMap {f : α → List γ} {g : β → List γ} (himp : ∀ a b, R a b → (f a).Perm (g b))
    (h : Reordered R l l') : (l.flatMap f).Perm (l'.flatMap g) := by
  obtain ⟨mid, hrel, hperm⟩ := h
  have hmid : (l.flatMap f).Perm (mid.flatMap g) := by
    clear hperm
    induction hrel with
    | nil => exact .refl _
    | cons hab _ ih => exact (himp _ _ hab).append ih
  exact hmid.trans (hperm.flatMap_right g)

end Reordered

end BigCodeAnalysis.Sequences
