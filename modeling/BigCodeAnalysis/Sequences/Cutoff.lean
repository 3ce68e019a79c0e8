import Mathlib.Data.List.Nodup
import Mathlib.Data.List.TakeWhile

/-! Histories read up to a cutoff. A walk from the head stops at the first element the cutoff
rejects; a record of such a walk may hold elements from behind that one as well. Raising
the cutoff and extending the head keep what a record covers. -/

namespace BigCodeAnalysis.Sequences

open scoped List

variable {α : Type*}

/-- Ends of one list are the same when they start at the same key. -/
theorem suffix_eq_of_head {κ : Type*} {key : α → κ} {l l₁ l₂ : List α} {k : κ}
    (hnodup : (l.map key).Nodup) (h₁ : l₁ <:+ l) (h₂ : l₂ <:+ l)
    (hk₁ : l₁.head?.map key = some k) (hk₂ : l₂.head?.map key = some k) : l₁ = l₂ := by
  have hends : ∀ {s t : List α}, s <:+ t → t <:+ l → s.head?.map key = some k →
      t.head?.map key = some k → s = t := by
    rintro s t ⟨front, rfl⟩ ht hs htk
    cases front with
    | nil => rfl
    | cons a front =>
      exfalso
      cases s with
      | nil => cases hs
      | cons b s =>
        have hdup : ((a :: front ++ b :: s).map key).Nodup := hnodup.sublist (ht.sublist.map key)
        have hab : key a = key b := by
          simp only [List.cons_append, List.head?_cons, Option.map_some, Option.some.injEq] at hs htk
          rw [hs, htk]
        simp [hab] at hdup
  rcases List.suffix_or_suffix_of_suffix h₁ h₂ with h | h
  · exact hends h h₂ hk₁ hk₂
  · exact (hends h h₁ hk₂ hk₁).symm

/-- `kept` is the walk over `history` with elements from behind its end. -/
def Covers (p : α → Bool) (history kept : List α) : Prop :=
  ∃ behind, behind <+ history.dropWhile p ∧ kept = history.takeWhile p ++ behind

namespace Covers
variable {p q : α → Bool} {history kept : List α}

theorem walk (p : α → Bool) (history : List α) : Covers p history (history.takeWhile p) :=
  ⟨[], List.nil_sublist _, (List.append_nil _).symm⟩

theorem sublist (h : Covers p history kept) : kept <+ history := by
  obtain ⟨behind, hbehind, rfl⟩ := h
  conv_rhs => rw [← List.takeWhile_append_dropWhile (p := p) (l := history)]
  exact (List.Sublist.refl _).append hbehind

theorem filter_takeWhile (q : α → Bool) (history : List α) :
    (history.takeWhile q).filter q = history.takeWhile q :=
  List.filter_eq_self.mpr fun _ ha => List.mem_takeWhile_imp ha

/-- Under a stricter cutoff the record covers what is left of it. -/
theorem restrict (h : Covers p history kept) (hpq : ∀ a, q a = true → p a = true) :
    Covers q history (kept.filter q) := by
  obtain ⟨behind, hbehind, rfl⟩ := h
  have hsplit : history = history.takeWhile q ++ history.dropWhile q :=
    List.takeWhile_append_dropWhile.symm
  have hpos : ∀ a ∈ history.takeWhile q, p a = true := fun a ha =>
    hpq a (List.mem_takeWhile_imp ha)
  have htake : history.takeWhile p =
      history.takeWhile q ++ (history.dropWhile q).takeWhile p := by
    conv_lhs => rw [hsplit]
    exact List.takeWhile_append_of_pos hpos
  have hdrop : history.dropWhile p = (history.dropWhile q).dropWhile p := by
    conv_lhs => rw [hsplit]
    exact List.dropWhile_append_of_pos hpos
  refine ⟨((history.dropWhile q).takeWhile p ++ behind).filter q, ?_, ?_⟩
  · apply List.filter_sublist.trans
    rw [hdrop] at hbehind
    have h := (List.Sublist.refl ((history.dropWhile q).takeWhile p)).append hbehind
    rwa [List.takeWhile_append_dropWhile] at h
  · rw [htake, List.append_assoc, List.filter_append, filter_takeWhile]

/-- A walk that reaches the head of the record goes on with the record. -/
theorem extend (h : Covers p history kept) {newer : List α} (hnewer : ∀ a ∈ newer, p a = true) :
    Covers p (newer ++ history) (newer ++ kept) := by
  obtain ⟨behind, hbehind, rfl⟩ := h
  refine ⟨behind, ?_, ?_⟩
  · rwa [List.dropWhile_append_of_pos hnewer]
  · rw [List.takeWhile_append_of_pos hnewer, List.append_assoc]

variable {β : Type*}

/-- A record makes the same as the walk when nothing is made of what lies behind it. -/
theorem filterMap_eq_iff (h : Covers p history kept) (hnodup : history.Nodup)
    (f : α → Option β) :
    kept.filterMap f = (history.takeWhile p).filterMap f ↔
      ∀ a ∈ kept, (f a).isSome = true → a ∈ history.takeWhile p := by
  obtain ⟨behind, hbehind, rfl⟩ := h
  have hdisjoint : ∀ a ∈ behind, a ∉ history.takeWhile p := by
    intro a ha htake
    rw [← List.takeWhile_append_dropWhile (p := p) (l := history)] at hnodup
    exact (List.nodup_append'.mp hnodup).2.2 htake (hbehind.subset ha)
  rw [List.filterMap_append, List.append_right_eq_self, List.filterMap_eq_nil_iff]
  constructor
  · intro hnone a ha hsome
    rcases List.mem_append.mp ha with ha | ha
    · exact ha
    · rw [hnone a ha] at hsome
      cases hsome
  · intro hmem a ha
    by_contra hsome
    exact hdisjoint a ha (hmem a (List.mem_append_right _ ha) (Option.isSome_iff_ne_none.mpr hsome))

/-- With the cutoff passed at most once, a record holds nothing from behind the walk. -/
theorem filter_eq_walk (h : Covers p history kept)
    (hsorted : history.Pairwise fun a b => p b = true → p a = true) :
    kept.filter p = history.takeWhile p := by
  have hbehind : ∀ (l : List α), (l.Pairwise fun a b => p b = true → p a = true) →
      ∀ a ∈ l.dropWhile p, p a = false := by
    intro l
    induction l with
    | nil => simp
    | cons b l ih =>
      intro hl a ha
      obtain ⟨hb, hl⟩ := List.pairwise_cons.mp hl
      by_cases hpb : p b = true
      · rw [List.dropWhile_cons_of_pos hpb] at ha
        exact ih hl a ha
      · rw [List.dropWhile_cons_of_neg hpb] at ha
        rcases List.mem_cons.mp ha with rfl | ha
        · simpa using hpb
        · by_contra hpa
          exact hpb (hb a ha (by simpa using hpa))
  obtain ⟨behind, hsub, rfl⟩ := h
  have hnil : behind.filter p = [] :=
    List.filter_eq_nil_iff.mpr fun a ha => by
      simp [hbehind history hsorted a (hsub.subset ha)]
  rw [List.filter_append, filter_takeWhile, hnil, List.append_nil]

end Covers

end BigCodeAnalysis.Sequences
