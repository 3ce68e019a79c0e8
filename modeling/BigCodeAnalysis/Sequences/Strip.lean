import Mathlib.Data.List.Basic
import Mathlib.Data.List.DropRight

/-! Cutting off both ends of a list. What is cut off in front satisfies one predicate, what is
cut off behind another, and cutting in several goes comes to the same. -/

namespace BigCodeAnalysis.Sequences

variable {α : Type*} {p q : α → Bool}

/-! ### Both ends of an append -/

theorem dropWhile_append_cons (a b : List α) {x : α} (hx : p x = false) :
    (a ++ x :: b).dropWhile p = a.dropWhile p ++ x :: b := by
  have hstop : (x :: b).dropWhile p = x :: b := List.dropWhile_cons_of_neg (by simp [hx])
  rw [List.dropWhile_append]
  split_ifs with hempty
  · rw [hstop, List.isEmpty_iff.mp hempty, List.nil_append]
  · rfl

theorem rdropWhile_append_of_pos {b : List α} (hb : ∀ x ∈ b, p x = true) (a : List α) :
    (a ++ b).rdropWhile p = a.rdropWhile p := by
  unfold List.rdropWhile
  rw [List.reverse_append, List.dropWhile_append_of_pos fun x hx => hb x (List.mem_reverse.mp hx)]

theorem rdropWhile_append_cons (a b : List α) {x : α} (hx : p x = false) :
    (a ++ x :: b).rdropWhile p = a ++ x :: b.rdropWhile p := by
  unfold List.rdropWhile
  rw [List.reverse_append, List.reverse_cons, List.append_assoc, List.singleton_append,
    dropWhile_append_cons _ _ hx, List.reverse_append, List.reverse_cons, List.reverse_reverse,
    List.append_assoc, List.singleton_append]

/-! ### Stripping -/

/-- `y` with something that satisfies `p` in front and something that satisfies `q` behind. -/
def Around (p q : α → Bool) (y l : List α) : Prop :=
  ∃ lead trail, (∀ x ∈ lead, p x = true) ∧ (∀ x ∈ trail, q x = true) ∧ l = lead ++ y ++ trail

def strip (p q : α → Bool) (l : List α) : List α := (l.dropWhile p).rdropWhile q

namespace Around
variable {p' q' : α → Bool} {x y l : List α}

theorem refl (l : List α) : Around p q l l := ⟨[], [], nofun, nofun, (List.append_nil l).symm⟩

theorem trans (hx : Around p q x y) (hy : Around p q y l) : Around p q x l := by
  obtain ⟨lead, trail, hlead, htrail, rfl⟩ := hx
  obtain ⟨lead', trail', hlead', htrail', rfl⟩ := hy
  refine ⟨lead' ++ lead, trail ++ trail', fun z hz => ?_, fun z hz => ?_, ?_⟩
  · exact (List.mem_append.mp hz).elim (hlead' z) (hlead z)
  · exact (List.mem_append.mp hz).elim (htrail z) (htrail' z)
  · simp only [List.append_assoc]

theorem mono (h : Around p q y l) (hp : ∀ x, p x = true → p' x = true)
    (hq : ∀ x, q x = true → q' x = true) : Around p' q' y l := by
  obtain ⟨lead, trail, hlead, htrail, rfl⟩ := h
  exact ⟨lead, trail, fun z hz => hp z (hlead z hz), fun z hz => hq z (htrail z hz), rfl⟩

/-- Stripping does not see what it would cut off. -/
theorem strip_eq (h : Around p q y l) : strip p q l = strip p q y := by
  obtain ⟨lead, trail, hlead, htrail, rfl⟩ := h
  unfold strip
  rw [List.append_assoc, List.dropWhile_append_of_pos hlead, List.dropWhile_append]
  split_ifs with hempty
  · rw [List.isEmpty_iff.mp hempty, List.rdropWhile_nil, List.rdropWhile_eq_nil_iff]
    exact fun x hx => htrail x (List.IsSuffix.mem hx (List.dropWhile_suffix p))
  · exact rdropWhile_append_of_pos htrail _

end Around

theorem around_strip (l : List α) : Around p q (strip p q l) l := by
  refine ⟨l.takeWhile p, (l.dropWhile p).rtakeWhile q, fun x hx => List.mem_takeWhile_imp hx,
    fun x hx => List.mem_rtakeWhile_imp hx, ?_⟩
  rw [List.append_assoc, strip, List.rdropWhile_append_rtakeWhile,
    List.takeWhile_append_dropWhile]

/-- Nothing is left to cut off at either end. -/
def Stripped (p q : α → Bool) (l : List α) : Prop :=
  (∀ x ∈ l.head?, p x = false) ∧ ∀ x ∈ l.getLast?, q x = false

theorem Stripped.strip_eq {l : List α} (h : Stripped p q l) : strip p q l = l := by
  obtain ⟨hhead, hlast⟩ := h
  cases l with
  | nil => rfl
  | cons a l =>
    rw [strip, List.dropWhile_cons_of_neg (by simp [hhead a rfl])]
    refine List.rdropWhile_eq_self_iff.mpr fun hne => ?_
    simp [hlast _ (List.getLast?_eq_some_getLast hne)]

theorem stripped_strip (l : List α) : Stripped p q (strip p q l) := by
  refine ⟨fun x hx => ?_, fun x hx => ?_⟩
  · obtain ⟨rest, hrest⟩ := List.rdropWhile_prefix q (l.dropWhile p)
    have hfirst : (l.dropWhile p).head? = some x := by
      rw [← hrest, List.head?_append]
      exact Option.or_eq_some_iff.mpr (.inl hx)
    have hnot := List.head?_dropWhile_not p l
    rw [hfirst] at hnot
    exact hnot
  · obtain ⟨hne, rfl⟩ := List.mem_getLast?_eq_getLast hx
    exact Bool.eq_false_iff.mpr (List.rdropWhile_last_not q _ hne)

end BigCodeAnalysis.Sequences
