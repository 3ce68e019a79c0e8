import Mathlib.Data.List.Basic

/-! Greedy selection. One candidate after the other is taken, each the top one given those
already taken, until enough are taken or no candidate is left. -/

namespace BigCodeAnalysis.Sequences

open scoped List

variable {α : Type*}

/-- `Greedy enough top taken more`: with `taken` already taken, `more` are taken next. -/
inductive Greedy (enough : List α → Prop) (top : List α → α → Prop) : List α → List α → Prop where
  | stop {taken} (h : enough taken ∨ ∀ a, ¬ top taken a) : Greedy enough top taken []
  | take {taken a more} (henough : ¬ enough taken) (htop : top taken a)
      (hmore : Greedy enough top (taken ++ [a]) more) : Greedy enough top taken (a :: more)

namespace Greedy
variable {enough enough' : List α → Prop} {top top' : List α → α → Prop} {taken more more' : List α}

/-- With a weaker demand an initial part is taken. -/
theorem prefix_of_imp (hunique : ∀ taken a b, top taken a → top taken b → a = b)
    (himp : ∀ taken, enough' taken → enough taken) (h : Greedy enough top taken more)
    (h' : Greedy enough' top taken more') : more <+: more' := by
  induction h generalizing more' with
  | stop => exact List.nil_prefix
  | take henough htop _ ih =>
    cases h' with
    | stop hstop =>
      rcases hstop with hstop | hnone
      · exact absurd (himp _ hstop) henough
      · exact absurd htop (hnone _)
    | take _ htop' hmore' =>
      obtain rfl := hunique _ _ _ htop htop'
      exact (List.prefix_cons_inj _).mpr (ih hmore')

theorem unique (hunique : ∀ taken a b, top taken a → top taken b → a = b)
    (h : Greedy enough top taken more) (h' : Greedy enough top taken more') : more = more' :=
  (h.prefix_of_imp hunique (fun _ h => h) h').eq_of_length_le
    (h'.prefix_of_imp hunique (fun _ h => h) h).length_le

theorem congr (henough : ∀ taken, enough taken ↔ enough' taken)
    (htop : ∀ taken a, top taken a ↔ top' taken a) (h : Greedy enough top taken more) :
    Greedy enough' top' taken more := by
  induction h with
  | stop hstop =>
    exact .stop (hstop.imp (henough _).mp fun hnone a => mt (htop _ a).mpr (hnone a))
  | take hnot ha _ ih => exact .take (mt (henough _).mpr hnot) ((htop _ _).mp ha) ih

/-- At the end enough are taken, or none is left. -/
theorem at_end (h : Greedy enough top taken more) :
    enough (taken ++ more) ∨ ∀ a, ¬ top (taken ++ more) a := by
  induction h with
  | stop hstop => rwa [List.append_nil]
  | take _ _ _ ih => rwa [List.append_assoc] at ih

end Greedy

end BigCodeAnalysis.Sequences
