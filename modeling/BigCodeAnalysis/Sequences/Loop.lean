import Mathlib.Data.Nat.Notation

/-! Loops. One turn of the body goes on with a new state or leaves with a result; a turn
that panics is `none`. A run is given a bound on its turns, and a bound that is too small is
`none` as well. -/

namespace BigCodeAnalysis.Sequences

inductive ControlFlow (σ β : Type*) where
  | onward (state : σ)
  | leave (result : β)

namespace Loop

variable {σ β : Type*} (body : σ → Option (ControlFlow σ β))

def run : ℕ → σ → Option β
  | 0, _ => none
  | fuel + 1, s =>
    match body s with
    | none => none
    | some (.leave b) => some b
    | some (.onward s) => run fuel s

/-- `n` turns lead from one state to another, and none of them leaves. -/
inductive Steps : ℕ → σ → σ → Prop where
  | zero (s) : Steps 0 s s
  | succ {n s t u} : body s = some (.onward t) → Steps n t u → Steps (n + 1) s u

variable {body} {m n : ℕ} {s t u : σ}

theorem Steps.one (h : body s = some (.onward t)) : Steps body 1 s t :=
  .succ h (.zero t)

theorem Steps.trans (h : Steps body m s t) (h' : Steps body n t u) :
    Steps body (n + m) s u := by
  induction h with
  | zero s => exact h'
  | succ hbody _ ih => exact .succ hbody (ih h')

theorem Steps.snoc (h : Steps body n s t) (hbody : body t = some (.onward u)) :
    Steps body (n + 1) s u := by
  rw [Nat.add_comm]
  exact h.trans (.one hbody)

/-- A run that goes through `n` turns and then leaves needs a bound above `n`. -/
theorem Steps.run_eq (h : Steps body n s t) {b : β} (hbody : body t = some (.leave b))
    {fuel : ℕ} (hfuel : n < fuel) : run body fuel s = some b := by
  induction h generalizing fuel with
  | zero s =>
    obtain ⟨fuel, rfl⟩ : ∃ k, fuel = k + 1 := ⟨fuel - 1, by omega⟩
    simp only [run, hbody]
  | succ hstep _ ih =>
    obtain ⟨fuel, rfl⟩ : ∃ k, fuel = k + 1 := ⟨fuel - 1, by omega⟩
    simp only [run, hstep]
    exact ih hbody (by omega)

end Loop

end BigCodeAnalysis.Sequences
