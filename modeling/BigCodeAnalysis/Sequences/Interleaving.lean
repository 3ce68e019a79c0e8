import Mathlib.Data.List.Induction

/-! Runs of a state machine whose threads take turns. The events name whose turn it is; a step
that is not enabled ends the run. -/

namespace BigCodeAnalysis.Sequences

variable {S E : Type*}

def runFrom (step : S → E → Option S) (s : S) (events : List E) : Option S := events.foldlM step s

variable {step : S → E → Option S}

theorem runFrom_append (s : S) (events : List E) (e : E) :
    runFrom step s (events ++ [e]) = (runFrom step s events).bind fun s' => step s' e := by
  rw [runFrom, List.foldlM_append]
  cases h : List.foldlM step s events <;> simp [runFrom, h]

/-- What holds at the start and is kept by every step holds after every run. The claim may speak
of the events so far. -/
theorem runFrom_induction {s₀ : S} (Holds : List E → S → Prop) (hinit : Holds [] s₀)
    (hstep : ∀ events s e s', Holds events s → step s e = some s' → Holds (events ++ [e]) s')
    (events : List E) : ∀ s, runFrom step s₀ events = some s → Holds events s := by
  induction events using List.reverseRecOn with
  | nil =>
    intro s hrun
    obtain rfl := Option.some.inj hrun
    exact hinit
  | append_singleton events e ih =>
    intro s hrun
    rw [runFrom_append] at hrun
    obtain ⟨s', hs', hlast⟩ := Option.bind_eq_some_iff.mp hrun
    exact hstep events s' e s (ih s' hs') hlast

/-- A measure that every step lowers bounds the length of the runs. -/
theorem runFrom_length_le {s₀ s : S} (Inv : S → Prop) (measure : S → ℕ) (hinit : Inv s₀)
    (hstep : ∀ s e s', Inv s → step s e = some s' → Inv s' ∧ measure s' < measure s)
    {events : List E} (hrun : runFrom step s₀ events = some s) :
    events.length + measure s ≤ measure s₀ := by
  have h := runFrom_induction
    (fun events s => Inv s ∧ events.length + measure s ≤ measure s₀) ⟨hinit, by simp⟩ ?_ events s hrun
  · exact h.2
  · rintro events s e s' ⟨hinv, hle⟩ hlast
    obtain ⟨hinv', hlt⟩ := hstep s e s' hinv hlast
    refine ⟨hinv', ?_⟩
    rw [List.length_append, List.length_singleton]
    omega

end BigCodeAnalysis.Sequences
