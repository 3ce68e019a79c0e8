import BigCodeAnalysis.Spaces.SpaceTree

/-! What is read off the metrics of every space of the walk's result. When a reading of a
finished space is fixed by its timeline, the readings of the result follow the timelines. -/

namespace BigCodeAnalysis.Spaces

open Trees

variable {R S : Type*}

namespace FuncSpace

mutual
/-- A finished space tree with a reading of its metrics at every space. -/
def readings (g : CodeMetrics R → S) : FuncSpace R → Rose S
  | ⟨_, _, _, _, spaces, metrics, _⟩ => .node (g metrics) (readingsAll g spaces)

def readingsAll (g : CodeMetrics R → S) : List (FuncSpace R) → List (Rose S)
  | [] => []
  | space :: spaces => readings g space :: readingsAll g spaces
end

theorem readings_eq (g : CodeMetrics R → S) (space : FuncSpace R) :
    space.readings g = .node (g space.metrics) (readingsAll g space.spaces) := by
  cases space
  rw [readings]

theorem readingsAll_append (g : CodeMetrics R → S) (xs ys : List (FuncSpace R)) :
    readingsAll g (xs ++ ys) = readingsAll g xs ++ readingsAll g ys := by
  induction xs with
  | nil => rw [readingsAll, List.nil_append, List.nil_append]
  | cons x xs ih => rw [List.cons_append, readingsAll, readingsAll, ih, List.cons_append]

end FuncSpace

variable (lang : Language) (suite : MetricSuite R) (options : MetricsOptions)

/-- The reading of a space that starts on the frame its node opens is fixed by its timeline. -/
def ReadsAs (g : CodeMetrics R → S) (f : Visited → List SpaceStep → S) : Prop :=
  ∀ v steps r, g (finalizeState suite options (Step.execAll (spaceAlgebra lang suite options)
    steps ((spaceAlgebra lang suite options).enter v r)).state).space.metrics = f v steps

variable {lang suite options}

/-- The frame keeps the readings of the spaces merged into it, in order. -/
theorem ReadsAs.execAll {g : CodeMetrics R → S} {f : Visited → List SpaceStep → S}
    (h : ReadsAs lang suite options g f) (steps : List SpaceStep) (r : SpaceRun R) :
    FuncSpace.readingsAll g
        (Step.execAll (spaceAlgebra lang suite options) steps r).state.space.spaces =
      FuncSpace.readingsAll g r.state.space.spaces ++ Step.resultsAll f steps := by
  induction steps using Step.steps_induction generalizing r with
  | nil => simp [Step.resultsAll]
  | visit v rest ih =>
    obtain ⟨-, hspaces⟩ := visit_shape lang suite options v r
    rw [Step.execAll_visit, ih, Step.resultsAll_visit]
    exact congrArg (FuncSpace.readingsAll g · ++ _) hspaces
  | prune node rest ih =>
    obtain ⟨-, hspaces⟩ := prune_shape suite options node r
    rw [Step.execAll_prune, ih, Step.resultsAll_prune]
    exact congrArg (FuncSpace.readingsAll g · ++ _) hspaces
  | child v steps rest ihs ihr =>
    set inner := Step.execAll (spaceAlgebra lang suite options) steps
      ((spaceAlgebra lang suite options).enter v r) with hinner
    obtain ⟨-, hspaces⟩ := foldl_raise_shape inner.outer r
    have hempty : ((spaceAlgebra lang suite options).enter v r).state.space.spaces = [] :=
      (openedState_space lang suite options v).2
    have hchild : (finalizeState suite options inner.state).space.readings g =
        .node (f v steps) (Step.resultsAll f steps) := by
      have hinnerSpaces := ihs ((spaceAlgebra lang suite options).enter v r)
      rw [hempty, FuncSpace.readingsAll, List.nil_append, ← hinner] at hinnerSpaces
      rw [FuncSpace.readings_eq, hinner, h v steps r]
      exact congrArg (Rose.node _) hinnerSpaces
    have hleave : FuncSpace.readingsAll g
        ((spaceAlgebra lang suite options).leave r inner).state.space.spaces =
          FuncSpace.readingsAll g r.state.space.spaces ++
            [(finalizeState suite options inner.state).space.readings g] := by
      show FuncSpace.readingsAll g
        ((inner.outer.foldl SpaceRun.raise r).state.space.spaces ++ [_]) = _
      rw [FuncSpace.readingsAll_append, hspaces]
      rfl
    rw [Step.execAll_child, ihr, ← hinner, hleave, hchild, Step.resultsAll_child,
      List.append_assoc, List.singleton_append]

/-- The readings of the file-level space and of those below it. -/
theorem ReadsAs.runRoot {g : CodeMetrics R → S} {f : Visited → List SpaceStep → S}
    (h : ReadsAs lang suite options g f) (frame : State R) (hspaces : frame.space.spaces = [])
    (name : Option String) (steps : List SpaceStep) :
    FuncSpace.readings g { (finalizeState suite options
        (runRoot lang suite options frame steps).state).space with name := name } =
      .node (g (finalizeState suite options
        (runRoot lang suite options frame steps).state).space.metrics)
        (Step.resultsAll f steps) := by
  have hall := h.execAll steps ⟨frame, true, fun _ => none, []⟩
  simp only [hspaces, FuncSpace.readingsAll, List.nil_append] at hall
  rw [FuncSpace.readings_eq]
  exact congrArg (Rose.node _) hall

end BigCodeAnalysis.Spaces
