import BigCodeAnalysis.Trees.Fold

/-! Serialization of a tree under a bound on its nesting. A level of children that are
not empty counts itself in a counter of the thread, refuses when the count passes the limit,
and counts itself out however it ends. -/

namespace BigCodeAnalysis.Wire

open Trees

variable {σ ε ν F : Type*}

/-- A piece of serialization: the serializer's state and the thread's counter before, and
both after. -/
abbrev Step (σ ε : Type*) := σ → ℕ → Except ε σ × ℕ

namespace Step

def done : Step σ ε := fun s depth => (.ok s, depth)

/-- The second piece, unless the first fails. -/
def andThen (first second : Step σ ε) : Step σ ε := fun s depth =>
  match first s depth with
  | (.ok s, depth) => second s depth
  | (.error e, depth) => (.error e, depth)

/-- The piece leaves the counter as it found it. -/
def Restores (step : Step σ ε) : Prop := ∀ s depth, (step s depth).2 = depth

theorem restores_done : (done : Step σ ε).Restores := fun _ _ => rfl

theorem Restores.andThen {first second : Step σ ε} (h₁ : first.Restores) (h₂ : second.Restores) :
    (first.andThen second).Restores := by
  intro s depth
  have h := h₁ s depth
  unfold Step.andThen
  split
  · next s' depth' heq =>
    rw [heq] at h
    exact (h₂ s' depth').trans h
  · next e depth' heq =>
    rw [heq] at h
    exact h

/-- Whatever the serializer's state, the piece succeeds exactly if `p`. -/
def SucceedsIff (step : Step σ ε) (depth : ℕ) (p : Prop) : Prop :=
  ∀ s, (step s depth).1.isOk = true ↔ p

theorem succeedsIff_done (depth : ℕ) : (done : Step σ ε).SucceedsIff depth True :=
  fun _ => iff_of_true rfl trivial

theorem SucceedsIff.andThen {first second : Step σ ε} {depth : ℕ} {p q : Prop}
    (hrestores : first.Restores) (h₁ : first.SucceedsIff depth p)
    (h₂ : second.SucceedsIff depth q) : (first.andThen second).SucceedsIff depth (p ∧ q) := by
  intro s
  have hdepth := hrestores s depth
  have hfirst := h₁ s
  unfold Step.andThen
  split
  · next s' depth' heq =>
    rw [heq] at hdepth hfirst
    subst hdepth
    rw [h₂ s', ← hfirst]
    exact (and_iff_right rfl).symm
  · next e depth' heq =>
    rw [heq] at hfirst
    rw [← hfirst]
    simp [Except.isOk, Except.toBool]

end Step

/-- A serializer takes events and may fail at any of them. The counter is out of its reach but
for what it serializes on the same thread meanwhile. -/
structure Serializer (ν σ ε : Type*) where
  emit : ν → Step σ ε
  custom : String → ε
  restores : ∀ event, (emit event).Restores

namespace Serializer

variable (serializer : Serializer ν σ ε)

def NeverFails : Prop := ∀ event s depth, ((serializer.emit event) s depth).1.isOk = true

def emitAll : List ν → Step σ ε
  | [] => .done
  | event :: events => (serializer.emit event).andThen (emitAll events)

theorem emitAll_restores (events : List ν) : (serializer.emitAll events).Restores := by
  induction events with
  | nil => exact Step.restores_done
  | cons event events ih => exact (serializer.restores event).andThen ih

variable {serializer}

theorem NeverFails.emitAll (h : serializer.NeverFails) (events : List ν) (depth : ℕ) :
    (serializer.emitAll events).SucceedsIff depth True := by
  induction events with
  | nil => exact Step.succeedsIff_done depth
  | cons event events ih =>
    have hevent : (serializer.emit event).SucceedsIff depth True :=
      fun s => iff_of_true (h event s depth) trivial
    have hall := hevent.andThen (serializer.restores event) ih
    rwa [true_and] at hall

end Serializer

/-! ### The bound -/

/-- One level further in, and out again when the body ends: the guard's drop. -/
def guarded (body : Step σ ε) : Step σ ε := fun s depth =>
  let (result, left) := body s (depth + 1)
  (result, left - 1)

def refusal (typeName : String) (limit : ℕ) : String :=
  typeName ++ " nesting is deeper than the serialization limit of " ++ toString limit ++ " levels"

/-- `serialize_bounded`, given whether there are children, and how they are written. -/
def serializeBounded (custom : String → ε) (empty : Bool) (limit : ℕ) (typeName : String)
    (children : Step σ ε) : Step σ ε :=
  if empty then children
  else guarded fun s depth =>
    if limit < depth then (.error (custom (refusal typeName limit)), depth) else children s depth

theorem guarded_restores {body : Step σ ε} (h : body.Restores) : (guarded body).Restores := by
  intro s depth
  simp only [guarded]
  rw [h s (depth + 1), Nat.add_sub_cancel]

theorem serializeBounded_restores (custom : String → ε) (empty : Bool) (limit : ℕ)
    (typeName : String) {children : Step σ ε} (h : children.Restores) :
    (serializeBounded custom empty limit typeName children).Restores := by
  unfold serializeBounded
  split
  · exact h
  · refine guarded_restores fun s depth => ?_
    split
    · rfl
    · exact h s depth

theorem serializeBounded_succeedsIff (custom : String → ε) (limit : ℕ) (typeName : String)
    {children : Step σ ε} {depth : ℕ} {p : Prop}
    (h : depth + 1 ≤ limit → children.SucceedsIff (depth + 1) p) :
    (serializeBounded custom false limit typeName children).SucceedsIff depth
      (depth + 1 ≤ limit ∧ p) := by
  intro s
  simp only [serializeBounded, guarded, Bool.false_eq_true, if_false]
  by_cases hlimit : depth + 1 ≤ limit
  · rw [if_neg (by omega), and_iff_right hlimit]
    exact h hlimit s
  · rw [if_pos (by omega)]
    simp [hlimit, Except.isOk, Except.toBool]

/-! ### Trees -/

/-- How the nodes of a tree are written: the events before a node's children, those after,
and what a list of children costs. -/
structure Format (F ν : Type*) where
  typeName : String
  before : F → List ν
  seqStart : ℕ → ν
  seqEnd : ν
  after : F → List ν

section Tree
variable (format : Format F ν) (serializer : Serializer ν σ ε) (limit : ℕ)

mutual
def serialize : Rose F → Step σ ε
  | .node fields children =>
    (serializer.emitAll (format.before fields)).andThen <|
    (serializeBounded serializer.custom children.isEmpty limit format.typeName
      ((serializer.emit (format.seqStart children.length)).andThen <|
        (serializeElements children).andThen (serializer.emit format.seqEnd))).andThen <|
    serializer.emitAll (format.after fields)

def serializeElements : List (Rose F) → Step σ ε
  | [] => .done
  | child :: children => (serialize child).andThen (serializeElements children)
end

theorem serialize_restores :
    (∀ t : Rose F, (serialize format serializer limit t).Restores) ∧
      ∀ ts : List (Rose F), (serializeElements format serializer limit ts).Restores := by
  refine Rose.tree_forest_induction (fun fields children ih => ?_) ?_ (fun t ts iht ihts => ?_)
  · rw [serialize]
    refine (serializer.emitAll_restores _).andThen (.andThen ?_ (serializer.emitAll_restores _))
    apply serializeBounded_restores
    exact (serializer.restores _).andThen (ih.andThen (serializer.restores _))
  · rw [serializeElements]
    exact Step.restores_done
  · rw [serializeElements]
    exact iht.andThen ihts

variable {serializer}

/-- Within the limit, a tree is written exactly if its levels do not pass it. Its children
are one level further in. -/
theorem serialize_succeedsIff (h : serializer.NeverFails) :
    (∀ (t : Rose F) (depth : ℕ), depth ≤ limit →
      (serialize format serializer limit t).SucceedsIff depth (depth + t.levels ≤ limit)) ∧
    ∀ (ts : List (Rose F)) (depth : ℕ), depth ≤ limit →
      (serializeElements format serializer limit ts).SucceedsIff depth
        (depth + Rose.forestLevels ts ≤ limit + 1) := by
  have hemit : ∀ event depth, (serializer.emit event).SucceedsIff depth True :=
    fun event depth s => iff_of_true (h event s depth) trivial
  refine Rose.tree_forest_induction ?node ?nil ?cons
  case node =>
    intro fields children ih depth hdepth
    have hseq : ∀ depth ≤ limit,
        ((serializer.emit (format.seqStart children.length)).andThen <|
          (serializeElements format serializer limit children).andThen
            (serializer.emit format.seqEnd)).SucceedsIff depth
          (depth + Rose.forestLevels children ≤ limit + 1) := by
      intro depth hdepth
      have hboth := (hemit (format.seqStart children.length) depth).andThen (serializer.restores _)
        ((ih depth hdepth).andThen ((serialize_restores format serializer limit).2 children)
          (hemit format.seqEnd depth))
      rwa [true_and, and_true] at hboth
    have hspaces : (serializeBounded serializer.custom children.isEmpty limit format.typeName
        ((serializer.emit (format.seqStart children.length)).andThen <|
          (serializeElements format serializer limit children).andThen
            (serializer.emit format.seqEnd))).SucceedsIff depth
          (depth + Rose.forestLevels children ≤ limit) := by
      cases children with
      | nil =>
        intro s
        rw [Rose.forestLevels, Nat.add_zero]
        have hempty := hseq depth hdepth s
        rw [Rose.forestLevels] at hempty
        exact hempty.trans (iff_of_true (by omega) hdepth)
      | cons child children =>
        have hpos : 0 < Rose.forestLevels (child :: children) := by
          rw [Rose.forestLevels]
          omega
        intro s
        refine (serializeBounded_succeedsIff _ _ _ (hseq (depth + 1)) s).trans ?_
        omega
    have hbefore := h.emitAll (format.before fields) depth
    have hafter := h.emitAll (format.after fields) depth
    have hrestores := serializeBounded_restores serializer.custom children.isEmpty limit
      format.typeName ((serializer.restores (format.seqStart children.length)).andThen
        (((serialize_restores format serializer limit).2 children).andThen
          (serializer.restores format.seqEnd)))
    have hnode := hbefore.andThen (serializer.emitAll_restores _)
      (hspaces.andThen hrestores hafter)
    rw [true_and, and_true] at hnode
    rwa [serialize, Rose.levels]
  case nil =>
    intro depth hdepth
    rw [serializeElements, Rose.forestLevels]
    intro s
    exact iff_of_true rfl (by omega)
  case cons =>
    intro t ts iht ihts depth hdepth
    have hall := (iht depth hdepth).andThen ((serialize_restores format serializer limit).1 t)
      (ihts depth hdepth)
    rw [serializeElements, Rose.forestLevels]
    intro s
    rw [hall s]
    omega

/-- A tree's serialization from a counter at zero. -/
theorem serialize_spec (serializer : Serializer ν σ ε) (t : Rose F) :
    (serialize format serializer limit t).Restores ∧
      (serializer.NeverFails →
        (serialize format serializer limit t).SucceedsIff 0 (t.levels ≤ limit)) := by
  refine ⟨(serialize_restores format serializer limit).1 t, fun h => ?_⟩
  have ht := (serialize_succeedsIff format limit h).1 t 0 (Nat.zero_le _)
  rwa [Nat.zero_add] at ht

end Tree

/-- Counts what it is given. -/
private def counter : Serializer Unit ℕ String where
  emit _ n depth := (.ok (n + 1), depth)
  custom text := text
  restores _ _ _ := rfl

example :
    let format : Format Unit Unit := ⟨"Probe", fun _ => [], fun _ => (), (), fun _ => []⟩
    let deep : Rose Unit := .node () [.node () [.node () []]]
    serialize format counter 1 deep 0 0 =
        (.error "Probe nesting is deeper than the serialization limit of 1 levels", 0) ∧
      serialize format counter 2 deep 0 0 = (.ok 6, 0) :=
  ⟨by rfl, by rfl⟩

end BigCodeAnalysis.Wire
