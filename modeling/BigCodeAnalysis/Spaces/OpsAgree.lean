import BigCodeAnalysis.Spaces.Ops
import BigCodeAnalysis.Spaces.SpaceTree
import Mathlib.Data.List.Forall2

/-! The two walks of the repository compared space by space. The metrics walk normalises the
whitespace of a name and the other walk does not; in everything else they agree. Both walks are
run side by side on one stack of pending nodes: one pop of each keeps their open spaces in
correspondence, closing corresponding spaces gives corresponding profiles, and what is left is
whether a name is changed by being normalised. -/

namespace BigCodeAnalysis.Spaces

open Trees Trees.StackWalk

variable {R : Type*}

/-! ### Profiles -/

/-- What a user can compare at corresponding spaces: the label and the sizes of the
operator and operand vocabularies. -/
structure SpaceProfile where
  label : SpaceLabel
  operators : ℕ
  operands : ℕ
  deriving DecidableEq

/-- The profile with the whitespace of its name normalised. -/
def SpaceProfile.normalize (p : SpaceProfile) : SpaceProfile :=
  { p with label := { p.label with name := p.label.name.map normalizeName } }

mutual
/-- The space tree with Halstead `n1` and `n2`. -/
def FuncSpace.profile : FuncSpace R → Rose SpaceProfile
  | ⟨name, startLine, endLine, kind, spaces, metrics, _⟩ =>
    .node ⟨⟨name, kind, startLine, endLine⟩, metrics.halstead.uOperators,
      metrics.halstead.uOperands⟩ (FuncSpace.profiles spaces)

def FuncSpace.profiles : List (FuncSpace R) → List (Rose SpaceProfile)
  | [] => []
  | space :: spaces => space.profile :: FuncSpace.profiles spaces
end

mutual
/-- The space tree with the numbers of listed operators and operands. -/
def Ops.profile : Ops → Rose SpaceProfile
  | ⟨name, _, startLine, endLine, kind, spaces, operands, operators⟩ =>
    .node ⟨⟨name, kind, startLine, endLine⟩, operators.length, operands.length⟩
      (Ops.profiles spaces)

def Ops.profiles : List Ops → List (Rose SpaceProfile)
  | [] => []
  | ops :: rest => ops.profile :: Ops.profiles rest
end

mutual
def Ops.names : Ops → List (Option String)
  | ⟨name, _, _, _, _, spaces, _, _⟩ => name :: Ops.namesAll spaces

/-- The names of spaces and of the spaces in them. -/
def Ops.namesAll : List Ops → List (Option String)
  | [] => []
  | ops :: rest => ops.names ++ Ops.namesAll rest
end

theorem FuncSpace.profile_eq (space : FuncSpace R) :
    space.profile = .node ⟨space.label, space.metrics.halstead.uOperators,
      space.metrics.halstead.uOperands⟩ (FuncSpace.profiles space.spaces) := by
  cases space; simp only [FuncSpace.profile, FuncSpace.label]

theorem FuncSpace.profiles_append (xs ys : List (FuncSpace R)) :
    FuncSpace.profiles (xs ++ ys) = FuncSpace.profiles xs ++ FuncSpace.profiles ys := by
  induction xs with
  | nil => simp [FuncSpace.profiles]
  | cons x xs ih => simp [FuncSpace.profiles, ih]

theorem Ops.profile_eq (ops : Ops) :
    ops.profile = .node ⟨⟨ops.name, ops.kind, ops.startLine, ops.endLine⟩,
      ops.operators.length, ops.operands.length⟩ (Ops.profiles ops.spaces) := by
  cases ops; simp only [Ops.profile]

theorem Ops.profiles_append (xs ys : List Ops) :
    Ops.profiles (xs ++ ys) = Ops.profiles xs ++ Ops.profiles ys := by
  induction xs with
  | nil => simp [Ops.profiles]
  | cons x xs ih => simp [Ops.profiles, ih]

theorem Ops.induction {motive : List Ops → Prop} (nil : motive [])
    (cons : ∀ ops rest, motive ops.spaces → motive rest → motive (ops :: rest))
    (spaces : List Ops) : motive spaces :=
  @Ops.rec_1 (fun ops => motive ops.spaces) motive
    (fun _ _ _ _ _ _ _ _ ih => ih) nil (fun ops rest ihops ihrest => cons ops rest ihops ihrest)
    spaces

section Related
variable (lang : Language) (suite : MetricSuite R) (rendering : Rendering)

/-- Corresponding open spaces. -/
structure FramesAgree (f : State R) (o : OpsState) : Prop where
  maps : f.halsteadMaps = o.halsteadMaps
  label : f.space.label =
    ⟨o.ops.name.map normalizeName, o.ops.kind, o.ops.startLine, o.ops.endLine⟩
  spaces : FuncSpace.profiles f.space.spaces =
    Rose.mapForest SpaceProfile.normalize (Ops.profiles o.ops.spaces)

theorem sortedVocabulary_length (keys : List (List UInt8)) :
    (sortedVocabulary rendering keys).length = keys.length := by
  simp only [sortedVocabulary]
  split_ifs <;> simp

variable (selected : Finset Metric)

/-- The vocabularies listed for a frame have the sizes counted for it. -/
theorem FramesAgree.counts {f : State R} {o : OpsState} (h : FramesAgree f o) :
    (finalizeState suite ⟨insert .halstead selected, false⟩ f).space.metrics.halstead.uOperators =
        (computeOperatorsAndOperands rendering o).ops.operators.length ∧
      (finalizeState suite ⟨insert .halstead selected, false⟩ f).space.metrics.halstead.uOperands =
        (computeOperatorsAndOperands rendering o).ops.operands.length := by
  simp only [finalizeState, computeOperatorsAndOperands, Finset.mem_insert_self, if_true, h.maps,
    sortedVocabulary_length, Metrics.Halstead.HalsteadMaps.finalize,
    Metrics.Halstead.CountMap.keys, List.length_append, List.length_map, and_self]

/-- Corresponding frames close to corresponding spaces. -/
theorem FramesAgree.closed {f : State R} {o : OpsState} (h : FramesAgree f o) :
    (finalizeState suite ⟨insert .halstead selected, false⟩ f).space.profile =
      Rose.map SpaceProfile.normalize (computeOperatorsAndOperands rendering o).ops.profile := by
  have hlabel : (finalizeState suite ⟨insert .halstead selected, false⟩ f).space.label =
      f.space.label := rfl
  have hspaces : (finalizeState suite ⟨insert .halstead selected, false⟩ f).space.spaces =
      f.space.spaces := rfl
  obtain ⟨hoperators, hoperands⟩ := h.counts suite rendering selected
  rw [FuncSpace.profile_eq, Ops.profile_eq, hlabel, hspaces, h.label, h.spaces, hoperators,
    hoperands]
  simp only [Rose.map, SpaceProfile.normalize, computeOperatorsAndOperands]

theorem FramesAgree.absorb {f g : State R} {o p : OpsState} (hparent : FramesAgree f o)
    (hchild : FramesAgree g p) :
    FramesAgree (absorb suite f (finalizeState suite ⟨insert .halstead selected, false⟩ g))
      (opsAbsorb o (computeOperatorsAndOperands rendering p)) where
  maps := by
    change f.halsteadMaps.merge g.halsteadMaps = o.halsteadMaps.merge p.halsteadMaps
    rw [hparent.maps, hchild.maps]
  label := hparent.label
  spaces := by
    simp only [Spaces.absorb, opsAbsorb, FuncSpace.profiles_append, FuncSpace.profiles,
      hchild.closed suite rendering selected, hparent.spaces, Ops.profiles_append, Ops.profiles,
      Rose.mapForest_append, Rose.mapForest]

theorem FramesAgree.finalizeState {f : State R} {o : OpsState} (h : FramesAgree f o) :
    FramesAgree (finalizeState suite ⟨insert .halstead selected, false⟩ f) o :=
  ⟨h.maps, h.label, h.spaces⟩

end Related

/-! ### The names of the spaces -/

section Names
variable (lang : Language) (suite : MetricSuite R) (rendering : Rendering)

mutual
def openedNames (ancestors : Ancestors) : Node → List (Option String)
  | .node a cs =>
    let below := openedNamesForest (ancestors ++ [.node a cs]) cs
    if lang.promotesToFuncSpaceWithCode ancestors (.node a cs) then
      (Ops.new lang ancestors (.node a cs)
        (lang.getSpaceKindWithCode ancestors (.node a cs))).name :: below
    else below

/-- The getter's names of the nodes that open a space, in pre-order. -/
def openedNamesForest (ancestors : Ancestors) : List Node → List (Option String)
  | [] => []
  | t :: ts => openedNames ancestors t ++ openedNamesForest ancestors ts
end

def stackNames (stateStack : List OpsState) : List (Option String) :=
  stateStack.flatMap fun s => s.ops.names

def bottomName (stateStack : List OpsState) : Option (Option String) :=
  stateStack.getLast?.map fun s => s.ops.name

/-- What a visit adds to the names on the stack. -/
structure NamesAdded (added : List (Option String)) (before after : List OpsState) : Prop where
  names : (stackNames after).Perm (stackNames before ++ added)
  bottom : bottomName after = (bottomName before).or added.head?

theorem NamesAdded.trans {xs ys : List (Option String)} {a b c : List OpsState}
    (h₁ : NamesAdded xs a b) (h₂ : NamesAdded ys b c) : NamesAdded (xs ++ ys) a c where
  names := by
    refine h₂.names.trans ((h₁.names.append_right ys).trans ?_)
    rw [List.append_assoc]
  bottom := by
    rw [h₂.bottom, h₁.bottom, Option.or_assoc, List.head?_append]

theorem NamesAdded.refl (stateStack : List OpsState) : NamesAdded [] stateStack stateStack where
  names := by simp
  bottom := by simp

end Names

section Agree
variable (lang : Language) (suite : MetricSuite R) (rendering : Rendering)

end Agree

end BigCodeAnalysis.Spaces
