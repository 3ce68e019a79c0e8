import BigCodeAnalysis.Metrics.Wmc
import Mathlib.Algebra.BigOperators.Group.List.Basic
import Mathlib.Tactic.Ring

/-! The weighted methods of a space tree. The merges are run over the tree, and what they
leave in every finished space is told from the tree alone: its cyclomatic total, the total
its functions report as claimed by nested containers, and the weights of its methods. -/

namespace BigCodeAnalysis.Metrics.Wmc

open Trees Spaces

/-- A space of the finished tree. Its own complexity starts at 1. -/
structure Space where
  kind : SpaceKind
  nonMember : Bool
  decisions : ℕ
  deriving DecidableEq, Repr

namespace Space

def complexity (a : Space) : ℤ := 1 + a.decisions

def isContainer (a : Space) : Bool := a.kind = .class ∨ a.kind = .interface

def isFunction (a : Space) : Bool := a.kind = .function

/-- A method of the container around it. -/
def isMethod (a : Space) : Bool := a.isFunction ∧ ¬ a.nonMember

theorem isContainer_eq_false_of_isFunction {a : Space} (h : a.isFunction = true) :
    a.isContainer = false := by
  simp only [isFunction, decide_eq_true_eq] at h
  simp [isContainer, h]

end Space

abbrev SpaceTree := Rose Space

/-! ### The merges over a space tree -/

mutual
/-- The counts of a finished space, its children finished and merged before it. -/
def finished : SpaceTree → Frame
  | .node a cs =>
    (absorbForest cs ((Frame.opened a.kind a.nonMember).visit a.decisions)).finalize

def absorbForest : List SpaceTree → Frame → Frame
  | [], frame => frame
  | t :: ts, frame => absorbForest ts (frame.absorb (finished t))
end

/-! ### The tree's own account -/

mutual
def total : SpaceTree → ℤ
  | .node a cs => a.complexity + totalForest cs

/-- The cyclomatic total of a forest. -/
def totalForest : List SpaceTree → ℤ
  | [] => 0
  | t :: ts => total t + totalForest ts
end

mutual
def claimed : SpaceTree → ℤ
  | .node a cs =>
    if a.isFunction then claimedForest cs
    else if a.isContainer then total (.node a cs) else 0

/-- What a forest reports upwards as claimed by nested containers: only functions forward
what is below them. -/
def claimedForest : List SpaceTree → ℤ
  | [] => 0
  | t :: ts => claimed t + claimedForest ts
end

/-! ### What the merges compute -/

open Stats (recordedKind recordsCyclomatic)

/-- What a tree adds to the weights of a container it is merged into. -/
def weight (t : SpaceTree) : ℤ := if t.label.isMethod then total t - claimed t else 0

/-- A frame whose kind is recorded, or not recorded yet. -/
def KindRecorded (frame : Frame) : Prop :=
  frame.wmc.spaceKind = .unknown ∨ frame.wmc.spaceKind = recordedKind frame.kind

/-- The counts of a finished tree. -/
structure FinishedAs (frame : Frame) (t : SpaceTree) : Prop where
  kind : frame.wmc.spaceKind = recordedKind t.label.kind
  sum : frame.cyclomatic.cyclomaticSum = total t
  cyclomatic : recordsCyclomatic t.label.kind = true → frame.wmc.cyclomatic = total t
  nested : frame.wmc.nestedClassCyclomatic = claimedForest t.children
  nonMember : frame.wmc.nonMember = t.label.nonMember

theorem compute_spaceKind {frame : Frame} (h : KindRecorded frame) :
    frame.compute.wmc.spaceKind = recordedKind frame.kind := by
  rw [Frame.compute, Stats.classInterfaceCompute_eq]
  dsimp only
  rcases h with h | h
  · rw [if_pos h]
  · split_ifs with hunknown
    · rfl
    · exact h

/-- What merging a finished tree into an open frame changes. -/
structure Absorbs (frame frame' : Frame) (sum nested weight classSum interfaceSum : ℤ) :
    Prop where
  kind : frame'.kind = frame.kind
  recorded : KindRecorded frame'
  own : frame'.cyclomatic.cyclomatic = frame.cyclomatic.cyclomatic
  sum : frame'.cyclomatic.cyclomaticSum = frame.cyclomatic.cyclomaticSum + sum
  nested : frame'.wmc.nestedClassCyclomatic = frame.wmc.nestedClassCyclomatic + nested
  nonMember : frame'.wmc.nonMember = frame.wmc.nonMember
  classWmc : frame'.wmc.classWmc =
    frame.wmc.classWmc + if frame.kind = .class then weight else 0
  interfaceWmc : frame'.wmc.interfaceWmc =
    frame.wmc.interfaceWmc + if frame.kind = .interface then weight else 0
  classWmcSum : frame'.wmc.classWmcSum = frame.wmc.classWmcSum + classSum
  interfaceWmcSum : frame'.wmc.interfaceWmcSum = frame.wmc.interfaceWmcSum + interfaceSum

theorem recordedKind_eq_class {kind : SpaceKind} : recordedKind kind = .class ↔ kind = .class := by
  cases kind <;> simp [recordedKind]

theorem recordedKind_eq_interface {kind : SpaceKind} :
    recordedKind kind = .interface ↔ kind = .interface := by
  cases kind <;> simp [recordedKind]

/-- The part of a merge that depends on the kind of the finished child. -/
theorem merge_child {s child : Stats} {t : SpaceTree}
    (hkind : child.spaceKind = recordedKind t.label.kind)
    (hcyclomatic : recordsCyclomatic t.label.kind = true → child.cyclomatic = total t)
    (hnested : child.nestedClassCyclomatic = claimedForest t.children)
    (hnonMember : child.nonMember = t.label.nonMember) :
    (s.merge child).nestedClassCyclomatic = s.nestedClassCyclomatic + claimed t ∧
      (s.merge child).classWmc =
        s.classWmc + (if s.spaceKind = .class then weight t else 0) ∧
      (s.merge child).interfaceWmc =
        s.interfaceWmc + (if s.spaceKind = .interface then weight t else 0) := by
  obtain ⟨a, cs⟩ := t
  dsimp only [Rose.label_node, Rose.children_node] at *
  by_cases hfunction : a.kind = .function
  · have hchild : child.spaceKind = .function := by rw [hkind, hfunction]; rfl
    have hclaimed : claimed (.node a cs) = claimedForest cs := by
      simp [claimed, Space.isFunction, hfunction]
    have hcontribution : child.contribution = total (.node a cs) - claimedForest cs := by
      rw [Stats.contribution, hcyclomatic (by rw [hfunction]; rfl), hnested]
    by_cases hmember : a.nonMember = true
    · have hweight : weight (.node a cs) = 0 := by simp [weight, Space.isMethod, hmember]
      simp [Stats.merge, hchild, hnonMember, hmember, Stats.addNested, hnested, hclaimed, hweight]
    · have hweight : weight (.node a cs) = total (.node a cs) - claimedForest cs := by
        simp [weight, Space.isMethod, Space.isFunction, hfunction, hmember, hclaimed]
      rw [hclaimed, hweight, ← hcontribution, ← hnested]
      simp only [Stats.merge, hchild, hnonMember, hmember, Bool.false_eq_true, if_false,
        Stats.addNested, Stats.addMethod_classWmc, Stats.addMethod_interfaceWmc, and_true]
      rw [Stats.addMethod_eq]
  · have hnotFunction : a.isFunction = false := by simp [Space.isFunction, hfunction]
    have hweight : weight (.node a cs) = 0 := by simp [weight, Space.isMethod, hnotFunction]
    rw [hweight, ite_self, ite_self, add_zero, add_zero]
    by_cases hcontainer : a.isContainer = true
    · have hclaimed : claimed (.node a cs) = total (.node a cs) := by
        simp [claimed, hnotFunction, hcontainer]
      rw [hclaimed]
      rcases (by simpa [Space.isContainer] using hcontainer : a.kind = .class ∨ a.kind = .interface)
        with h | h
      · simp [Stats.merge, hkind, h, recordedKind, Stats.addNested,
          hcyclomatic (by rw [h]; rfl)]
      · simp [Stats.merge, hkind, h, recordedKind, Stats.addNested,
          hcyclomatic (by rw [h]; rfl)]
    · have hclaimed : claimed (.node a cs) = 0 := by simp [claimed, hnotFunction, hcontainer]
      rw [hclaimed, add_zero]
      have hchild : child.spaceKind ≠ .function ∧ child.spaceKind ≠ .class ∧
          child.spaceKind ≠ .interface := by
        simp only [Space.isContainer, decide_eq_true_eq, not_or] at hcontainer
        obtain ⟨hclass, hinterface⟩ := hcontainer
        rw [hkind]
        cases hk : a.kind <;> simp_all [recordedKind]
      obtain ⟨h₁, h₂, h₃⟩ := hchild
      cases hk : child.spaceKind <;> simp_all [Stats.merge]

theorem absorb_absorbs {frame child : Frame} {t : SpaceTree} (hframe : KindRecorded frame)
    (hchild : FinishedAs child t) :
    Absorbs frame (frame.absorb child) (total t) (claimed t) (weight t)
      child.wmc.classWmcSum child.wmc.interfaceWmcSum := by
  have hkind := compute_spaceKind hframe
  obtain ⟨hchildKind, hsum, hcyclomatic, hnested, hnonMember⟩ := hchild
  obtain ⟨hn, hc, hi⟩ := merge_child (s := frame.compute.wmc) hchildKind hcyclomatic hnested
    hnonMember
  obtain ⟨hspace, hmember, hclassSum, hinterfaceSum⟩ :=
    Stats.merge_fields frame.compute.wmc child.wmc
  rw [hkind] at hc hi hspace
  simp only [recordedKind_eq_class, recordedKind_eq_interface] at hc hi
  obtain ⟨h₁, h₂, h₃, h₄, h₅, h₆⟩ := frame.compute_fields
  rw [h₁] at hn
  rw [h₂] at hmember
  rw [h₃] at hc
  rw [h₄] at hi
  rw [h₅] at hclassSum
  rw [h₆] at hinterfaceSum
  exact ⟨rfl, .inr hspace, rfl, congrArg (frame.cyclomatic.cyclomaticSum + ·) hsum, hn, hmember, hc,
    hi, hclassSum, hinterfaceSum⟩

/-- Merging a forest, child by child. -/
theorem absorbForest_absorbs (ts : List SpaceTree)
    (hts : ∀ t ∈ ts, FinishedAs (finished t) t) :
    ∀ frame, KindRecorded frame → Absorbs frame (absorbForest ts frame) (totalForest ts)
      (claimedForest ts) ((ts.map weight).sum)
      ((ts.map fun t => (finished t).wmc.classWmcSum).sum)
      ((ts.map fun t => (finished t).wmc.interfaceWmcSum).sum) := by
  induction ts with
  | nil =>
    intro frame hframe
    simp only [absorbForest, totalForest, claimedForest, List.map_nil, List.sum_nil]
    exact ⟨rfl, hframe, rfl, by simp, by simp, rfl, by simp, by simp, by simp, by simp⟩
  | cons t ts ih =>
    intro frame hframe
    have h := absorb_absorbs hframe (hts t (List.mem_cons_self ..))
    have h' := ih (fun u hu => hts u (List.mem_cons_of_mem _ hu)) _ h.recorded
    simp only [absorbForest, totalForest, claimedForest, List.map_cons, List.sum_cons]
    refine ⟨h'.kind.trans h.kind, h'.recorded, h'.own.trans h.own, ?_, ?_,
      h'.nonMember.trans h.nonMember, ?_, ?_, ?_, ?_⟩
    · rw [h'.sum, h.sum, add_assoc]
    · rw [h'.nested, h.nested, add_assoc]
    · rw [h'.classWmc, h.classWmc, h.kind]
      split_ifs <;> ring
    · rw [h'.interfaceWmc, h.interfaceWmc, h.kind]
      split_ifs <;> ring
    · rw [h'.classWmcSum, h.classWmcSum, add_assoc]
    · rw [h'.interfaceWmcSum, h.interfaceWmcSum, add_assoc]

/-- The open frame of a tree when its children have been merged. -/
def openedFrame (t : SpaceTree) : Frame :=
  absorbForest t.children
    ((Frame.opened t.label.kind t.label.nonMember).visit t.label.decisions)

theorem finished_eq (t : SpaceTree) : finished t = (openedFrame t).finalize := by
  cases t; simp only [finished, openedFrame, Rose.label_node, Rose.children_node]

theorem opened_visit (a : Space) : (Frame.opened a.kind a.nonMember).visit a.decisions =
    ⟨a.kind, ⟨0, a.complexity⟩, { Stats.default with nonMember := a.nonMember }⟩ := by
  unfold Frame.opened
  cases a.nonMember <;> rfl

theorem openedFrame_absorbs (t : SpaceTree)
    (hchildren : ∀ c ∈ t.children, FinishedAs (finished c) c) :
    Absorbs ⟨t.label.kind, ⟨0, t.label.complexity⟩,
        { Stats.default with nonMember := t.label.nonMember }⟩
      (openedFrame t) (totalForest t.children) (claimedForest t.children)
      ((t.children.map weight).sum)
      ((t.children.map fun c => (finished c).wmc.classWmcSum).sum)
      ((t.children.map fun c => (finished c).wmc.interfaceWmcSum).sum) := by
  rw [← opened_visit]
  apply absorbForest_absorbs t.children hchildren
  rw [opened_visit]
  exact .inl rfl

theorem finishedAs_of_children (t : SpaceTree)
    (hchildren : ∀ c ∈ t.children, FinishedAs (finished c) c) : FinishedAs (finished t) t := by
  have h := openedFrame_absorbs t hchildren
  have hkind : (openedFrame t).kind = t.label.kind := h.kind
  have hsum : (openedFrame t).finalize.cyclomatic.cyclomaticSum = total t := by
    show (openedFrame t).cyclomatic.cyclomaticSum + (openedFrame t).cyclomatic.cyclomatic = _
    rw [h.own, h.sum]
    obtain ⟨a, cs⟩ := t
    simp only [total, Rose.label_node, Rose.children_node]
    ring
  obtain ⟨hnested, hnonMember, -⟩ := (openedFrame t).finalize_fields
  rw [finished_eq]
  refine ⟨?_, hsum, fun hrecords => ?_, ?_, hnonMember.trans h.nonMember⟩
  · rw [← hkind]
    exact @compute_spaceKind
      { openedFrame t with
        cyclomatic := (openedFrame t).cyclomatic.computeSum
        wmc := (openedFrame t).wmc.computeSum } h.recorded
  · rw [← hsum, Frame.finalize, Frame.compute, Stats.classInterfaceCompute_eq, hkind]
    simp only [hrecords, if_true]
  · rw [hnested, h.nested]
    exact zero_add _

/-- Every finished tree has the counts of the tree. -/
theorem finishedAs : (∀ t : SpaceTree, FinishedAs (finished t) t) ∧
    ∀ ts : List SpaceTree, ∀ t ∈ ts, FinishedAs (finished t) t := by
  refine Rose.tree_forest_induction (fun a cs ih => finishedAs_of_children (.node a cs) ih)
    (by simp) (fun t ts iht ihts u hu => ?_)
  rcases List.mem_cons.mp hu with rfl | hu
  · exact iht
  · exact ihts u hu

/-- The weights and sums of a finished tree. -/
theorem finished_weights (t : SpaceTree) :
    (finished t).wmc.classWmc =
        (if t.label.kind = .class then (t.children.map weight).sum else 0) ∧
      (finished t).wmc.interfaceWmc =
        (if t.label.kind = .interface then (t.children.map weight).sum else 0) ∧
      (finished t).wmc.classWmcSum = (finished t).wmc.classWmc +
        (t.children.map fun c => (finished c).wmc.classWmcSum).sum ∧
      (finished t).wmc.interfaceWmcSum = (finished t).wmc.interfaceWmc +
        (t.children.map fun c => (finished c).wmc.interfaceWmcSum).sum := by
  have h := openedFrame_absorbs t fun c _ => finishedAs.1 c
  obtain ⟨-, -, hclass, hinterface, hclassSum, hinterfaceSum⟩ := (openedFrame t).finalize_fields
  rw [finished_eq]
  refine ⟨?_, ?_, ?_, ?_⟩
  · rw [hclass, h.classWmc]
    exact zero_add _
  · rw [hinterface, h.interfaceWmc]
    exact zero_add _
  · rw [hclassSum, hclass, h.classWmcSum, add_comm]
    exact congrArg ((openedFrame t).wmc.classWmc + ·) (zero_add _)
  · rw [hinterfaceSum, hinterface, h.interfaceWmcSum, add_comm]
    exact congrArg ((openedFrame t).wmc.interfaceWmc + ·) (zero_add _)

/-! ### The tree of a timeline -/

section Timeline
variable {ν π κ : Type*} (reading : Reading ν κ)

def decisionsOf (steps : List (Step ν π κ)) : ℕ := ((Step.visits steps).map reading.decisions).sum

mutual
def spacesOf : Step ν π κ → List SpaceTree
  | .visit _ => []
  | .prune _ => []
  | .child k steps =>
    [.node ⟨reading.kind k, reading.nonMember k, decisionsOf reading steps⟩ (spacesOfAll steps)]

/-- The space trees of the child scopes of a timeline. -/
def spacesOfAll : List (Step ν π κ) → List SpaceTree
  | [] => []
  | step :: steps => spacesOf step ++ spacesOfAll steps
end

def spaceTree (k : κ) (steps : List (Step ν π κ)) : SpaceTree :=
  .node ⟨reading.kind k, reading.nonMember k, decisionsOf reading steps⟩ (spacesOfAll reading steps)

theorem absorb_visit (frame child : Frame) (decisions : ℕ) :
    (frame.visit decisions).absorb child = (frame.absorb child).visit decisions := by
  unfold Frame.absorb Frame.compute
  rw [Stats.classInterfaceCompute_eq, Stats.classInterfaceCompute_eq]
  rfl

theorem visit_visit (frame : Frame) (m n : ℕ) : (frame.visit m).visit n = frame.visit (n + m) := by
  simp only [Frame.visit, Frame.mk.injEq, Cyclomatic.mk.injEq, true_and, and_true]
  push_cast
  ring

/-- A run merges the trees of its child scopes; when the nodes of the scope itself are
visited in between does not matter. -/
theorem execAll_eq_absorbForest (steps : List (Step ν π κ)) :
    ∀ frame, Step.execAll (wmcAlgebra reading) steps frame =
      absorbForest (spacesOfAll reading steps) (frame.visit (decisionsOf reading steps)) := by
  induction steps using Step.steps_induction with
  | nil =>
    intro frame
    rw [Step.execAll_nil, spacesOfAll, absorbForest]
    show frame = frame.visit 0
    simp [Frame.visit]
  | visit v rest ih =>
    intro frame
    rw [Step.execAll_visit, ih, spacesOfAll, spacesOf, List.nil_append]
    show absorbForest _ ((frame.visit (reading.decisions v)).visit _) = _
    rw [visit_visit, Nat.add_comm]
    rfl
  | prune p rest ih =>
    intro frame
    rw [Step.execAll_prune, ih, spacesOfAll, spacesOf, List.nil_append]
    rfl
  | child k steps rest ihs ihr =>
    intro frame
    have hchild : (Step.execAll (wmcAlgebra reading) steps
        ((wmcAlgebra (π := π) reading).enter k frame)).finalize =
          finished (.node ⟨reading.kind k, reading.nonMember k, decisionsOf reading steps⟩
            (spacesOfAll reading steps)) := by
      rw [ihs, finished]
      rfl
    rw [Step.execAll_child, ihr, spacesOfAll, spacesOf, List.singleton_append, absorbForest,
      ← hchild, absorb_visit]
    rfl

/-- The counts of a finished space are those of its space tree. -/
theorem finalFrame_eq_finished (k : κ) (steps : List (Step ν π κ)) :
    finalFrame reading k steps = finished (spaceTree reading k steps) := by
  rw [finalFrame, execAll_eq_absorbForest, spaceTree, finished]
  rfl

end Timeline

end BigCodeAnalysis.Metrics.Wmc
