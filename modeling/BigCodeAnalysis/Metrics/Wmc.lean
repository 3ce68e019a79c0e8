import BigCodeAnalysis.Spaces.Node
import BigCodeAnalysis.Trees.Gather
import Mathlib.Algebra.Order.Group.Int

/-! Weighted methods per class. Cyclomatic complexity is summed over the subtree of a
space; a finished function hands its sum, less what nested classes already claimed, to the
class or interface it is merged into. The counts are integers, so that a difference that
went below zero would show. -/

namespace BigCodeAnalysis.Metrics.Wmc

open Trees Spaces

/-- The cyclomatic counts WMC reads: the sum over the finished subtree and the space's own
complexity, which starts at 1. -/
structure Cyclomatic where
  cyclomaticSum : ℤ
  cyclomatic : ℤ
  deriving DecidableEq, Repr

namespace Cyclomatic

def default : Cyclomatic := ⟨0, 1⟩

def merge (self other : Cyclomatic) : Cyclomatic :=
  { self with cyclomaticSum := self.cyclomaticSum + other.cyclomaticSum }

def computeSum (self : Cyclomatic) : Cyclomatic :=
  { self with cyclomaticSum := self.cyclomaticSum + self.cyclomatic }

end Cyclomatic

structure Stats where
  cyclomatic : ℤ
  /-- The complexity carried by class and interface spaces further down. -/
  nestedClassCyclomatic : ℤ
  /-- A function written inside a container it is not a member of. -/
  nonMember : Bool
  classWmc : ℤ
  interfaceWmc : ℤ
  classWmcSum : ℤ
  interfaceWmcSum : ℤ
  spaceKind : SpaceKind
  deriving DecidableEq, Repr

namespace Stats

def default : Stats := ⟨0, 0, false, 0, 0, 0, 0, .unknown⟩

def markNonMember (self : Stats) : Stats := { self with nonMember := true }

/-- What a finished function adds to a container. -/
def contribution (self : Stats) : ℤ := self.cyclomatic - self.nestedClassCyclomatic

/-- Weight a method of this container. -/
def addMethod (self : Stats) (ownCyclomatic : ℤ) : Stats :=
  match self.spaceKind with
  | .class => { self with classWmc := self.classWmc + ownCyclomatic }
  | .interface => { self with interfaceWmc := self.interfaceWmc + ownCyclomatic }
  | _ => self

def addNested (self : Stats) (cyclomatic : ℤ) : Stats :=
  { self with nestedClassCyclomatic := self.nestedClassCyclomatic + cyclomatic }

def merge (self other : Stats) : Stats :=
  let self :=
    match other.spaceKind with
    | .function =>
      (if other.nonMember then self else self.addMethod other.contribution).addNested
        other.nestedClassCyclomatic
    | .class | .interface => self.addNested other.cyclomatic
    | _ => self
  { self with
    classWmcSum := self.classWmcSum + other.classWmcSum
    interfaceWmcSum := self.interfaceWmcSum + other.interfaceWmcSum }

def computeSum (self : Stats) : Stats :=
  { self with
    classWmcSum := self.classWmcSum + self.classWmc
    interfaceWmcSum := self.interfaceWmcSum + self.interfaceWmc }

/-- `class_interface_compute`. A kind outside the four leaves everything as it is. -/
def classInterfaceCompute (spaceKind : SpaceKind) (cyclomatic : Cyclomatic) (stats : Stats) :
    Stats :=
  match spaceKind with
  | .unit | .class | .interface | .function =>
    let stats :=
      if stats.spaceKind = .unknown then { stats with spaceKind := spaceKind } else stats
    match spaceKind with
    | .function | .class | .interface => { stats with cyclomatic := cyclomatic.cyclomaticSum }
    | _ => stats
  | _ => stats

/-- The kinds WMC records; a space of any other kind stays unknown to it. -/
def recordedKind (kind : SpaceKind) : SpaceKind :=
  match kind with
  | .unit | .class | .interface | .function => kind
  | _ => .unknown

/-- Whether the kind's own complexity is recorded. -/
def recordsCyclomatic (kind : SpaceKind) : Bool :=
  match kind with
  | .class | .interface | .function => true
  | _ => false

/-! ### What each step changes -/

theorem classInterfaceCompute_eq (kind : SpaceKind) (cyclomatic : Cyclomatic) (s : Stats) :
    s.classInterfaceCompute kind cyclomatic =
      { s with
        spaceKind := if s.spaceKind = .unknown then recordedKind kind else s.spaceKind
        cyclomatic :=
          if recordsCyclomatic kind then cyclomatic.cyclomaticSum else s.cyclomatic } := by
  by_cases h : s.spaceKind = .unknown <;>
    cases kind <;> simp [classInterfaceCompute, recordedKind, recordsCyclomatic, h] <;>
      simp [← h]

@[simp] theorem addMethod_classWmc (s : Stats) (x : ℤ) :
    (s.addMethod x).classWmc = s.classWmc + if s.spaceKind = .class then x else 0 := by
  unfold addMethod
  split <;> simp_all

@[simp] theorem addMethod_interfaceWmc (s : Stats) (x : ℤ) :
    (s.addMethod x).interfaceWmc = s.interfaceWmc + if s.spaceKind = .interface then x else 0 := by
  unfold addMethod
  split <;> simp_all

/-- Weighting a method touches nothing but the two weights. -/
theorem addMethod_eq (s : Stats) (x : ℤ) : s.addMethod x =
    { s with classWmc := (s.addMethod x).classWmc, interfaceWmc := (s.addMethod x).interfaceWmc } := by
  unfold addMethod
  split <;> rfl

/-- What a merge leaves alone or adds whatever the child's kind is. -/
theorem merge_fields (s other : Stats) :
    (s.merge other).spaceKind = s.spaceKind ∧ (s.merge other).nonMember = s.nonMember ∧
      (s.merge other).classWmcSum = s.classWmcSum + other.classWmcSum ∧
      (s.merge other).interfaceWmcSum = s.interfaceWmcSum + other.interfaceWmcSum := by
  unfold merge
  split
  · split_ifs
    · simp [addNested]
    · rw [addMethod_eq]
      simp [addNested]
  · simp [addNested]
  · simp [addNested]
  · simp

end Stats

/-! ### A space while it is open -/

/-- The counts of an open space with the kind its language gives it for WMC. -/
structure Frame where
  kind : SpaceKind
  cyclomatic : Cyclomatic
  wmc : Stats
  deriving DecidableEq, Repr

namespace Frame

def opened (kind : SpaceKind) (nonMember : Bool) : Frame :=
  ⟨kind, .default, if nonMember then Stats.default.markNonMember else .default⟩

/-- Decision points of a visited node. -/
def visit (self : Frame) (decisions : ℕ) : Frame :=
  { self with cyclomatic :=
    { self.cyclomatic with cyclomatic := self.cyclomatic.cyclomatic + decisions } }

def compute (self : Frame) : Frame :=
  { self with wmc := self.wmc.classInterfaceCompute self.kind self.cyclomatic }

/-- Bringing the kind up to date touches nothing that is summed up. -/
theorem compute_fields (self : Frame) :
    self.compute.wmc.nestedClassCyclomatic = self.wmc.nestedClassCyclomatic ∧
      self.compute.wmc.nonMember = self.wmc.nonMember ∧
      self.compute.wmc.classWmc = self.wmc.classWmc ∧
      self.compute.wmc.interfaceWmc = self.wmc.interfaceWmc ∧
      self.compute.wmc.classWmcSum = self.wmc.classWmcSum ∧
      self.compute.wmc.interfaceWmcSum = self.wmc.interfaceWmcSum := by
  rw [compute, Stats.classInterfaceCompute_eq]
  exact ⟨rfl, rfl, rfl, rfl, rfl, rfl⟩

/-- The passes of `finalize_state` that WMC depends on, in their order. -/
def finalize (self : Frame) : Frame :=
  compute { self with
    cyclomatic := self.cyclomatic.computeSum
    wmc := self.wmc.computeSum }

theorem finalize_fields (self : Frame) :
    self.finalize.wmc.nestedClassCyclomatic = self.wmc.nestedClassCyclomatic ∧
      self.finalize.wmc.nonMember = self.wmc.nonMember ∧
      self.finalize.wmc.classWmc = self.wmc.classWmc ∧
      self.finalize.wmc.interfaceWmc = self.wmc.interfaceWmc ∧
      self.finalize.wmc.classWmcSum = self.wmc.classWmcSum + self.wmc.classWmc ∧
      self.finalize.wmc.interfaceWmcSum = self.wmc.interfaceWmcSum + self.wmc.interfaceWmc :=
  compute_fields { self with
    cyclomatic := self.cyclomatic.computeSum
    wmc := self.wmc.computeSum }

/-- `finalize` brings the parent's kind up to date before it merges a child. -/
def absorb (self child : Frame) : Frame :=
  let self := self.compute
  { self with
    cyclomatic := self.cyclomatic.merge child.cyclomatic
    wmc := self.wmc.merge child.wmc }

end Frame

section Algebra
variable {ν π κ : Type*}

/-- How nodes and spaces are read: the decision points of a node, the kind of a space and
whether it is a function that is no member of the container around it. -/
structure Reading (ν κ : Type*) where
  decisions : ν → ℕ
  kind : κ → SpaceKind
  nonMember : κ → Bool

variable (reading : Reading ν κ)

def openFrame (k : κ) : Frame := .opened (reading.kind k) (reading.nonMember k)

def wmcAlgebra : ScopeAlgebra ν π κ Frame where
  visit v frame := frame.visit (reading.decisions v)
  prune _ frame := frame
  enter k _ := openFrame reading k
  leave frame child := frame.absorb child.finalize

/-- The counts of a finished space. -/
def finalFrame (k : κ) (steps : List (Step ν π κ)) : Frame :=
  (Step.execAll (wmcAlgebra reading) steps (openFrame reading k)).finalize

end Algebra

end BigCodeAnalysis.Metrics.Wmc
