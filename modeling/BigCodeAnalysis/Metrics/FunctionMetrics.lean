import BigCodeAnalysis.Spaces.Node
import BigCodeAnalysis.Trees.Rose
import Mathlib.Algebra.Order.BigOperators.Group.Multiset
import Mathlib.Algebra.Order.Field.Rat
import Mathlib.Algebra.Order.Hom.Monoid
import Mathlib.Tactic.Positivity

/-! The aggregate of one metric over the functions of a subtree, and the metrics that report one.
It is folded one function at a time and merged one child at a time, and describes the values it
was folded from: their number, sum and extrema. Every space adds its own value to the sum of its
subtree when it is finalised, and to the population of the subtree when it is a function; by
induction over the tree of spaces a finished space describes its functions, in whatever order
children are merged. -/

namespace BigCodeAnalysis.Metrics

section

variable {T : Type*}

/-- The smallest value of an empty population is missing, the largest is zero. -/
structure FunctionPopulation (T : Type*) where
  sum : T
  count : ℕ
  min : Option T
  max : T
  deriving DecidableEq, Repr

namespace FunctionPopulation

section Code
variable [Zero T] [Add T] [LT T] [DecidableLT T]

def default : FunctionPopulation T := ⟨0, 0, none, 0⟩

def fold (self : FunctionPopulation T) (own : T) : FunctionPopulation T where
  sum := self.sum + own
  count := self.count + 1
  min := some (self.min.elim own fun min => if own < min then own else min)
  max := if self.max < own then own else self.max

def merge (self other : FunctionPopulation T) : FunctionPopulation T where
  sum := self.sum + other.sum
  count := self.count + other.count
  min :=
    match self.min, other.min with
    | some a, some b => some (if b < a then b else a)
    | a, b => a.or b
  max := if self.max < other.max then other.max else self.max

/-- The reported minimum. -/
def minimum (self : FunctionPopulation T) : T := self.min.getD 0

/-- The reported average, with the metric's values read as numbers. -/
def average (toF64 : T → ℚ) (self : FunctionPopulation T) : ℚ :=
  toF64 self.sum / (self.count ⊔ 1 : ℕ)

/-- The population of one function. -/
def single (own : T) : FunctionPopulation T := ⟨own, 1, some own, own⟩

omit [Zero T] in
theorem fold_eq_merge (self : FunctionPopulation T) (own : T) :
    self.fold own = self.merge (single own) := by
  unfold fold merge single
  cases self.min <;> rfl

end Code

/-! ### The values behind a population -/

section Values
variable [AddCommMonoid T] [LinearOrder T]

/-- A population with the sum, the number, the least and the greatest of some values. -/
structure Describes (p : FunctionPopulation T) (values : Multiset T) : Prop where
  sum : p.sum = values.sum
  count : p.count = values.card
  least : values = 0 ∧ p.min = none ∨ ∃ m, p.min = some m ∧ IsLeast {x | x ∈ values} m
  greatest : values = 0 ∧ p.max = 0 ∨ IsGreatest {x | x ∈ values} p.max

variable {p q : FunctionPopulation T} {values values' : Multiset T}

theorem describes_default : (default : FunctionPopulation T).Describes 0 :=
  ⟨rfl, rfl, .inl ⟨rfl, rfl⟩, .inl ⟨rfl, rfl⟩⟩

theorem describes_single (own : T) : (single own).Describes {own} := by
  have hmem : {x | x ∈ ({own} : Multiset T)} = {own} := by
    ext x
    exact Multiset.mem_singleton
  refine ⟨(Multiset.sum_singleton own).symm, rfl, .inr ⟨own, rfl, ?_⟩, .inr ?_⟩
  · rw [hmem]
    exact isLeast_singleton
  · rw [hmem]
    exact isGreatest_singleton

/-- Some values are described by one population only. -/
theorem Describes.unique (hp : p.Describes values) (hq : q.Describes values) : p = q := by
  have hmin : p.min = q.min := by
    rcases hp.least with ⟨hempty, hp⟩ | ⟨m, hpm, hm⟩ <;>
      rcases hq.least with ⟨hempty', hq⟩ | ⟨n, hqn, hn⟩
    · rw [hp, hq]
    · exact absurd hn.1 (hempty ▸ Multiset.notMem_zero n)
    · exact absurd hm.1 (hempty' ▸ Multiset.notMem_zero m)
    · rw [hpm, hqn, hm.unique hn]
  have hmax : p.max = q.max := by
    rcases hp.greatest with ⟨hempty, hp⟩ | hp <;> rcases hq.greatest with ⟨hempty', hq⟩ | hq
    · rw [hp, hq]
    · exact absurd hq.1 (hempty ▸ Multiset.notMem_zero q.max)
    · exact absurd hp.1 (hempty' ▸ Multiset.notMem_zero p.max)
    · exact hp.unique hq
  have hsum : p.sum = q.sum := hp.sum.trans hq.sum.symm
  have hcount : p.count = q.count := hp.count.trans hq.count.symm
  cases p
  cases q
  rw [mk.injEq]
  exact ⟨hsum, hcount, hmin, hmax⟩

omit [AddCommMonoid T] [LinearOrder T] in
theorem mem_add_eq (values values' : Multiset T) :
    {x | x ∈ values + values'} = {x | x ∈ values} ∪ {x | x ∈ values'} := by
  ext x
  exact Multiset.mem_add

/-- No value is below the zero that stands for the greatest of none. -/
theorem Describes.merge [CanonicallyOrderedAdd T] (hp : p.Describes values)
    (hq : q.Describes values') : (p.merge q).Describes (values + values') := by
  have hmax : (p.merge q).max = p.max ⊔ q.max := (max_def_lt p.max q.max).symm
  refine ⟨?_, ?_, ?_, ?_⟩
  · rw [Multiset.sum_add, ← hp.sum, ← hq.sum]
    rfl
  · rw [Multiset.card_add, ← hp.count, ← hq.count]
    rfl
  · unfold FunctionPopulation.merge
    rcases hp.least with ⟨rfl, hpm⟩ | ⟨m, hpm, hm⟩ <;>
      rcases hq.least with ⟨rfl, hqm⟩ | ⟨n, hqm, hn⟩
    · exact .inl ⟨rfl, by rw [hpm, hqm]; rfl⟩
    · exact .inr ⟨n, by rw [hpm, hqm]; rfl, by rwa [zero_add]⟩
    · exact .inr ⟨m, by rw [hpm, hqm]; rfl, by rwa [add_zero]⟩
    · refine .inr ⟨m ⊓ n, ?_, by rw [mem_add_eq]; exact hm.union hn⟩
      rw [hpm, hqm]
      dsimp only
      rw [inf_comm, min_def_lt]
  · rw [hmax]
    rcases hp.greatest with ⟨rfl, hpm⟩ | hm <;> rcases hq.greatest with ⟨rfl, hqm⟩ | hn
    · exact .inl ⟨rfl, by rw [hpm, hqm, sup_idem]⟩
    · rw [hpm, zero_add, sup_eq_right.mpr zero_le]
      exact .inr hn
    · rw [hqm, add_zero, sup_eq_left.mpr zero_le]
      exact .inr hm
    · rw [mem_add_eq]
      exact .inr (hm.union hn)

theorem Describes.fold [CanonicallyOrderedAdd T] (hp : p.Describes values) (own : T) :
    (p.fold own).Describes (values + {own}) := by
  rw [fold_eq_merge]
  exact hp.merge (describes_single own)

/-! ### What is reported -/

/-- An empty population reports zeros. -/
theorem Describes.zeros (h : p.Describes values) (toF64 : T →+o ℚ) (hcount : p.count = 0) :
    p.sum = 0 ∧ p.minimum = 0 ∧ p.max = 0 ∧ p.average toF64 = 0 := by
  have hempty : values = 0 := Multiset.card_eq_zero.mp (h.count.symm.trans hcount)
  subst hempty
  have hsum : p.sum = 0 := h.sum
  have hp : p = default := h.unique describes_default
  refine ⟨hsum, ?_, ?_, ?_⟩
  · rw [hp]
    rfl
  · rw [hp]
    rfl
  · rw [average, hsum, map_zero, zero_div]

/-- The average lies between the extrema. -/
theorem Describes.bounds [IsOrderedAddMonoid T] (h : p.Describes values) (toF64 : T →+o ℚ)
    (hcount : 0 < p.count) :
    toF64 p.minimum ≤ p.average toF64 ∧ p.average toF64 ≤ toF64 p.max := by
  have hne : values ≠ 0 := by
    rintro rfl
    rw [h.count] at hcount
    exact Nat.lt_irrefl 0 hcount
  obtain ⟨m, hmin, hm⟩ := h.least.resolve_left fun hz => hne hz.1
  have hmax := h.greatest.resolve_left fun hz => hne hz.1
  have hpos : (0 : ℚ) < p.count := by exact_mod_cast hcount
  have hlow : p.count • m ≤ p.sum := by
    rw [h.sum, h.count]
    exact Multiset.card_nsmul_le_sum fun x hx => hm.2 hx
  have hhigh : p.sum ≤ p.count • p.max := by
    rw [h.sum, h.count]
    exact Multiset.sum_le_card_nsmul values p.max fun x hx => hmax.2 hx
  have hlow : toF64 (p.count • m) ≤ toF64 p.sum := OrderHomClass.mono toF64 hlow
  have hhigh : toF64 p.sum ≤ toF64 (p.count • p.max) := OrderHomClass.mono toF64 hhigh
  rw [map_nsmul, nsmul_eq_mul, mul_comm] at hlow hhigh
  rw [minimum, hmin, Option.getD_some, average, Nat.max_eq_left hcount, le_div_iff₀ hpos,
    div_le_iff₀ hpos]
  exact ⟨hlow, hhigh⟩

end Values

end FunctionPopulation

end

/-! ### The metrics of a space -/

section

open Spaces Trees

/-- What each of these metrics keeps of a space: its own value, the sum over the finished
spaces below it, and their functions. -/
structure Tally (T : Type*) where
  own : T
  sum : T
  functions : FunctionPopulation T
  deriving DecidableEq, Repr

namespace Tally
variable {T : Type*} [Zero T] [Add T] [LT T] [DecidableLT T]

def opened (own : T) : Tally T := ⟨own, 0, .default⟩

def count (self : Tally T) (n : T) : Tally T := { self with own := self.own + n }

def merge (self other : Tally T) : Tally T :=
  { self with
    sum := self.sum + other.sum
    functions := self.functions.merge other.functions }

def computeSum (self : Tally T) : Tally T := { self with sum := self.sum + self.own }

def computeMinmax (self : Tally T) (isFunction : Bool) : Tally T :=
  let self := self.computeSum
  if isFunction then { self with functions := self.functions.fold self.own } else self

end Tally

namespace Cyclomatic

/-- Both variants; their values are whole numbers kept as floats. -/
structure Stats where
  standard : Tally ℕ
  modified : Tally ℕ
  deriving DecidableEq, Repr

namespace Stats

/-- A space that has seen nothing is of complexity 1. -/
def default : Stats := ⟨.opened 1, .opened 1⟩

def merge (self other : Stats) : Stats :=
  ⟨self.standard.merge other.standard, self.modified.merge other.modified⟩

def computeMinmax (self : Stats) (isFunction : Bool) : Stats :=
  ⟨self.standard.computeMinmax isFunction, self.modified.computeMinmax isFunction⟩

end Stats

end Cyclomatic

namespace Nexits

abbrev Stats := Tally ℕ

def Stats.default : Stats := .opened 0

end Nexits

namespace Cognitive.Structural

/-- The part of the cognitive counts that outlives the walk of a space. -/
abbrev Stats := Tally ℕ

def Stats.default : Stats := .opened 0

end Cognitive.Structural

structure FunctionMetrics where
  cyclomatic : Cyclomatic.Stats
  nexits : Nexits.Stats
  cognitive : Cognitive.Structural.Stats
  deriving DecidableEq, Repr

/-- The values that are aggregated per function. -/
inductive Measure where
  | cyclomatic | cyclomaticModified | nexits | cognitive
  deriving DecidableEq, Repr

def Measure.metric : Measure → Metric
  | .cyclomatic | .cyclomaticModified => .cyclomatic
  | .nexits => .nexits
  | .cognitive => .cognitive

namespace FunctionMetrics

def default : FunctionMetrics := ⟨.default, .default, .default⟩

/-- A visit of a node adds to the own values. -/
def count (self : FunctionMetrics) (adds : Measure → ℕ) : FunctionMetrics where
  cyclomatic :=
    ⟨self.cyclomatic.standard.count (adds .cyclomatic),
      self.cyclomatic.modified.count (adds .cyclomaticModified)⟩
  nexits := self.nexits.count (adds .nexits)
  cognitive := self.cognitive.count (adds .cognitive)

def merge (self other : FunctionMetrics) : FunctionMetrics where
  cyclomatic := self.cyclomatic.merge other.cyclomatic
  nexits := self.nexits.merge other.nexits
  cognitive := self.cognitive.merge other.cognitive

/-- `compute_minmax` of the walk. -/
def computeMinmax (selected : Finset Metric) (kind : SpaceKind) (self : FunctionMetrics) :
    FunctionMetrics :=
  let isFunction : Bool := kind = .function
  { cyclomatic :=
      if .cyclomatic ∈ selected then self.cyclomatic.computeMinmax isFunction
      else self.cyclomatic
    nexits :=
      if .nexits ∈ selected then self.nexits.computeMinmax isFunction else self.nexits
    cognitive :=
      if .cognitive ∈ selected then self.cognitive.computeMinmax isFunction
      else self.cognitive }

def tally (self : FunctionMetrics) : Measure → Tally ℕ
  | .cyclomatic => self.cyclomatic.standard
  | .cyclomaticModified => self.cyclomatic.modified
  | .nexits => self.nexits
  | .cognitive => self.cognitive

theorem tally_merge (self other : FunctionMetrics) (measure : Measure) :
    (self.merge other).tally measure = (self.tally measure).merge (other.tally measure) := by
  cases measure <;> rfl

theorem tally_computeMinmax (selected : Finset Metric) (kind : SpaceKind)
    (self : FunctionMetrics) (measure : Measure) :
    (self.computeMinmax selected kind).tally measure =
      if measure.metric ∈ selected then (self.tally measure).computeMinmax (kind = .function)
      else self.tally measure := by
  cases measure with
  | cyclomatic => exact apply_ite Cyclomatic.Stats.standard _ _ _
  | cyclomaticModified => exact apply_ite Cyclomatic.Stats.modified _ _ _
  | nexits => rfl
  | cognitive => rfl

/-! ### The merges over a space tree -/

/-- A space with the values it has counted itself. -/
structure Space where
  kind : SpaceKind
  own : Measure → ℕ

abbrev SpaceTree := Rose Space

def opened (own : Measure → ℕ) : FunctionMetrics where
  cyclomatic := ⟨.opened (own .cyclomatic), .opened (own .cyclomaticModified)⟩
  nexits := .opened (own .nexits)
  cognitive := .opened (own .cognitive)

theorem tally_opened (own : Measure → ℕ) (measure : Measure) :
    (opened own).tally measure = .opened (own measure) := by
  cases measure <;> rfl

section Finished
variable (selected : Finset Metric)

mutual
/-- The metrics of a finished space, its children finished and merged before it. -/
def finished : SpaceTree → FunctionMetrics
  | .node a cs => (absorbForest cs (opened a.own)).computeMinmax selected a.kind

def absorbForest : List SpaceTree → FunctionMetrics → FunctionMetrics
  | [], metrics => metrics
  | t :: ts, metrics => absorbForest ts (metrics.merge (finished t))
end

/-- The own values of the functions of a forest. -/
def functionValues (measure : Measure) (ts : List SpaceTree) : Multiset ℕ :=
  ((((Rose.forestNodes ts).map Rose.label).filter fun a => a.kind = .function).map
    fun a => a.own measure : List ℕ)

/-- The values a measure aggregates: none when its metric is not selected. -/
def population (measure : Measure) (ts : List SpaceTree) : Multiset ℕ :=
  if measure.metric ∈ selected then functionValues measure ts else 0

variable {selected}

theorem functionValues_cons (measure : Measure) (a : Space) (cs ts : List SpaceTree) :
    functionValues measure (.node a cs :: ts) =
      (if a.kind = .function then {a.own measure} else 0) + functionValues measure cs +
        functionValues measure ts := by
  unfold functionValues
  simp only [Rose.forestNodes, Rose.nodes, List.cons_append, List.map_cons, List.map_append,
    Rose.label_node, List.filter_cons, List.filter_append, decide_eq_true_eq]
  split_ifs
  · rw [List.map_cons, List.map_append, ← Multiset.cons_coe, ← Multiset.coe_add,
      Multiset.singleton_add, Multiset.cons_add]
  · rw [List.map_append, ← Multiset.coe_add, zero_add]

theorem functionValues_shuffled {ts us : List SpaceTree} (h : Rose.Shuffled ts us)
    (measure : Measure) : functionValues measure ts = functionValues measure us :=
  Multiset.coe_eq_coe.mpr ((h.labels_perm.filter _).map _)

theorem population_cons (measure : Measure) (t : SpaceTree) (ts : List SpaceTree) :
    population selected measure (t :: ts) =
      population selected measure [t] + population selected measure ts := by
  unfold population
  split_ifs
  · cases t with
    | node a cs =>
      have hnil : functionValues measure [] = 0 := rfl
      rw [functionValues_cons, functionValues_cons, hnil, add_zero]
  · rfl

/-- Finalising a space adds its own value when it is a function. -/
theorem computeMinmax_describes {metrics : FunctionMetrics} {measure : Measure} {a : Space}
    {cs : List SpaceTree} (hown : (metrics.tally measure).own = a.own measure)
    (h : (metrics.tally measure).functions.Describes (population selected measure cs)) :
    ((metrics.computeMinmax selected a.kind).tally measure).functions.Describes
      (population selected measure [.node a cs]) := by
  have hnil : functionValues measure [] = 0 := rfl
  rw [tally_computeMinmax]
  unfold population at h ⊢
  rw [functionValues_cons, hnil, add_zero]
  by_cases hsel : measure.metric ∈ selected
  · simp only [hsel, if_true] at h ⊢
    unfold Tally.computeMinmax Tally.computeSum
    by_cases hkind : a.kind = .function
    · simp only [hkind, decide_true, if_true]
      rw [add_comm, ← hown]
      exact h.fold _
    · simp only [hkind, decide_false, Bool.false_eq_true, if_false, zero_add]
      exact h
  · simp only [hsel, if_false] at h ⊢
    exact h

/-- The population of a finished tree, and what a run of merges adds to one. -/
theorem finished_population (measure : Measure) :
    (∀ t : SpaceTree, ((finished selected t).tally measure).functions.Describes
      (population selected measure [t])) ∧
    ∀ (ts : List SpaceTree) (metrics : FunctionMetrics) (values : Multiset ℕ),
      (metrics.tally measure).functions.Describes values →
      ((absorbForest selected ts metrics).tally measure).own = (metrics.tally measure).own ∧
      ((absorbForest selected ts metrics).tally measure).functions.Describes
        (values + population selected measure ts) := by
  refine Rose.tree_forest_induction (fun a cs ih => ?_) (fun metrics values h => ?_)
    (fun t ts iht ihts metrics values h => ?_)
  · have hopened : ((opened a.own).tally measure).functions.Describes 0 := by
      rw [tally_opened]
      exact FunctionPopulation.describes_default
    obtain ⟨hown, hfunctions⟩ := ih (opened a.own) 0 hopened
    rw [tally_opened] at hown
    rw [zero_add] at hfunctions
    rw [finished]
    exact computeMinmax_describes hown hfunctions
  · have hnil : population selected measure [] = 0 := ite_self 0
    rw [absorbForest, hnil, add_zero]
    exact ⟨rfl, h⟩
  · have hmerged : ((metrics.merge (finished selected t)).tally measure).functions.Describes
        (values + population selected measure [t]) := by
      rw [tally_merge]
      exact h.merge iht
    obtain ⟨hown, hfunctions⟩ := ihts _ _ hmerged
    rw [absorbForest, population_cons, ← add_assoc]
    refine ⟨hown.trans ?_, hfunctions⟩
    rw [tally_merge]
    rfl

/-- The counts of functions as numbers. -/
def countToF64 : ℕ →+o ℚ := ⟨Nat.castAddMonoidHom ℚ, Nat.mono_cast⟩

/-- Every space holds the sum, the count and the extrema of its functions' own values, in
whatever order children are merged, and reports an average between the extrema. -/
theorem functions_describe (selected : Finset Metric) (t : SpaceTree) (measure : Measure) :
    let functions := ((finished selected t).tally measure).functions
    functions.Describes (population selected measure [t]) ∧
    (∀ u, Rose.Shuffled [t] [u] →
      ((finished selected u).tally measure).functions = functions) ∧
    (0 < functions.count → functions.minimum ≤ functions.average Nat.cast ∧
      functions.average Nat.cast ≤ functions.max) ∧
    (functions.count = 0 → functions.sum = 0 ∧ functions.minimum = 0 ∧ functions.max = 0 ∧
      functions.average Nat.cast = 0) := by
  intro functions
  have h : functions.Describes (population selected measure [t]) :=
    (finished_population measure).1 t
  refine ⟨h, fun u hshuffled => ?_, fun hcount => h.bounds countToF64 hcount,
    fun hcount => h.zeros countToF64 hcount⟩
  have hu : ((finished selected u).tally measure).functions.Describes
      (population selected measure [u]) := (finished_population measure).1 u
  have hvalues : population selected measure [u] = population selected measure [t] := by
    unfold population
    rw [functionValues_shuffled hshuffled]
  rw [hvalues] at hu
  exact hu.unique h

end Finished

end FunctionMetrics

end

end BigCodeAnalysis.Metrics
