import BigCodeAnalysis.Sequences.Worklist
import BigCodeAnalysis.Spaces.Compute
import BigCodeAnalysis.Spaces.FuncSpace

/-! Metric selections, and the walk's passes under one. A metric that reads the results of others
names them, and a selection is closed under that before the walk sees it. Every hook runs for
one metric and only when that metric is selected, but some read the results of others:
maintainability, WMC and the argument averages. Two selections that both hold a closed set agree
on its metrics after every pass. -/

namespace BigCodeAnalysis.Spaces

open Sequences

namespace Metric

def all : List Metric :=
  [.cognitive, .cyclomatic, .halstead, .loc, .nom, .tokens, .nargs, .nexits, .abc, .npm, .npa,
    .mi, .wmc]

instance : Fintype Metric where
  elems := all.toFinset
  complete := by
    intro metric
    cases metric <;> decide

def dependencies : Metric → List Metric
  | .mi => [.loc, .cyclomatic, .halstead]
  | .wmc => [.cyclomatic, .nom]
  | .cognitive | .nexits | .nargs => [.nom]
  | _ => []

end Metric

/-- A selection that holds what its metrics read. -/
def DependencyClosed (selected : Finset Metric) : Prop :=
  ∀ metric ∈ selected, ∀ dependency ∈ metric.dependencies, dependency ∈ selected

/-- `MetricSet::resolved`. -/
def resolved (selected : Finset Metric) : Finset Metric :=
  Worklist.loop Metric.dependencies selected (Metric.all.filter (· ∈ selected)).reverse

theorem resolved_closed (selected : Finset Metric) : DependencyClosed (resolved selected) := by
  apply Worklist.loop_closed
  intro metric hmetric
  have hall : metric ∈ Metric.all := List.mem_toFinset.mp (Finset.mem_univ metric)
  exact Or.inl (List.mem_reverse.mpr (List.mem_filter.mpr ⟨hall, by simpa using hmetric⟩))

theorem subset_resolved (selected : Finset Metric) : selected ⊆ resolved selected :=
  Worklist.subset_loop _ _

namespace MetricsOptions

/-- Every metric. -/
def withAll (options : MetricsOptions) : MetricsOptions :=
  { options with selected := Finset.univ }

def withOnly (options : MetricsOptions) (metrics : List Metric) : MetricsOptions :=
  { options with selected := resolved metrics.toFinset }

def withMetricSet (options : MetricsOptions) (metrics : Finset Metric) : MetricsOptions :=
  { options with selected := resolved metrics }

end MetricsOptions

/-! ### The hooks of the walk -/

section

open Metrics.Halstead (HalsteadMaps)

variable {T : Metric → Type}

/-- The statistics of a space, one value per metric. Halstead's slot is idle: a space holds
its counts in a field of their own. -/
abbrev Stats (T : Metric → Type) := ∀ metric, T metric

/-- What the walk calls for each metric, for one language, one source text and one setting of
the flags that are not about the selection. -/
structure Hooks (T : Metric → Type) where
  default : Stats T
  setBareRowsPossible : Bool → T .loc → T .loc
  /-- Whether the source text may hold a bare continuation row. -/
  mayHoldBareRows : Bool
  markNonMember : T .wmc → T .wmc
  computeCognitive : Ancestors → Node → T .cognitive × NestingMap → T .cognitive × NestingMap
  compute : ∀ metric, Ancestors → Node → NodeFacts → T metric → T metric
  computeHalstead : Ancestors → Node → HalsteadMaps → HalsteadMaps
  excludeTestSpan : ℕ → ℕ → T .loc → T .loc
  initUnitSpan : ℕ → ℕ → T .loc → T .loc
  clampLineSetsToSpan : T .loc → T .loc
  settleExcludedRows : T .loc → T .loc
  computeMinmax : ∀ metric, Bool → T metric → T metric
  computeSum : ∀ metric, T metric → T metric
  computeMi : T .loc → T .cyclomatic → Metrics.Halstead.Stats → T .mi → T .mi
  computeWmc : SpaceKind → T .cyclomatic → T .wmc → T .wmc
  hasMembers : Metric → Bool
  setSpaceKind : ∀ metric, SpaceKind → T metric → T metric
  functionsSum : T .nom → ℕ
  closuresSum : T .nom → ℕ
  finalizeNargs : ℕ → ℕ → T .nargs → T .nargs
  merge : ∀ metric, T metric → T metric → T metric

/-! ### Gates -/

/-- Run a pass of one metric if it is selected. -/
def gated (selected : Finset Metric) (metric : Metric) (f : T metric → T metric)
    (stats : Stats T) : Stats T :=
  if metric ∈ selected then Function.update stats metric (f (stats metric)) else stats

def gatedAll (selected : Finset Metric) (f : ∀ metric, T metric → T metric)
    (metrics : List Metric) (stats : Stats T) : Stats T :=
  metrics.foldl (fun stats metric => gated selected metric (f metric) stats) stats

namespace Hooks
variable (hooks : Hooks T) (selected : Finset Metric)

/-- The statistics of a new space. The hint of an unselected `loc` stays at its default. -/
def withSelected : Stats T :=
  Function.update hooks.default .loc
    (hooks.setBareRowsPossible (.loc ∉ selected || hooks.mayHoldBareRows) (hooks.default .loc))

def computePerNode (ancestors : Ancestors) (node : Node) (facts : NodeFacts) :
    Stats T → Stats T :=
  gatedAll selected (fun metric => hooks.compute metric ancestors node facts)
    [.cyclomatic, .loc, .nom, .tokens, .nargs, .nexits, .abc, .npm, .npa]

def anchorUnitSlocSpan (kind : SpaceKind) (lines : ℕ × ℕ) : Stats T → Stats T :=
  gated selected .loc
    (if kind = .unit then hooks.initUnitSpan (lines.1 - 1) lines.2 else id)

def clampLocLineSets : Stats T → Stats T := gated selected .loc hooks.clampLineSetsToSpan

def settleLocExcludedRows : Stats T → Stats T := gated selected .loc hooks.settleExcludedRows

/-- The per-function metrics fold only function spaces into their extrema. -/
def minmax (kind : SpaceKind) : Stats T → Stats T :=
  gatedAll selected (fun metric => hooks.computeMinmax metric (kind = .function))
    [.cyclomatic, .nexits, .cognitive, .nargs, .nom, .loc, .abc, .tokens]

def sums : Stats T → Stats T := gatedAll selected hooks.computeSum [.wmc, .npm, .npa]

/-- `T::Mi::compute` reads `loc`, `cyclomatic` and `halstead`. -/
def mi (halstead : Metrics.Halstead.Stats) (stats : Stats T) : Stats T :=
  gated selected .mi (hooks.computeMi (stats .loc) (stats .cyclomatic) halstead) stats

/-- `T::Wmc::compute` reads `cyclomatic`. -/
def wmc (kind : SpaceKind) (stats : Stats T) : Stats T :=
  gated selected .wmc (hooks.computeWmc kind (stats .cyclomatic)) stats

def noteMemberScope (kind : SpaceKind) : Stats T → Stats T :=
  gatedAll selected
    (fun metric => if hooks.hasMembers metric then hooks.setSpaceKind metric kind else id)
    [.npm, .npa]

/-- The divisors of the argument averages are what `nom` counted. -/
def averages (stats : Stats T) : Stats T :=
  gated selected .nargs
    (hooks.finalizeNargs (hooks.functionsSum (stats .nom)) (hooks.closuresSum (stats .nom))) stats

/-- The work of the selected metrics. -/
def suite : MetricSuite (Stats T) where
  withSelected := hooks.withSelected selected
  halsteadDefault := ⟨0, 0, 0, 0⟩
  markNonMember stats := Function.update stats .wmc (hooks.markNonMember (stats .wmc))
  halsteadCompute := hooks.computeHalstead
  computeCognitive ancestors node p :=
    let (cognitive, nestingMap) := hooks.computeCognitive ancestors node (p.1 .cognitive, p.2)
    (Function.update p.1 .cognitive cognitive, nestingMap)
  computeRest := hooks.computePerNode selected
  excludeTestSpan startRow endLine stats :=
    Function.update stats .loc (hooks.excludeTestSpan startRow endLine (stats .loc))
  settle kind lines stats :=
    hooks.sums selected (hooks.minmax selected kind (hooks.settleLocExcludedRows selected
      (hooks.clampLocLineSets selected (hooks.anchorUnitSlocSpan selected kind lines stats))))
  derive kind halstead stats :=
    hooks.averages selected (hooks.noteMemberScope selected kind (hooks.wmc selected kind
      (hooks.mi selected halstead stats)))
  computeWmc kind stats := hooks.wmc selected kind stats
  merge parent child metric := hooks.merge metric (parent metric) (child metric)

end Hooks

/-! ### Agreement -/

/-- The same values for the metrics of `keep`. -/
def AgreeOn (keep : Finset Metric) (a b : Stats T) : Prop := ∀ metric ∈ keep, a metric = b metric

section Gates
variable {selected : Finset Metric} {metric k : Metric} {f : T metric → T metric} {a : Stats T}

theorem gated_self (h : metric ∈ selected) : gated selected metric f a metric = f (a metric) := by
  rw [gated, if_pos h, Function.update_self]

theorem gated_of_ne (h : k ≠ metric) : gated selected metric f a k = a k := by
  unfold gated
  split_ifs
  · exact Function.update_of_ne h _ _
  · rfl

end Gates

namespace AgreeOn
variable {keep s₁ s₂ : Finset Metric} {a b : Stats T}

theorem update {metric : Metric} {v w : T metric} (h : AgreeOn keep a b)
    (hv : metric ∈ keep → v = w) :
    AgreeOn keep (Function.update a metric v) (Function.update b metric w) := by
  intro k hk
  by_cases hkm : k = metric
  · subst hkm
    rw [Function.update_self, Function.update_self, hv hk]
  · rw [Function.update_of_ne hkm, Function.update_of_ne hkm, h k hk]

theorem update_left {metric : Metric} {v : T metric} (h : AgreeOn keep a b)
    (hm : metric ∉ keep) : AgreeOn keep (Function.update a metric v) b := by
  intro k hk
  have hne : k ≠ metric := fun he => hm (he ▸ hk)
  rw [Function.update_of_ne hne, h k hk]

theorem update_right {metric : Metric} {w : T metric} (h : AgreeOn keep a b)
    (hm : metric ∉ keep) : AgreeOn keep a (Function.update b metric w) := by
  intro k hk
  have hne : k ≠ metric := fun he => hm (he ▸ hk)
  rw [Function.update_of_ne hne, h k hk]

section Selected
variable (h₁ : keep ⊆ s₁) (h₂ : keep ⊆ s₂)
include h₁ h₂

/-- A gated pass need only do the same for a metric of `keep`. -/
theorem gated {metric : Metric} {f g : T metric → T metric} (h : AgreeOn keep a b)
    (hf : metric ∈ keep → f (a metric) = g (b metric)) :
    AgreeOn keep (gated s₁ metric f a) (gated s₂ metric g b) := by
  intro k hk
  by_cases hkm : k = metric
  · subst hkm
    rw [gated_self (h₁ hk), gated_self (h₂ hk), hf hk]
  · rw [gated_of_ne hkm, gated_of_ne hkm, h k hk]

/-- A pass that reads no other metric does the same. -/
theorem gated_same {metric : Metric} {f : T metric → T metric} (h : AgreeOn keep a b) :
    AgreeOn keep (Spaces.gated s₁ metric f a) (Spaces.gated s₂ metric f b) :=
  h.gated h₁ h₂ fun hm => by rw [h metric hm]

theorem gatedAll {f : ∀ metric, T metric → T metric} (metrics : List Metric)
    (h : AgreeOn keep a b) :
    AgreeOn keep (gatedAll s₁ f metrics a) (gatedAll s₂ f metrics b) := by
  induction metrics generalizing a b with
  | nil => exact h
  | cons metric metrics ih => exact ih (h.gated_same h₁ h₂)

end Selected

end AgreeOn

/-! ### One pass under two selections -/

section Passes
variable {hooks : Hooks T} {keep s₁ s₂ : Finset Metric} {a b : Stats T}
variable (h₁ : keep ⊆ s₁) (h₂ : keep ⊆ s₂)
include h₁ h₂

theorem withSelected_agree :
    AgreeOn keep (hooks.suite s₁).withSelected (hooks.suite s₂).withSelected := by
  have hdefault : AgreeOn keep hooks.default hooks.default := fun _ _ => rfl
  apply hdefault.update
  intro hloc
  simp [h₁ hloc, h₂ hloc]

/-- Cognitive's pass under its gate. What an unkept cognitive does on either side is lost to
`keep`. -/
theorem computeCognitive_agree {ancestors : Ancestors} {node : Node} {m n : NestingMap}
    (h : AgreeOn keep a b) (hmap : .cognitive ∈ keep → m = n) :
    AgreeOn keep
        (if .cognitive ∈ s₁ then (hooks.suite s₁).computeCognitive ancestors node (a, m)
          else (a, m)).1
        (if .cognitive ∈ s₂ then (hooks.suite s₂).computeCognitive ancestors node (b, n)
          else (b, n)).1 ∧
      (.cognitive ∈ keep →
        (if .cognitive ∈ s₁ then (hooks.suite s₁).computeCognitive ancestors node (a, m)
          else (a, m)).2 =
        (if .cognitive ∈ s₂ then (hooks.suite s₂).computeCognitive ancestors node (b, n)
          else (b, n)).2) := by
  by_cases hcog : .cognitive ∈ keep
  · have hin : (a .cognitive, m) = (b .cognitive, n) := by rw [h _ hcog, hmap hcog]
    simp only [Hooks.suite, if_pos (h₁ hcog), if_pos (h₂ hcog), hin]
    exact ⟨h.update fun _ => rfl, fun _ => trivial⟩
  · refine ⟨fun k hk => ?_, fun hc => absurd hc hcog⟩
    have hne : k ≠ .cognitive := fun he => hcog (he ▸ hk)
    split_ifs <;> simp only [Hooks.suite, Function.update_of_ne hne] <;> exact h k hk

theorem computeRest_agree {ancestors : Ancestors} {node : Node} {facts : NodeFacts}
    (h : AgreeOn keep a b) :
    AgreeOn keep ((hooks.suite s₁).computeRest ancestors node facts a)
      ((hooks.suite s₂).computeRest ancestors node facts b) :=
  h.gatedAll h₁ h₂ _

theorem settle_agree (kind : SpaceKind) (lines : ℕ × ℕ) (h : AgreeOn keep a b) :
    AgreeOn keep ((hooks.suite s₁).settle kind lines a) ((hooks.suite s₂).settle kind lines b) := by
  have hanchor := h.gated_same h₁ h₂
    (f := if kind = .unit then hooks.initUnitSpan (lines.1 - 1) lines.2 else id)
  have hclamp := hanchor.gated_same h₁ h₂ (f := hooks.clampLineSetsToSpan)
  have hrows := hclamp.gated_same h₁ h₂ (f := hooks.settleExcludedRows)
  exact (hrows.gatedAll h₁ h₂ _).gatedAll h₁ h₂ _

/-- Maintainability is kept only with the three metrics it reads. -/
theorem mi_agree (hclosed : DependencyClosed keep) {x y : Metrics.Halstead.Stats}
    (h : AgreeOn keep a b) (hxy : .halstead ∈ keep → x = y) :
    AgreeOn keep (hooks.mi s₁ x a) (hooks.mi s₂ y b) := by
  apply h.gated h₁ h₂
  intro hmi
  have hread := hclosed .mi hmi
  rw [h .mi hmi, h .loc (hread .loc (by decide)),
    h .cyclomatic (hread .cyclomatic (by decide)), hxy (hread .halstead (by decide))]

theorem wmc_agree (hclosed : DependencyClosed keep) (kind : SpaceKind) (h : AgreeOn keep a b) :
    AgreeOn keep (hooks.wmc s₁ kind a) (hooks.wmc s₂ kind b) := by
  apply h.gated h₁ h₂
  intro hwmc
  rw [h .wmc hwmc, h .cyclomatic (hclosed .wmc hwmc .cyclomatic (by decide))]

theorem noteMemberScope_agree (kind : SpaceKind) (h : AgreeOn keep a b) :
    AgreeOn keep (hooks.noteMemberScope s₁ kind a) (hooks.noteMemberScope s₂ kind b) :=
  h.gatedAll h₁ h₂ _

theorem averages_agree (hclosed : DependencyClosed keep) (h : AgreeOn keep a b) :
    AgreeOn keep (hooks.averages s₁ a) (hooks.averages s₂ b) := by
  apply h.gated h₁ h₂
  intro hnargs
  rw [h .nargs hnargs, h .nom (hclosed .nargs hnargs .nom (by decide))]

theorem derive_agree (hclosed : DependencyClosed keep) (kind : SpaceKind)
    {x y : Metrics.Halstead.Stats} (h : AgreeOn keep a b) (hxy : .halstead ∈ keep → x = y) :
    AgreeOn keep ((hooks.suite s₁).derive kind x a) ((hooks.suite s₂).derive kind y b) := by
  have hmi := @mi_agree _ hooks _ _ _ _ _ h₁ h₂ hclosed _ _ h hxy
  have hwmc := @wmc_agree _ hooks _ _ _ _ _ h₁ h₂ hclosed kind hmi
  have hscope := @noteMemberScope_agree _ hooks _ _ _ _ _ h₁ h₂ kind hwmc
  exact averages_agree h₁ h₂ hclosed hscope

omit h₁ h₂ in
theorem merge_agree {c d : Stats T} (h : AgreeOn keep a b) (hchild : AgreeOn keep c d) :
    AgreeOn keep ((hooks.suite s₁).merge a c) ((hooks.suite s₂).merge b d) := by
  intro metric hm
  simp only [Hooks.suite, h metric hm, hchild metric hm]

end Passes

end

end BigCodeAnalysis.Spaces
