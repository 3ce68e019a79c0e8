import BigCodeAnalysis.Metrics.WmcTree
import Mathlib.Algebra.BigOperators.Group.Multiset.Basic
import Mathlib.Algebra.Order.BigOperators.Group.List
import Mathlib.Data.Multiset.Filter

/-! Which spaces a container's weighted methods count. The region of a method is the part
of its subtree that lies in no nested container. A container should weigh the regions of its
methods and nothing else, and does so unless a container below a method is hidden behind a
space that does not forward what it claims. -/

namespace BigCodeAnalysis.Metrics.Wmc

open Trees Spaces

mutual
def outermost : SpaceTree → List SpaceTree
  | .node a cs => if a.isContainer then [.node a cs] else outermostForest cs

/-- The containers of a forest that lie in no other container of it. -/
def outermostForest : List SpaceTree → List SpaceTree
  | [] => []
  | t :: ts => outermost t ++ outermostForest ts
end

mutual
def hidden : SpaceTree → List SpaceTree
  | .node a cs =>
    if a.isFunction then hiddenForest cs
    else if a.isContainer then [] else outermostForest cs

/-- The outermost containers behind a space that is neither a function nor a container. -/
def hiddenForest : List SpaceTree → List SpaceTree
  | [] => []
  | t :: ts => hidden t ++ hiddenForest ts
end

mutual
def region : SpaceTree → Multiset Space
  | .node a cs => if a.isContainer then 0 else a ::ₘ regionForest cs

/-- The spaces of a forest that lie in no container of it. -/
def regionForest : List SpaceTree → Multiset Space
  | [] => 0
  | t :: ts => region t + regionForest ts
end

/-- The methods of a container. -/
def members (t : SpaceTree) : List SpaceTree := t.children.filter (·.label.isMethod)

/-- The spaces a container should weigh: those whose nearest container it is, in the
subtrees of its methods. -/
def credited (t : SpaceTree) : Multiset Space := ((members t).map region).sum

def containers (t : SpaceTree) : List SpaceTree := t.nodes.filter (·.label.isContainer)

/-- The weighted-methods value of a container. -/
def weightedMethods (t : SpaceTree) : ℤ :=
  match t.label.kind with
  | .class => (finished t).wmc.classWmc
  | .interface => (finished t).wmc.interfaceWmc
  | _ => 0

/-- Weighted methods attribute every complexity once, to the nearest container. -/
structure Attributed (t : SpaceTree) : Prop where
  weights : ∀ c ∈ containers t, weightedMethods c = ((credited c).map Space.complexity).sum
  once : ((containers t).map credited).sum ≤ (t.nodes.map Rose.label : Multiset Space)
  contribution : ∀ c ∈ containers t, ∀ m ∈ members c,
    (finished m).wmc.contribution = total m - ((outermostForest m.children).map total).sum
  nonneg : ∀ f ∈ t.nodes, f.label.isFunction → 0 ≤ (finished f).wmc.contribution
  classSum : (finished t).wmc.classWmcSum =
    ((t.nodes.filter (·.label.kind = .class)).map fun c => (finished c).wmc.classWmc).sum
  interfaceSum : (finished t).wmc.interfaceWmcSum =
    ((t.nodes.filter (·.label.kind = .interface)).map fun c => (finished c).wmc.interfaceWmc).sum

/-! ### Totals -/

theorem complexity_pos (a : Space) : 0 < a.complexity := by
  unfold Space.complexity
  omega

theorem total_nonneg : (∀ t : SpaceTree, 0 < total t) ∧
    ∀ ts : List SpaceTree, 0 ≤ totalForest ts := by
  refine Rose.tree_forest_induction (fun a cs ih => ?_) (by simp [totalForest])
    (fun t ts iht ihts => ?_)
  · have ha := complexity_pos a
    rw [total]
    omega
  · rw [totalForest]
    omega

/-- What is claimed lies between zero and the total, so no difference of the two is
negative. -/
theorem claimed_bounds : (∀ t : SpaceTree, 0 ≤ claimed t ∧ claimed t ≤ total t) ∧
    ∀ ts : List SpaceTree, 0 ≤ claimedForest ts ∧ claimedForest ts ≤ totalForest ts := by
  refine Rose.tree_forest_induction (fun a cs ih => ?_) (by simp [claimedForest, totalForest])
    (fun t ts iht ihts => ?_)
  · have ha := complexity_pos a
    have htotal := total_nonneg.1 (.node a cs)
    have hsplit : total (.node a cs) = a.complexity + totalForest cs := by rw [total]
    rw [claimed]
    split_ifs <;> constructor <;> omega
  · rw [claimedForest, totalForest]
    omega

theorem total_outermost : (∀ t : SpaceTree, total t =
      ((region t).map Space.complexity).sum + ((outermost t).map total).sum) ∧
    ∀ ts : List SpaceTree, totalForest ts =
      ((regionForest ts).map Space.complexity).sum + ((outermostForest ts).map total).sum := by
  refine Rose.tree_forest_induction (fun a cs ih => ?_)
    (by simp [totalForest, regionForest, outermostForest]) (fun t ts iht ihts => ?_)
  · rw [region, outermost]
    split_ifs with hcontainer
    · simp
    · rw [Multiset.map_cons, Multiset.sum_cons, total, ih, add_assoc]
  · rw [totalForest, regionForest, outermostForest, Multiset.map_add, Multiset.sum_add,
      List.map_append, List.sum_append, iht, ihts, add_add_add_comm]

/-- The outermost containers are claimed or hidden. -/
theorem outermost_claimed : (∀ t : SpaceTree,
      ((outermost t).map total).sum = claimed t + ((hidden t).map total).sum) ∧
    ∀ ts : List SpaceTree, ((outermostForest ts).map total).sum =
      claimedForest ts + ((hiddenForest ts).map total).sum := by
  refine Rose.tree_forest_induction (fun a cs ih => ?_)
    (by simp [claimedForest, hiddenForest, outermostForest]) (fun t ts iht ihts => ?_)
  · rw [outermost, claimed, hidden]
    by_cases hfunction : a.isFunction = true
    · have hcontainer := Space.isContainer_eq_false_of_isFunction hfunction
      simp only [hfunction, hcontainer, Bool.false_eq_true, if_true, if_false, ih]
    · by_cases hcontainer : a.isContainer = true
      · simp [hfunction, hcontainer]
      · simp [hfunction, hcontainer]
  · rw [outermostForest, claimedForest, hiddenForest, List.map_append, List.sum_append,
      List.map_append, List.sum_append, iht, ihts, add_add_add_comm]

theorem sum_total_nonneg (ts : List SpaceTree) : 0 ≤ (ts.map total).sum :=
  List.sum_nonneg fun x hx => by
    obtain ⟨t, -, rfl⟩ := List.mem_map.mp hx
    exact (total_nonneg.1 t).le

/-- Every space has a positive total, so only the empty list has total zero. -/
theorem sum_total_eq_zero (ts : List SpaceTree) : (ts.map total).sum = 0 ↔ ts = [] := by
  cases ts with
  | nil => simp
  | cons t ts =>
    have ht := total_nonneg.1 t
    have hts := sum_total_nonneg ts
    simp only [List.map_cons, List.sum_cons, reduceCtorEq, iff_false]
    omega

/-! ### Weights -/

theorem weightedMethods_eq (c : SpaceTree) (hc : c.label.isContainer = true) :
    weightedMethods c = (c.children.map weight).sum := by
  obtain ⟨hclass, hinterface, -⟩ := finished_weights c
  simp only [Space.isContainer, decide_eq_true_eq] at hc
  unfold weightedMethods
  rcases hc with h | h
  · simp [h, hclass]
  · simp [h, hinterface]

/-- A method weighs its region and what is hidden below it. -/
theorem weight_method (m : SpaceTree) (hm : m.label.isMethod = true) :
    weight m = ((region m).map Space.complexity).sum + ((hidden m).map total).sum := by
  have htotal := total_outermost.1 m
  have houtermost := outermost_claimed.1 m
  rw [weight, if_pos hm]
  omega

theorem sum_weight (cs : List SpaceTree) : (cs.map weight).sum =
    ((((cs.filter (·.label.isMethod)).map region).sum).map Space.complexity).sum +
      ((cs.filter (·.label.isMethod)).map fun m => ((hidden m).map total).sum).sum := by
  induction cs with
  | nil => simp
  | cons c cs ih =>
    by_cases hc : c.label.isMethod = true
    · simp only [List.filter_cons, hc, if_true, List.map_cons, List.sum_cons, ih,
        weight_method c hc, Multiset.map_add, Multiset.sum_add]
      ring
    · have hweight : weight c = 0 := by simp [weight, hc]
      simp only [List.filter_cons, hc, Bool.false_eq_true, if_false, List.map_cons, List.sum_cons,
        ih, hweight, zero_add]

/-- A container weighs what it is credited with and what is hidden below its methods. -/
theorem weightedMethods_credited (c : SpaceTree) (hc : c.label.isContainer = true) :
    weightedMethods c = ((credited c).map Space.complexity).sum +
      ((members c).map fun m => ((hidden m).map total).sum).sum := by
  rw [weightedMethods_eq c hc, sum_weight]
  rfl

theorem contribution_eq (f : SpaceTree) (hf : f.label.isFunction = true) :
    (finished f).wmc.contribution = total f - claimedForest f.children := by
  obtain ⟨-, -, hcyclomatic, hnested, -⟩ := finishedAs.1 f
  have hkind : f.label.kind = .function := by simpa [Space.isFunction] using hf
  rw [Stats.contribution, hcyclomatic (by rw [hkind]; rfl), hnested]

theorem hidden_function (f : SpaceTree) (hf : f.label.isFunction = true) :
    hidden f = hiddenForest f.children := by
  obtain ⟨a, cs⟩ := f
  simp only [Rose.label_node] at hf
  simp [hidden, hf]

/-- The contribution of a function is its total less the containers nested in it exactly
when none of them is hidden. -/
theorem contribution_iff (f : SpaceTree) (hf : f.label.isFunction = true) :
    (finished f).wmc.contribution = total f - ((outermostForest f.children).map total).sum ↔
      hidden f = [] := by
  have houtermost := outermost_claimed.2 f.children
  rw [contribution_eq f hf, ← sum_total_eq_zero, hidden_function f hf]
  omega

theorem contribution_nonneg (f : SpaceTree) (hf : f.label.isFunction = true) :
    0 ≤ (finished f).wmc.contribution := by
  obtain ⟨a, cs⟩ := f
  have hbounds := (claimed_bounds.2 cs).2
  have ha := complexity_pos a
  rw [contribution_eq _ hf, total, Rose.children_node]
  omega

/-! ### Every space is credited once -/

def labelsForest (ts : List SpaceTree) : Multiset Space :=
  ((Rose.forestNodes ts).map Rose.label : List Space)

def creditedForest (ts : List SpaceTree) : Multiset Space :=
  (((Rose.forestNodes ts).filter (·.label.isContainer)).map credited).sum

theorem sum_region_filter_le (cs : List SpaceTree) :
    ((cs.filter (·.label.isMethod)).map region).sum ≤ regionForest cs := by
  induction cs with
  | nil => simp [regionForest]
  | cons c cs ih =>
    rw [regionForest]
    by_cases hc : c.label.isMethod = true
    · simp only [List.filter_cons, hc, if_true, List.map_cons, List.sum_cons]
      exact add_le_add_right ih _
    · simp only [List.filter_cons, hc, Bool.false_eq_true, if_false]
      exact ih.trans (Multiset.le_add_left ..)

/-- The regions credited inside a forest and the region outside its containers are separate
parts of it. -/
theorem creditedForest_add_region_le (ts : List SpaceTree) :
    creditedForest ts + regionForest ts ≤ labelsForest ts := by
  induction ts using Rose.forest_induction with
  | nil => simp [creditedForest, regionForest, labelsForest, Rose.forestNodes]
  | cons a cs ts ihcs ihts =>
    have hlabels : labelsForest (.node a cs :: ts) = (a ::ₘ labelsForest cs) + labelsForest ts := by
      simp [labelsForest, Rose.forestNodes, Rose.nodes]
    rw [hlabels, regionForest, region]
    by_cases ha : a.isContainer = true
    · have hcredited : creditedForest (.node a cs :: ts) =
          credited (.node a cs) + creditedForest cs + creditedForest ts := by
        simp [creditedForest, Rose.forestNodes, Rose.nodes, ha, add_assoc]
      have hmembers : credited (.node a cs) ≤ regionForest cs := sum_region_filter_le cs
      rw [hcredited, if_pos ha, zero_add, add_assoc]
      refine add_le_add ?_ ihts
      calc credited (.node a cs) + creditedForest cs
          ≤ regionForest cs + creditedForest cs := add_le_add_left hmembers _
        _ = creditedForest cs + regionForest cs := add_comm _ _
        _ ≤ labelsForest cs := ihcs
        _ ≤ a ::ₘ labelsForest cs := Multiset.le_cons_self _ _
    · have hcredited : creditedForest (.node a cs :: ts) =
          creditedForest cs + creditedForest ts := by
        simp [creditedForest, Rose.forestNodes, Rose.nodes, ha]
      rw [hcredited, if_neg ha, add_add_add_comm, Multiset.add_cons]
      exact add_le_add (Multiset.cons_le_cons a ihcs) ihts

theorem credited_once (t : SpaceTree) :
    ((containers t).map credited).sum ≤ (t.nodes.map Rose.label : Multiset Space) := by
  have h := creditedForest_add_region_le [t]
  have hcredited : creditedForest [t] = ((containers t).map credited).sum := by
    simp [creditedForest, Rose.forestNodes, containers]
  have hlabels : labelsForest [t] = (t.nodes.map Rose.label : Multiset Space) := by
    simp [labelsForest, Rose.forestNodes]
  rw [hcredited, hlabels] at h
  exact (Multiset.le_add_right _ _).trans h

/-! ### Sums of a file -/

/-- A sum that every space of one kind adds its weight to. -/
theorem sum_of_kind (sum weight : SpaceTree → ℤ) (kind : SpaceKind)
    (step : ∀ t, sum t = weight t + (t.children.map sum).sum)
    (zero : ∀ t, t.label.kind ≠ kind → weight t = 0) :
    (∀ t, sum t = ((t.nodes.filter (·.label.kind = kind)).map weight).sum) ∧
      ∀ ts : List SpaceTree, (ts.map sum).sum =
        (((Rose.forestNodes ts).filter (·.label.kind = kind)).map weight).sum := by
  refine Rose.tree_forest_induction (fun a cs ih => ?_) (by simp [Rose.forestNodes])
    (fun t ts iht ihts => ?_)
  · rw [step, Rose.children_node, ih, Rose.nodes]
    by_cases ha : a.kind = kind
    · simp [ha]
    · simp [ha, zero (.node a cs) ha]
  · simp [Rose.forestNodes, iht, ihts]

/-! ### When weighted methods are attributed -/

theorem isFunction_of_mem_members {c m : SpaceTree} (hm : m ∈ members c) :
    m.label.isMethod = true ∧ m.label.isFunction = true := by
  have h := (List.mem_filter.mp hm).2
  refine ⟨h, ?_⟩
  simp only [Space.isMethod, decide_eq_true_eq] at h
  exact h.1

/-- Weighted methods attribute every complexity once, to its nearest container, exactly
when no container below a method is hidden behind a space that is neither a function nor a
container. -/
theorem attributed_iff (t : SpaceTree) :
    Attributed t ↔ ∀ c ∈ containers t, ∀ m ∈ members c, hidden m = [] := by
  constructor
  · intro h c hc m hm
    obtain ⟨-, hfunction⟩ := isFunction_of_mem_members hm
    exact (contribution_iff m hfunction).mp (h.contribution c hc m hm)
  · intro h
    refine ⟨fun c hc => ?_, credited_once t, fun c hc m hm => ?_,
      fun f _ hf => contribution_nonneg f hf, ?_, ?_⟩
    · have hcontainer : c.label.isContainer = true := (List.mem_filter.mp hc).2
      have hhidden : ((members c).map fun m => ((hidden m).map total).sum).sum = 0 := by
        refine List.sum_eq_zero fun x hx => ?_
        obtain ⟨m, hm, rfl⟩ := List.mem_map.mp hx
        rw [h c hc m hm]
        rfl
      rw [weightedMethods_credited c hcontainer, hhidden, add_zero]
    · obtain ⟨-, hfunction⟩ := isFunction_of_mem_members hm
      exact (contribution_iff m hfunction).mpr (h c hc m hm)
    · refine (sum_of_kind (fun t => (finished t).wmc.classWmcSum)
        (fun t => (finished t).wmc.classWmc) .class (fun t => (finished_weights t).2.2.1)
        fun t ht => ?_).1 t
      rw [(finished_weights t).1, if_neg ht]
    · refine (sum_of_kind (fun t => (finished t).wmc.interfaceWmcSum)
        (fun t => (finished t).wmc.interfaceWmc) .interface (fun t => (finished_weights t).2.2.2)
        fun t ht => ?_).1 t
      rw [(finished_weights t).2.1, if_neg ht]

/-- A class with a block in its body, a module in the block, a class in the module, and a
method in that class. -/
def moduleInBlock : SpaceTree :=
  .node ⟨.unit, false, 0⟩ [.node ⟨.class, false, 0⟩ [.node ⟨.function, false, 0⟩
    [.node ⟨.namespace, false, 0⟩ [.node ⟨.class, false, 0⟩ [.node ⟨.function, false, 0⟩ []]]]]]

/-- The method of the inner class is counted there and again in the outer class. -/
theorem moduleInBlock_counted_twice :
    (containers moduleInBlock).map weightedMethods = [4, 1] ∧
      (containers moduleInBlock).map (fun c => ((credited c).map Space.complexity).sum) = [2, 1] ∧
      ¬ Attributed moduleInBlock := by
  have hweights : (containers moduleInBlock).map weightedMethods = [4, 1] := by decide +kernel
  have hcredited : (containers moduleInBlock).map
      (fun c => ((credited c).map Space.complexity).sum) = [2, 1] := by decide +kernel
  refine ⟨hweights, hcredited, fun h => ?_⟩
  have heq : (containers moduleInBlock).map weightedMethods =
      (containers moduleInBlock).map fun c => ((credited c).map Space.complexity).sum :=
    List.map_congr_left h.weights
  rw [hweights, hcredited] at heq
  exact absurd heq (by decide)

end BigCodeAnalysis.Metrics.Wmc
