import BigCodeAnalysis.Metrics.HalsteadTally
import BigCodeAnalysis.Spaces.Readings
import BigCodeAnalysis.Trees.Rose

/-! Halstead counts do not depend on how a tree is cut into spaces. However the nodes below a
space are spread over the spaces inside it and in whatever order these are merged, the
finalised counts are those of one flat count. -/

namespace BigCodeAnalysis.Metrics.Halstead

open Spaces Trees

variable (getter : Getter)

/-! ### The maps of a space -/

namespace HalsteadMaps

/-- The maps tally the keys of some nodes. -/
structure Tallies (maps : HalsteadMaps) (nodes : List Visited) : Prop where
  operators : maps.operators.Tallies ((getter.operators nodes).filterMap Sum.getLeft?)
  primitiveOperators :
    maps.primitiveOperators.Tallies ((getter.operators nodes).filterMap Sum.getRight?)
  operands : maps.operands.Tallies (getter.operands nodes)

variable {getter} {maps other : HalsteadMaps} {nodes nodes' : List Visited}

theorem tallies_new : new.Tallies getter [] :=
  ⟨CountMap.tallies_nil, CountMap.tallies_nil, CountMap.tallies_nil⟩

theorem Tallies.congr (h : maps.Tallies getter nodes) (hperm : nodes.Perm nodes') :
    maps.Tallies getter nodes' := by
  have hoperators : (getter.operators nodes).Perm (getter.operators nodes') :=
    (hperm.filter _).map _
  exact ⟨h.operators.congr (hoperators.filterMap _),
    h.primitiveOperators.congr (hoperators.filterMap _),
    h.operands.congr ((hperm.filter _).map _)⟩

theorem operators_cons (v : Visited) (nodes : List Visited) :
    getter.operators (v :: nodes) = if getter.role v = .operator then
      getter.operatorKey v :: getter.operators nodes else getter.operators nodes := by
  unfold Getter.operators
  rw [List.filter_cons]
  simp only [decide_eq_true_eq]
  split_ifs <;> rfl

theorem operands_cons (v : Visited) (nodes : List Visited) :
    getter.operands (v :: nodes) = if getter.role v = .operand then
      getter.getOperandId v.ancestors v.node :: getter.operands nodes
      else getter.operands nodes := by
  unfold Getter.operands
  rw [List.filter_cons]
  simp only [decide_eq_true_eq]
  split_ifs <;> rfl

/-- A node of no role is not counted. -/
theorem Tallies.unknown (h : maps.Tallies getter nodes) {v : Visited}
    (hrole : getter.role v = .unknown) : maps.Tallies getter (v :: nodes) := by
  have hoperators : getter.operators (v :: nodes) = getter.operators nodes := by
    rw [operators_cons, hrole, if_neg nofun]
  have hoperands : getter.operands (v :: nodes) = getter.operands nodes := by
    rw [operands_cons, hrole, if_neg nofun]
  exact ⟨hoperators ▸ h.operators, hoperators ▸ h.primitiveOperators, hoperands ▸ h.operands⟩

/-- An operator goes into the map of its kind of key. -/
theorem Tallies.operator (h : maps.Tallies getter nodes) {v : Visited}
    (hrole : getter.role v = .operator) :
    (match getter.operatorKey v with
      | .inl kind => { maps with operators := maps.operators.bump kind 1 }
      | .inr text => { maps with primitiveOperators := maps.primitiveOperators.bump text 1 }
        : HalsteadMaps).Tallies getter (v :: nodes) := by
  have hoperators : getter.operators (v :: nodes) =
      getter.operatorKey v :: getter.operators nodes := by
    rw [operators_cons, hrole, if_pos rfl]
  have hoperands : getter.operands (v :: nodes) = getter.operands nodes := by
    rw [operands_cons, hrole, if_neg nofun]
  cases hkey : getter.operatorKey v with
  | inl kind =>
    refine ⟨?_, ?_, hoperands ▸ h.operands⟩
    · rw [hoperators, hkey, List.filterMap_cons_some (f := Sum.getLeft?) (b := kind) rfl]
      exact h.operators.bump kind Nat.one_pos
    · rw [hoperators, hkey, List.filterMap_cons_none rfl]
      exact h.primitiveOperators
  | inr text =>
    refine ⟨?_, ?_, hoperands ▸ h.operands⟩
    · rw [hoperators, hkey, List.filterMap_cons_none rfl]
      exact h.operators
    · rw [hoperators, hkey, List.filterMap_cons_some (f := Sum.getRight?) (b := text) rfl]
      exact h.primitiveOperators.bump text Nat.one_pos

theorem Tallies.operand (h : maps.Tallies getter nodes) {v : Visited}
    (hrole : getter.role v = .operand) :
    HalsteadMaps.Tallies getter { maps with
      operands := maps.operands.bump (getter.getOperandId v.ancestors v.node) 1 }
      (v :: nodes) := by
  have hoperators : getter.operators (v :: nodes) = getter.operators nodes := by
    rw [operators_cons, hrole, if_neg nofun]
  refine ⟨hoperators ▸ h.operators, hoperators ▸ h.primitiveOperators, ?_⟩
  rw [operands_cons, hrole, if_pos rfl]
  exact h.operands.bump _ Nat.one_pos

theorem Tallies.visit (h : maps.Tallies getter nodes) (v : Visited) :
    (computeHalstead getter v.ancestors v.node maps).Tallies getter (v :: nodes) := by
  unfold computeHalstead
  by_cases hempty : getter.getId v.node = []
  · rw [if_pos hempty]
    exact h.unknown (if_pos hempty)
  · have hrole : getter.role v = getter.getOpTypeWithCode v.ancestors v.node := if_neg hempty
    rw [if_neg hempty]
    cases htype : getter.getOpTypeWithCode v.ancestors v.node with
    | unknown => exact h.unknown (hrole.trans htype)
    | operand => exact h.operand (hrole.trans htype)
    | operator =>
      have hcounted := h.operator (hrole.trans htype)
      unfold Getter.operatorKey at hcounted
      cases hspelling : getter.getOperatorSpelling v.ancestors v.node with
      | some spelling => simpa only [hspelling] using hcounted
      | none =>
        simp only [hspelling] at hcounted ⊢
        split_ifs at hcounted ⊢
        · exact hcounted
        · exact hcounted

theorem Tallies.merge (h : maps.Tallies getter nodes) (hother : other.Tallies getter nodes') :
    (maps.merge other).Tallies getter (nodes ++ nodes') := by
  have hoperators : getter.operators (nodes ++ nodes') =
      getter.operators nodes ++ getter.operators nodes' := by
    unfold Getter.operators
    rw [List.filter_append, List.map_append]
  have hoperands : getter.operands (nodes ++ nodes') =
      getter.operands nodes ++ getter.operands nodes' := by
    unfold Getter.operands
    rw [List.filter_append, List.map_append]
  refine ⟨?_, ?_, ?_⟩
  · rw [hoperators, List.filterMap_append]
    exact h.operators.merge hother.operators
  · rw [hoperators, List.filterMap_append]
    exact h.primitiveOperators.merge hother.primitiveOperators
  · rw [hoperands]
    exact h.operands.merge hother.operands

/-- Distinct keys of both kinds. -/
theorem length_dedup_sum {A B : Type*} [DecidableEq A] [DecidableEq B] (l : List (A ⊕ B)) :
    l.dedup.length = (l.filterMap Sum.getLeft?).dedup.length +
      (l.filterMap Sum.getRight?).dedup.length := by
  have hsum : l.toFinset = (l.filterMap Sum.getLeft?).toFinset.disjSum
      (l.filterMap Sum.getRight?).toFinset := by
    ext x
    cases x <;> simp
  rw [← List.card_toFinset, hsum, Finset.card_disjSum, List.card_toFinset, List.card_toFinset]

theorem length_sum {A B : Type*} (l : List (A ⊕ B)) : l.length =
    (l.filterMap Sum.getLeft?).length + (l.filterMap Sum.getRight?).length := by
  induction l with
  | nil => rfl
  | cons x l ih =>
    cases x with
    | inl a =>
      rw [List.filterMap_cons_some (f := Sum.getLeft?) (b := a) rfl, List.filterMap_cons_none rfl, List.length_cons,
        List.length_cons, ih]
      omega
    | inr b =>
      rw [List.filterMap_cons_none rfl, List.filterMap_cons_some (f := Sum.getRight?) (b := b) rfl, List.length_cons,
        List.length_cons, ih]
      omega

theorem Tallies.finalize (h : maps.Tallies getter nodes) :
    maps.finalize = flatCount getter nodes := by
  obtain ⟨hsize, hsum⟩ := h.operators.sizes
  obtain ⟨hsize', hsum'⟩ := h.primitiveOperators.sizes
  obtain ⟨hsize'', hsum''⟩ := h.operands.sizes
  rw [HalsteadMaps.finalize, flatCount, hsize, hsum, hsize', hsum', hsize'', hsum'',
    length_dedup_sum, length_sum]

end HalsteadMaps

/-! ### A timeline -/

def halsteadAlgebra : ScopeAlgebra Visited Node Visited HalsteadMaps where
  visit v := computeHalstead getter v.ancestors v.node
  prune _ := id
  enter _ _ := .new
  leave := HalsteadMaps.merge

/-- A run tallies every node visited in the scope and in the scopes inside it. -/
theorem execAll_tallies (steps : List SpaceStep) : ∀ {maps : HalsteadMaps}
    {nodes : List Visited}, maps.Tallies getter nodes →
    (Step.execAll (halsteadAlgebra getter) steps maps).Tallies getter
      (nodes ++ Step.visitsAll steps) := by
  induction steps using Step.steps_induction with
  | nil =>
    intro maps nodes h
    rwa [Step.execAll_nil, Step.visitsAll_nil, List.append_nil]
  | visit v rest ih =>
    intro maps nodes h
    rw [Step.execAll_visit, Step.visitsAll_visit]
    exact (ih (h.visit v)).congr List.perm_middle.symm
  | prune node rest ih =>
    intro maps nodes h
    rw [Step.execAll_prune, Step.visitsAll_prune]
    exact ih h
  | child v steps rest ihs ihr =>
    intro maps nodes h
    have hchild := ihs (HalsteadMaps.tallies_new : HalsteadMaps.new.Tallies getter [])
    rw [Step.execAll_child, Step.visitsAll_child, ← List.append_assoc]
    exact ihr (h.merge hchild)

/-- The counts of a finalised space. -/
def finalStats (steps : List SpaceStep) : Stats :=
  (Step.execAll (halsteadAlgebra getter) steps .new).finalize

theorem finalStats_eq (steps : List SpaceStep) :
    finalStats getter steps = flatCount getter (Step.visitsAll steps) :=
  (execAll_tallies getter steps HalsteadMaps.tallies_new).finalize

/-! ### A tree -/

mutual
def retained : Marked → List Visited
  | .node (.pruned _) _ => []
  | .node (.kept v) cs => v :: retainedForest cs

/-- The nodes of a forest that are not pruned, whether or not they open a space. -/
def retainedForest : List Marked → List Visited
  | [] => []
  | m :: ms => retained m ++ retainedForest ms
end

theorem visitsAll_steps :
    (∀ m : Marked, Step.visitsAll (Marked.steps m) = retained m) ∧
    ∀ ms : List Marked, Step.visitsAll (Marked.stepsForest ms) = retainedForest ms := by
  refine Rose.tree_forest_induction (fun mark cs ih => ?_) ?_ (fun m ms ihm ihms => ?_)
  · cases mark with
    | pruned node => simp [Marked.steps, retained]
    | kept v =>
      rw [Marked.steps, retained]
      split_ifs
      · rw [Step.visitsAll_child, Step.visitsAll_nil, List.append_nil, Step.visitsAll_visit, ih]
      · rw [Step.visitsAll_visit, ih]
  · rw [Marked.stepsForest, Step.visitsAll_nil, retainedForest]
  · rw [Marked.stepsForest, Step.visitsAll_append, ihm, ihms, retainedForest]

theorem retainedForest_shuffled {ms ms' : List Marked} (h : Rose.Shuffled ms ms') :
    (retainedForest ms).Perm (retainedForest ms') := by
  induction h with
  | nil => exact .refl _
  | cons mark _ _ ihc iht =>
    rw [retainedForest, retainedForest]
    cases mark with
    | pruned node =>
      rw [retained, retained]
      exact iht
    | kept v =>
      rw [retained, retained]
      exact (ihc.append iht).cons v
  | swap m n ms =>
    simp only [retainedForest]
    rw [← List.append_assoc, ← List.append_assoc]
    exact List.perm_append_comm.append_right _
  | trans _ _ ih ih' => exact ih.trans ih'

/-- The finalised counts of a space over a forest, and of one that a node opens over it, are
the flat counts of the nodes, however the forest is cut into spaces and whatever the order in
which these are merged. -/
theorem finalStats_partition {ms ms' : List Marked} (h : Rose.Shuffled ms ms') (v : Visited) :
    finalStats getter (Marked.stepsForest ms') = flatCount getter (retainedForest ms) ∧
    finalStats getter (.visit v :: Marked.stepsForest ms') =
      flatCount getter (v :: retainedForest ms) := by
  have hperm := (retainedForest_shuffled h).symm
  rw [finalStats_eq, finalStats_eq, Step.visitsAll_visit, visitsAll_steps.2]
  exact ⟨flatCount_perm getter hperm, flatCount_perm getter (hperm.cons v)⟩

/-- Symbol 1 is an operator keyed by its kind, symbol 2 an operand keyed by its row. -/
def symbolGetter : Getter where
  getId node := [.ofNat node.label.kindId]
  getOpTypeWithCode _ node :=
    if node.label.kindId = 1 then .operator
    else if node.label.kindId = 2 then .operand else .unknown
  getOperatorSpelling _ _ := none
  keysOperatorByText _ _ := false
  getOperandId _ node := [.ofNat node.startRow]

def visited (kindId row : ℕ) (funcSpace : Bool) : Visited :=
  ⟨[], rowNode kindId row [], ⟨funcSpace, false⟩⟩

/-- A function with an operand beside a nested function that holds the same operand. -/
theorem finalStats_partition_nested :
    finalStats symbolGetter (.visit (visited 1 0 true) :: Marked.stepsForest
      [.node (.kept (visited 2 7 false)) [],
        .node (.kept (visited 1 1 true)) [.node (.kept (visited 2 7 false)) []]]) =
      ⟨1, 2, 1, 2⟩ :=
  (finalStats_partition symbolGetter
    (.swap (.node (.kept (visited 1 1 true)) [.node (.kept (visited 2 7 false)) []])
      (.node (.kept (visited 2 7 false)) []) []) (visited 1 0 true)).2.trans (by decide)

/-! ### The walk -/

section Walk
variable {R : Type*} (lang : Language) {suite : MetricSuite R} {options : MetricsOptions}

mutual
def flatCounts : Marked → List (Rose Stats)
  | .node (.pruned _) _ => []
  | .node (.kept v) cs =>
    if v.facts.funcSpace then
      [.node (flatCount getter (v :: retainedForest cs)) (flatCountsForest cs)]
    else flatCountsForest cs

/-- The spaces of a forest with the flat counts of their nodes. -/
def flatCountsForest : List Marked → List (Rose Stats)
  | [] => []
  | m :: ms => flatCounts m ++ flatCountsForest ms
end

theorem results_steps :
    (∀ m : Marked, Step.resultsAll (fun _ steps => finalStats getter steps) (Marked.steps m) =
      flatCounts getter m) ∧
    ∀ ms : List Marked,
      Step.resultsAll (fun _ steps => finalStats getter steps) (Marked.stepsForest ms) =
        flatCountsForest getter ms := by
  refine Rose.tree_forest_induction (fun mark cs ih => ?_) ?_ (fun m ms ihm ihms => ?_)
  · cases mark with
    | pruned node =>
      rw [Marked.steps, flatCounts, Step.resultsAll_prune, Step.resultsAll]
    | kept v =>
      rw [Marked.steps, flatCounts]
      split_ifs
      · rw [Step.resultsAll_child, Step.resultsAll_visit, ih, Step.resultsAll,
          (finalStats_partition getter (.refl cs) v).2]
      · rw [Step.resultsAll_visit, ih]
  · rw [Marked.stepsForest, Step.resultsAll, flatCountsForest]
  · rw [Marked.stepsForest, Step.resultsAll_append, ihm, ihms, flatCountsForest]

/-- The walk keeps in the frame of a space the maps of its timeline. -/
theorem halsteadMaps_execAll (hcompute : suite.halsteadCompute = computeHalstead getter)
    (hselected : .halstead ∈ options.selected) (steps : List SpaceStep) (r : SpaceRun R) :
    (Step.execAll (spaceAlgebra lang suite options) steps r).state.halsteadMaps =
      Step.execAll (halsteadAlgebra getter) steps r.state.halsteadMaps := by
  have hraise : ∀ (r : SpaceRun R) d, (r.raise d).state.halsteadMaps = r.state.halsteadMaps := by
    intro r d
    unfold SpaceRun.raise
    dsimp only
    split_ifs <;> rfl
  refine Step.execAll_map (spaceAlgebra lang suite options) (halsteadAlgebra getter)
    (fun r => r.state.halsteadMaps) (fun v r => ?_) (fun node r => ?_) (fun v r => ?_)
    (fun r child => ?_) steps r
  · have hcomment : (r.raiseComment lang v.node).state.halsteadMaps = r.state.halsteadMaps := by
      unfold SpaceRun.raiseComment
      split
      · rfl
      · exact hraise r _
    show (r.visit lang suite options v).state.halsteadMaps = _
    unfold SpaceRun.visit computePerNode
    simp only [hselected, if_true, hcompute, hcomment]
    rfl
  · show (r.prune suite options node).state.halsteadMaps = _
    unfold SpaceRun.prune
    dsimp only
    split_ifs <;> rfl
  · simp only [spaceAlgebra, openedState]
    split_ifs <;> rfl
  · have hfold : ∀ (ds : List Suppression) (r : SpaceRun R),
        (ds.foldl SpaceRun.raise r).state.halsteadMaps = r.state.halsteadMaps := by
      intro ds
      induction ds with
      | nil => exact fun _ => rfl
      | cons d ds ih => exact fun r => (ih _).trans (hraise r d)
    show ((child.outer.foldl SpaceRun.raise r).state.halsteadMaps).merge _ = _
    rw [hfold]
    rfl

/-- Every space of the walk's result has the flat counts of the nodes in its subtree. -/
theorem metricsInner_halstead (hcompute : suite.halsteadCompute = computeHalstead getter)
    (hselected : .halstead ∈ options.selected) (name : Option String) (root : Node)
    (hunit : lang.getSpaceKindWithCode [] root = .unit →
      lang.promotesToFuncSpaceWithCode [] root = true)
    (hroot : (skipVerdict lang options [] root .retain).1 = false) :
    ∃ fs, metricsInner lang suite options name root = .ok fs ∧
      [fs.readings CodeMetrics.halstead] =
        if lang.getSpaceKindWithCode [] root = .unit then
          flatCounts getter (markRoot lang options root)
        else [.node (flatCount getter (retained (markRoot lang options root)))
          (flatCounts getter (markRoot lang options root))] := by
  obtain ⟨fs, hrec, hwalk⟩ := metricsInner_eq_recursive lang suite options name root hunit hroot
  refine ⟨fs, hwalk, ?_⟩
  have hfinal : ∀ frame steps, frame.state.halsteadMaps = .new →
      (finalizeState suite options (Step.execAll (spaceAlgebra lang suite options) steps
        frame).state).space.metrics.halstead = finalStats getter steps := by
    intro frame steps hnew
    have hmaps := halsteadMaps_execAll getter lang hcompute hselected steps frame
    rw [hnew] at hmaps
    simp only [finalizeState, hselected, if_true, hmaps]
    rfl
  have hopened : ∀ v (r : SpaceRun R),
      ((spaceAlgebra lang suite options).enter v r).state.halsteadMaps = .new := by
    intro v r
    simp only [spaceAlgebra, openedState]
    split_ifs <;> rfl
  have hreads : ReadsAs lang suite options CodeMetrics.halstead
      fun _ steps => finalStats getter steps := fun v steps r => hfinal _ _ (hopened v r)
  have hrun : ∀ frame steps, frame.space.spaces = [] → frame.halsteadMaps = .new →
      FuncSpace.readings CodeMetrics.halstead { (finalizeState suite options
        (runRoot lang suite options frame steps).state).space with name := name } =
      .node (finalStats getter steps)
        (Step.resultsAll (fun _ steps => finalStats getter steps) steps) := by
    intro frame steps hspaces hnew
    rw [hreads.runRoot frame hspaces name steps]
    exact congrArg (Rose.node · _) (hfinal _ steps hnew)
  have hresults := (results_steps getter).1 (markRoot lang options root)
  unfold recursiveSpaces rootRun at hrec
  by_cases hkind : lang.getSpaceKindWithCode [] root = .unit
  · obtain ⟨steps, hsteps, -⟩ := unitRoot_settled lang suite options hkind (hunit hkind) hroot
    simp only [hkind, ne_eq, not_true_eq_false, if_false, hsteps, Option.map_some,
      Option.some.injEq] at hrec
    rw [hsteps, Step.resultsAll_child, Step.resultsAll] at hresults
    rw [if_pos hkind, ← hresults, ← hrec, hrun _ _
      (openedState_space lang suite options (unitRoot lang root)).2
      (hopened (unitRoot lang root) ⟨State.new lang suite [] root .unit, true, fun _ => none, []⟩)]
  · simp only [hkind, ne_eq, not_false_eq_true, if_true, Option.map_some, Option.some.injEq]
      at hrec
    rw [if_neg hkind, ← hresults, ← hrec, hrun _ _ rfl rfl, finalStats_eq, visitsAll_steps.1]

end Walk

end BigCodeAnalysis.Metrics.Halstead
