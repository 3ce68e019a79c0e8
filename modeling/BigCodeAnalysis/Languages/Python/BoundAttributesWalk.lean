import BigCodeAnalysis.Languages.Python.BoundAttributes
import BigCodeAnalysis.Trees.RootPath

/-! The walk from an assignment down against the climb from an attribute up. Both pass through
the same patterns, so the attributes that the walk of a method collects are those that climb to
one of its assignments. -/

namespace BigCodeAnalysis.Languages.Python

open Trees

/-! ### Elements of a target -/

mutual
/-- The nodes under the patterns of a target, in order, each with the chain down to it. -/
def elements (chain : List Node) : Node → List (Node × List Node)
  | .node a cs =>
    if isTargetPattern (.node a cs) then elementsOf (chain ++ [.node a cs]) cs
    else [(.node a cs, chain)]

def elementsOf (chain : List Node) : List Node → List (Node × List Node)
  | [] => []
  | t :: ts => elements chain t ++ elementsOf chain ts
end

section
variable {σ : Type*} (collect : σ → Node → List Node → σ)

/-- A state of the walk below a chain, with the given result. -/
def Walked (chain : List Node) (s : σ) (state : List Node × σ) : Prop :=
  state.1.take chain.length = chain ∧ state.2 = s

def collectAll (s : σ) (found : List (Node × List Node)) : σ :=
  found.foldl (fun s e => collect s e.1 e.2) s

theorem collectAll_append (s : σ) (xs ys : List (Node × List Node)) :
    collectAll collect s (xs ++ ys) = collectAll collect (collectAll collect s xs) ys :=
  List.foldl_append

theorem descend_elements :
    (∀ (t : Node) chain s state, Walked chain s state →
      Walked chain (collectAll collect s (elements chain t))
        (StackWalk.descend .leftmostOnTop (elementVisit collect) chain.length t state)) ∧
    ∀ (ts : List Node) chain s state, Walked chain s state →
      Walked chain (collectAll collect s (elementsOf chain ts))
        (StackWalk.descendForest .leftmostOnTop (elementVisit collect) chain.length ts state) := by
  refine Rose.tree_forest_induction ?node ?nil ?cons
  case node =>
    rintro a cs ih chain _ ⟨buffer, s⟩ ⟨hbuffer, rfl⟩
    dsimp only at hbuffer
    rw [StackWalk.descend, elements, elementVisit]
    dsimp only
    rw [hbuffer]
    by_cases hpattern : isTargetPattern (.node a cs) = true
    · rw [if_pos hpattern, if_pos hpattern]
      have hbelow := ih (chain ++ [.node a cs]) s (chain ++ [.node a cs], s)
        ⟨List.take_length, rfl⟩
      rw [List.length_append, List.length_singleton] at hbelow
      obtain ⟨htake, hcollected⟩ := hbelow
      refine ⟨?_, hcollected⟩
      have hstart := congrArg (List.take chain.length) htake
      rwa [List.take_take, List.take_left, List.length_append, Nat.min_eq_left (by omega)] at hstart
    · rw [if_neg hpattern, if_neg hpattern]
      exact ⟨List.take_length, rfl⟩
  case nil =>
    intro chain s state h
    exact h
  case cons =>
    intro t ts iht ihts chain s state h
    have hfirst := iht chain s state h
    have hrest := ihts chain _ _ hfirst
    rw [StackWalk.descendForest, elementsOf, collectAll_append]
    exact hrest

/-- The walk collects the elements in order and leaves the chain as it was. -/
theorem pythonWalkTargetElements_eq (target : Node) (chain : List Node) (s : σ) :
    pythonWalkTargetElements collect target chain s =
      (chain, collectAll collect s (elements chain target)) := by
  obtain ⟨hchain, hcollected⟩ := (descend_elements collect).1 target chain s (chain, s)
    ⟨List.take_length, rfl⟩
  rw [pythonWalkTargetElements, StackWalk.run_eq_descend]
  exact Prod.ext hchain hcollected

end

theorem elementsOf_eq_flatMap (chain : List Node) (ts : List Node) :
    elementsOf chain ts = ts.flatMap (elements chain) := by
  induction ts with
  | nil => rfl
  | cons t ts ih => rw [elementsOf, ih, List.flatMap_cons]

theorem elements_sublist :
    (∀ (t : Node) chain, ((elements chain t).map Prod.fst).Sublist t.nodes) ∧
    ∀ (ts : List Node) chain,
      ((elementsOf chain ts).map Prod.fst).Sublist (Rose.forestNodes ts) := by
  refine Rose.tree_forest_induction (fun a cs ih chain => ?_) (fun _ => List.Sublist.refl _)
    (fun t ts iht ihts chain => ?_)
  · rw [elements, Rose.nodes]
    split
    · exact (ih _).cons _
    · exact List.singleton_sublist.mpr List.mem_cons_self
  · rw [elementsOf, List.map_append, Rose.forestNodes]
    exact (iht chain).append (ihts chain)

/-- The elements are the ends of the paths that go through patterns only. -/
theorem mem_elements_iff {t e : Node} {chain above : List Node} :
    (e, above) ∈ elements chain t ↔ ∃ ws, above = chain ++ ws ∧ IsPath t (ws ++ [e]) ∧
      (∀ w ∈ ws, isTargetPattern w = true) ∧ isTargetPattern e = false := by
  revert t chain above
  refine fun {t} => (Rose.tree_forest_induction
    (Q := fun ts => ∀ t ∈ ts, ∀ chain above : List Node, (e, above) ∈ elements chain t ↔
      ∃ ws, above = chain ++ ws ∧ IsPath t (ws ++ [e]) ∧
        (∀ w ∈ ws, isTargetPattern w = true) ∧ isTargetPattern e = false)
    (P := fun t => ∀ chain above : List Node, (e, above) ∈ elements chain t ↔
      ∃ ws, above = chain ++ ws ∧ IsPath t (ws ++ [e]) ∧
        (∀ w ∈ ws, isTargetPattern w = true) ∧ isTargetPattern e = false)
    ?node ?nil ?cons).1 t _ _
  case node =>
    intro a cs ih chain above
    rw [elements]
    by_cases hpattern : isTargetPattern (.node a cs) = true
    · rw [if_pos hpattern, elementsOf_eq_flatMap, List.mem_flatMap]
      constructor
      · rintro ⟨t, ht, hmem⟩
        obtain ⟨ws, rfl, hpath, hws, he⟩ := (ih t ht _ _).mp hmem
        refine ⟨.node a cs :: ws, by simp, hpath.of_child ht, ?_, he⟩
        exact List.forall_mem_cons.mpr ⟨hpattern, hws⟩
      · rintro ⟨ws, rfl, hpath, hws, he⟩
        cases ws with
        | nil =>
          obtain rfl : e = .node a cs := Option.some_inj.mp hpath.1
          rw [hpattern] at he
          cases he
        | cons w ws =>
          obtain rfl : w = .node a cs := Option.some_inj.mp hpath.1
          obtain ⟨c, q, hq⟩ : ∃ c q, ws ++ [e] = c :: q := List.exists_cons_of_ne_nil (by simp)
          rw [List.cons_append, hq] at hpath
          obtain ⟨hc, hbelow⟩ := hpath.cons
          rw [← hq] at hbelow
          refine ⟨c, hc, (ih c hc _ _).mpr ⟨ws, by simp, hbelow, ?_, he⟩⟩
          exact fun w hw => hws w (List.mem_cons_of_mem _ hw)
    · rw [if_neg hpattern, List.mem_singleton, Prod.mk.injEq]
      constructor
      · rintro ⟨rfl, rfl⟩
        exact ⟨[], by simp, ⟨rfl, List.isChain_singleton _⟩, by simp, by simpa using hpattern⟩
      · rintro ⟨ws, rfl, hpath, hws, -⟩
        cases ws with
        | nil => exact ⟨Option.some_inj.mp hpath.1, List.append_nil _⟩
        | cons w ws =>
          obtain rfl : w = .node a cs := Option.some_inj.mp hpath.1
          exact absurd (hws _ List.mem_cons_self) hpattern
  case nil => exact fun t h => absurd h List.not_mem_nil
  case cons =>
    intro t ts iht ihts u hu
    rcases List.mem_cons.mp hu with rfl | hu
    · exact iht
    · exact ihts u hu

/-! ### The region of a method -/

mutual
/-- The nodes of a tree that no boundary hides, in the order they are popped. -/
def region : Node → List Node
  | .node a cs => if isBoundary (.node a cs) then [] else .node a cs :: regionOf cs

def regionOf : List Node → List Node
  | [] => []
  | t :: ts => regionOf ts ++ region t
end

theorem mem_regionOf_iff {ts : List Node} {x : Node} :
    x ∈ regionOf ts ↔ ∃ t ∈ ts, x ∈ region t := by
  induction ts with
  | nil => simp [regionOf]
  | cons t ts ih =>
    rw [regionOf, List.mem_append, ih, or_comm]
    simp

/-- A node is in the region if no node on the way to it is a boundary. -/
theorem mem_region_iff {t x : Node} :
    x ∈ region t ↔ ∃ p, IsPath t (p ++ [x]) ∧ ∀ y ∈ p ++ [x], isBoundary y = false := by
  revert t
  refine fun {t} => (Rose.tree_forest_induction
    (P := fun t => x ∈ region t ↔
      ∃ p, IsPath t (p ++ [x]) ∧ ∀ y ∈ p ++ [x], isBoundary y = false)
    (Q := fun ts => ∀ t ∈ ts, x ∈ region t ↔
      ∃ p, IsPath t (p ++ [x]) ∧ ∀ y ∈ p ++ [x], isBoundary y = false) ?node ?nil ?cons).1 t
  case node =>
    intro a cs ih
    rw [region]
    by_cases hboundary : isBoundary (.node a cs) = true
    · rw [if_pos hboundary]
      refine iff_of_false List.not_mem_nil ?_
      rintro ⟨p, hpath, hclear⟩
      have hfirst : Rose.node a cs ∈ p ++ [x] := List.mem_of_mem_head? hpath.1
      rw [hclear _ hfirst] at hboundary
      cases hboundary
    · rw [if_neg hboundary, List.mem_cons, mem_regionOf_iff]
      constructor
      · rintro (rfl | ⟨t, ht, hx⟩)
        · exact ⟨[], ⟨rfl, List.isChain_singleton _⟩, by simpa using hboundary⟩
        · obtain ⟨p, hpath, hclear⟩ := (ih t ht).mp hx
          refine ⟨.node a cs :: p, hpath.of_child ht, ?_⟩
          exact List.forall_mem_cons.mpr ⟨by simpa using hboundary, hclear⟩
      · rintro ⟨p, hpath, hclear⟩
        cases p with
        | nil => exact Or.inl (Option.some_inj.mp hpath.1)
        | cons w p =>
          obtain rfl : w = .node a cs := Option.some_inj.mp hpath.1
          obtain ⟨c, q, hq⟩ : ∃ c q, p ++ [x] = c :: q := List.exists_cons_of_ne_nil (by simp)
          rw [List.cons_append, hq] at hpath
          obtain ⟨hc, hbelow⟩ := hpath.cons
          rw [← hq] at hbelow
          refine Or.inr ⟨c, hc, (ih c hc).mpr ⟨p, hbelow, fun y hy => hclear y ?_⟩⟩
          exact List.mem_cons_of_mem _ hy
  case nil => exact fun t h => absurd h List.not_mem_nil
  case cons =>
    intro t ts iht ihts u hu
    rcases List.mem_cons.mp hu with rfl | hu
    · exact iht
    · exact ihts u hu

/-- The walk order is a selection of the nodes, each once. -/
theorem region_perm_sublist :
    (∀ t : Node, ∃ l, (region t).Perm l ∧ l.Sublist t.nodes) ∧
    ∀ ts : List Node, ∃ l, (regionOf ts).Perm l ∧ l.Sublist (Rose.forestNodes ts) := by
  refine Rose.tree_forest_induction (fun a cs ih => ?_) ⟨[], List.Perm.refl _, List.Sublist.refl _⟩
    (fun t ts iht ihts => ?_)
  · obtain ⟨l, hperm, hsub⟩ := ih
    rw [region, Rose.nodes]
    split
    · exact ⟨[], List.Perm.refl _, List.nil_sublist _⟩
    · exact ⟨_, hperm.cons _, hsub.cons_cons _⟩
  · obtain ⟨l, hperm, hsub⟩ := iht
    obtain ⟨l', hperm', hsub'⟩ := ihts
    rw [regionOf, Rose.forestNodes]
    exact ⟨l ++ l', List.perm_append_comm.trans (hperm.append hperm'), hsub.append hsub'⟩

/-! ### What a method's walk collects -/

/-- The members among the elements of an assignment's target, with their names. -/
def boundIn (assignment : Node) : List (Node × List UInt8) :=
  match assignment.child 0 with
  | none => []
  | some target =>
    (elements [assignment] target).filterMap fun e =>
      if memberOwns e.1 e.2 then (pythonSelfAttributeName e.1).map (e.1, ·) else none

def assignmentsIn (root : Node) : List Node :=
  (regionOf root.children).filter fun node : Node => node.kind = .assignment

section
variable {σ : Type*} (collect : σ → Node → List UInt8 → σ)

theorem collectAll_member (s : σ) (found : List (Node × List Node)) :
    collectAll (collectMember collect) s found =
      (found.filterMap fun e => if memberOwns e.1 e.2 then
        (pythonSelfAttributeName e.1).map (e.1, ·) else none).foldl
          (fun s p => collect s p.1 p.2) s := by
  rw [List.foldl_filterMap, collectAll]
  congr 1
  funext s e
  rw [collectMember]
  by_cases howns : memberOwns e.1 e.2 = true
  · rw [if_pos howns, if_pos howns]
    cases pythonSelfAttributeName e.1 <;> rfl
  · rw [if_neg howns, if_neg howns]

theorem fromTarget_eq (assignment : Node) (state : List Node × σ) :
    (pythonCollectSelfAttrsFromTarget collect assignment state).2 =
      (boundIn assignment).foldl (fun s p => collect s p.1 p.2) state.2 := by
  rw [pythonCollectSelfAttrsFromTarget, boundIn]
  cases assignment.child 0 with
  | none => rfl
  | some target =>
    show (pythonWalkTargetElements (collectMember collect) target [assignment] state.2).2 = _
    rw [pythonWalkTargetElements_eq, collectAll_member]

def gathered (s : σ) (nodes : List Node) : σ :=
  ((nodes.filter fun node : Node => node.kind = .assignment).flatMap boundIn).foldl
    (fun s p => collect s p.1 p.2) s

theorem gathered_append (s : σ) (xs ys : List Node) :
    gathered collect s (xs ++ ys) = gathered collect (gathered collect s xs) ys := by
  rw [gathered, gathered, gathered, List.filter_append, List.flatMap_append, List.foldl_append]

theorem gathered_cons (s : σ) (x : Node) (xs : List Node) :
    gathered collect s (x :: xs) = gathered collect (gathered collect s [x]) xs :=
  gathered_append collect s [x] xs

theorem descend_region :
    (∀ (t : Node) (state : List Node × σ),
      (StackWalk.descend .rightmostOnTop (subtreeVisit collect) () t state).2 =
        gathered collect state.2 (region t)) ∧
    ∀ (ts : List Node) (state : List Node × σ),
      (StackWalk.descendForest .rightmostOnTop (subtreeVisit collect) () ts state).2 =
        gathered collect state.2 (regionOf ts) := by
  refine Rose.tree_forest_induction ?node (fun _ => rfl) ?cons
  case node =>
    intro a cs ih state
    rw [StackWalk.descend, region, subtreeVisit]
    by_cases hboundary : isBoundary (.node a cs) = true
    · rw [if_pos hboundary, if_pos hboundary]
      rfl
    · rw [if_neg hboundary, if_neg hboundary, gathered_cons]
      by_cases hkind : Node.kind (.node a cs) = .assignment
      · have hself : gathered collect state.2 [.node a cs] =
            (pythonCollectSelfAttrsFromTarget collect (.node a cs) state).2 := by
          rw [fromTarget_eq, gathered, List.filter_singleton]
          simp [hkind]
        rw [if_pos hkind, hself]
        exact ih _
      · have hself : gathered collect state.2 [.node a cs] = state.2 := by
          rw [gathered, List.filter_singleton]
          simp [hkind]
        rw [if_neg hkind, hself]
        exact ih _
  case cons =>
    intro t ts iht ihts state
    rw [StackWalk.descendForest, regionOf, gathered_append, iht, ihts]

/-- The walk of a method collects the members of each assignment in its region. -/
theorem pythonCollectSelfAttrsInSubtree_eq (root : Node) (s : σ) :
    pythonCollectSelfAttrsInSubtree collect root s =
      ((assignmentsIn root).flatMap boundIn).foldl (fun s p => collect s p.1 p.2) s := by
  have hforest := (descend_region collect).2 root.children ([], s)
  rw [StackWalk.descendForest_eq_foldl] at hforest
  rw [pythonCollectSelfAttrsInSubtree, StackWalk.loop_eq_foldl, List.foldl_map]
  · exact hforest
  · simp [StackWalk.pending, Rose.forestSize_reverse, Function.comp_def]

end

end BigCodeAnalysis.Languages.Python
