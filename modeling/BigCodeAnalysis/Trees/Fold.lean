import BigCodeAnalysis.Trees.Rose

/-! Recursions that work a tree from its leaves up, and types whose values are trees by way of
their own list of children. -/

namespace BigCodeAnalysis.Trees

variable {α β : Type*}

namespace Rose

mutual
/-- The value of a node from its label and the values of its children. -/
def fold (f : α → List β → β) : Rose α → β
  | .node a cs => f a (foldForest f cs)

def foldForest (f : α → List β → β) : List (Rose α) → List β
  | [] => []
  | t :: ts => t.fold f :: foldForest f ts
end

theorem foldForest_eq_map (f : α → List β → β) (ts : List (Rose α)) :
    foldForest f ts = ts.map (fold f) := by
  induction ts with
  | nil => rw [foldForest, List.map_nil]
  | cons t ts ih => rw [foldForest, List.map_cons, ih]

@[simp] theorem fold_node (f : α → List β → β) (a : α) (cs : List (Rose α)) :
    fold f (.node a cs) = f a (cs.map (fold f)) := by
  rw [fold, foldForest_eq_map]

mutual
def postorder : Rose α → List (Rose α)
  | .node a cs => forestPostorder cs ++ [.node a cs]

/-- Every subtree of a forest, children in order and before their parents. -/
def forestPostorder : List (Rose α) → List (Rose α)
  | [] => []
  | t :: ts => t.postorder ++ forestPostorder ts
end

theorem forestPostorder_eq_flatMap (ts : List (Rose α)) :
    forestPostorder ts = ts.flatMap postorder := by
  induction ts with
  | nil => rw [forestPostorder, List.flatMap_nil]
  | cons t ts ih => rw [forestPostorder, List.flatMap_cons, ih]

theorem postorder_perm_nodes :
    (∀ t : Rose α, t.postorder.Perm t.nodes) ∧
      ∀ ts : List (Rose α), (forestPostorder ts).Perm (forestNodes ts) := by
  refine tree_forest_induction (fun a cs ih => ?_) ?_ (fun t ts iht ihts => ?_)
  · rw [postorder, nodes]
    exact (ih.append_right _).trans (List.perm_append_singleton _ _)
  · rw [forestPostorder, forestNodes]
  · rw [forestPostorder, forestNodes]
    exact iht.append ihts

mutual
/-- How many lists of children that are not empty lie one inside the other. -/
def levels : Rose α → ℕ
  | .node _ cs => forestLevels cs

def forestLevels : List (Rose α) → ℕ
  | [] => 0
  | t :: ts => max (t.levels + 1) (forestLevels ts)
end

end Rose

/-- A type of finite trees: its values have children, and unfold into a tree. -/
structure TreeType (α : Type*) where
  childrenOf : α → List α
  unfold : α → Rose α
  unfold_eq : ∀ a, unfold a = .node a ((childrenOf a).map unfold)

namespace TreeType

variable (tree : TreeType α)

/-- A tree's value by recursion on its structure. -/
def convert (build : α → List β → β) (a : α) : β := (tree.unfold a).fold build

theorem convert_eq (build : α → List β → β) (a : α) :
    tree.convert build a = build a ((tree.childrenOf a).map (tree.convert build)) := by
  rw [convert, unfold_eq, Rose.fold_node, List.map_map]
  rfl

/-- The nodes in post-order, each with the values of its children. -/
def conversions (build : α → List β → β) (a : α) : List (α × List β) :=
  (tree.unfold a).postorder.map fun t =>
    (t.label, (tree.childrenOf t.label).map (tree.convert build))

/-- The conversions below a node come before its own. -/
theorem conversions_eq (build : α → List β → β) (a : α) :
    tree.conversions build a =
      (tree.childrenOf a).flatMap (tree.conversions build) ++
        [(a, (tree.childrenOf a).map (tree.convert build))] := by
  rw [conversions, unfold_eq, Rose.postorder, Rose.forestPostorder_eq_flatMap, List.flatMap_map,
    List.map_append, List.map_flatMap]
  rfl

end TreeType

end BigCodeAnalysis.Trees
