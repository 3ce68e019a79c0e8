import Mathlib.Data.List.Basic
import Mathlib.Data.List.Flatten
import Mathlib.Data.List.Perm.Basic

/-! Rooted ordered trees. A forest is a list of trees, and the recursions of this
development run over forests: one case for the empty forest and one for a tree
with its own children in front of its siblings. A forest can be shuffled: the same trees with
the children of every node in another order. -/

namespace BigCodeAnalysis.Trees

section

variable {α β : Type*}

/-- A tree with a label and its children in source order. -/
inductive Rose (α : Type*) where
  | node (label : α) (children : List (Rose α))

namespace Rose

def label : Rose α → α
  | node a _ => a

def children : Rose α → List (Rose α)
  | node _ cs => cs

@[simp] theorem label_node (a : α) (cs : List (Rose α)) : (node a cs).label = a := rfl

@[simp] theorem children_node (a : α) (cs : List (Rose α)) : (node a cs).children = cs := rfl

/-- Induction over trees and forests together, one case for each constructor. -/
theorem tree_forest_induction {P : Rose α → Prop} {Q : List (Rose α) → Prop}
    (node : ∀ a cs, Q cs → P (.node a cs)) (nil : Q [])
    (cons : ∀ t ts, P t → Q ts → Q (t :: ts)) : (∀ t, P t) ∧ ∀ ts, Q ts :=
  ⟨@Rose.rec α P Q node nil cons, @Rose.rec_1 α P Q node nil cons⟩

/-- Induction over forests: the children of the first tree and its siblings are
both smaller forests. -/
theorem forest_induction {motive : List (Rose α) → Prop} (nil : motive [])
    (cons : ∀ a cs ts, motive cs → motive ts → motive (.node a cs :: ts)) (ts : List (Rose α)) :
    motive ts :=
  (tree_forest_induction (P := fun t => ∀ ts, motive ts → motive (t :: ts))
    (fun a cs hcs ts hts => cons a cs ts hcs hts) nil fun _ _ ht hts => ht _ hts).2 ts

mutual
def size : Rose α → ℕ
  | .node _ cs => forestSize cs + 1

/-- The number of nodes of a forest. -/
def forestSize : List (Rose α) → ℕ
  | [] => 0
  | t :: ts => t.size + forestSize ts
end

@[simp] theorem forestSize_nil : forestSize ([] : List (Rose α)) = 0 := by
  simp only [forestSize]

theorem forestSize_cons (t : Rose α) (ts : List (Rose α)) :
    forestSize (t :: ts) = t.size + forestSize ts := by
  simp only [forestSize]

@[simp] theorem size_node (a : α) (cs : List (Rose α)) :
    (node a cs).size = forestSize cs + 1 := by
  simp only [size]

theorem forestSize_append (us vs : List (Rose α)) :
    forestSize (us ++ vs) = forestSize us + forestSize vs := by
  induction us with
  | nil => simp
  | cons u us ih => simp only [List.cons_append, forestSize_cons, ih]; omega

theorem forestSize_reverse (ts : List (Rose α)) : forestSize ts.reverse = forestSize ts := by
  induction ts with
  | nil => rfl
  | cons t ts ih =>
    simp only [List.reverse_cons, forestSize_append, ih, forestSize_cons, forestSize_nil]
    omega

theorem forestSize_le_of_sublist {us vs : List (Rose α)} (h : us.Sublist vs) :
    forestSize us ≤ forestSize vs := by
  induction h with
  | slnil => exact Nat.le_refl _
  | cons t _ ih =>
    rw [forestSize_cons]
    omega
  | cons_cons t _ ih =>
    rw [forestSize_cons, forestSize_cons]
    omega

theorem size_le_forestSize {t : Rose α} {ts : List (Rose α)} (h : t ∈ ts) :
    t.size ≤ forestSize ts := by
  have hle := forestSize_le_of_sublist (List.singleton_sublist.mpr h)
  rw [forestSize_cons, forestSize_nil] at hle
  omega

theorem size_eq (t : Rose α) : t.size = forestSize t.children + 1 := by
  cases t
  rw [size_node, children_node]

mutual
def nodes : Rose α → List (Rose α)
  | .node a cs => .node a cs :: forestNodes cs

/-- Every subtree of a forest, parents before children and children in order. -/
def forestNodes : List (Rose α) → List (Rose α)
  | [] => []
  | t :: ts => t.nodes ++ forestNodes ts
end

theorem nodes_eq (t : Rose α) : t.nodes = t :: forestNodes t.children := by
  cases t
  rw [nodes, children_node]

theorem forestNodes_eq_flatMap (ts : List (Rose α)) : forestNodes ts = ts.flatMap nodes := by
  induction ts with
  | nil => rw [forestNodes, List.flatMap_nil]
  | cons t ts ih => rw [forestNodes, List.flatMap_cons, ih]

theorem forestNodes_sublist {us vs : List (Rose α)} (h : us.Sublist vs) :
    (forestNodes us).Sublist (forestNodes vs) := by
  rw [forestNodes_eq_flatMap, forestNodes_eq_flatMap]
  exact h.flatMap nodes

theorem nodes_sublist_of_mem {t : Rose α} {ts : List (Rose α)} (h : t ∈ ts) :
    t.nodes.Sublist (forestNodes ts) := by
  have hsub := forestNodes_sublist (List.singleton_sublist.mpr h)
  rwa [forestNodes_eq_flatMap, List.flatMap_singleton] at hsub

theorem mem_forestNodes {t : Rose α} {ts : List (Rose α)} (h : t ∈ ts) : t ∈ forestNodes ts :=
  (nodes_sublist_of_mem h).subset (by rw [nodes_eq]; exact List.mem_cons_self)

theorem mem_forestNodes_of_child {t c : Rose α} {ts : List (Rose α)} (h : t ∈ forestNodes ts)
    (hc : c ∈ t.children) : c ∈ forestNodes ts := by
  induction ts using forest_induction with
  | nil => rw [forestNodes] at h; cases h
  | cons a cs ts ihcs ihts =>
    rw [forestNodes, nodes_eq, List.cons_append, children_node] at h ⊢
    rcases List.mem_cons.mp h with rfl | h
    · exact List.mem_cons_of_mem _ (List.mem_append_left _ (mem_forestNodes hc))
    · rcases List.mem_append.mp h with h | h
      · exact List.mem_cons_of_mem _ (List.mem_append_left _ (ihcs h))
      · exact List.mem_cons_of_mem _ (List.mem_append_right _ (ihts h))

/-- The nodes of a subtree stand together, in their order. -/
theorem nodes_sublist_forestNodes {t : Rose α} {ts : List (Rose α)} (h : t ∈ forestNodes ts) :
    t.nodes.Sublist (forestNodes ts) := by
  induction ts using forest_induction with
  | nil => rw [forestNodes] at h; cases h
  | cons a cs ts ihcs ihts =>
    rw [forestNodes] at h ⊢
    rcases List.mem_append.mp h with h | h
    · refine List.Sublist.trans ?_ (List.sublist_append_left _ _)
      rw [nodes] at h
      rcases List.mem_cons.mp h with rfl | h
      · exact List.Sublist.refl _
      · rw [nodes]
        exact (ihcs h).cons _
    · exact (ihts h).trans (List.sublist_append_right _ _)

theorem nodes_sublist_nodes {root t : Rose α} (h : t ∈ root.nodes) :
    t.nodes.Sublist root.nodes := by
  have hforest : forestNodes [root] = root.nodes := by simp [forestNodes]
  rw [← hforest] at h ⊢
  exact nodes_sublist_forestNodes h

theorem mem_nodes_self (t : Rose α) : t ∈ t.nodes := by
  rw [nodes_eq]
  exact List.mem_cons_self

theorem mem_nodes_of_mem_children {root t c : Rose α} (h : t ∈ root.nodes)
    (hc : c ∈ t.children) : c ∈ root.nodes := by
  refine (nodes_sublist_nodes h).subset ?_
  rw [nodes_eq]
  exact List.mem_cons_of_mem _ (mem_forestNodes hc)

theorem forestSize_eq_length (ts : List (Rose α)) : forestSize ts = (forestNodes ts).length := by
  induction ts using forest_induction with
  | nil => simp [forestNodes]
  | cons a cs ts ihcs ihts =>
    rw [forestSize_cons, size_node, forestNodes, nodes, List.length_append, List.length_cons,
      ihcs, ihts]

theorem size_le_of_mem_forestNodes {t : Rose α} {ts : List (Rose α)} (h : t ∈ forestNodes ts) :
    t.size ≤ forestSize ts := by
  have hlength := (nodes_sublist_forestNodes h).length_le
  rw [nodes_eq, List.length_cons, ← forestSize_eq_length, ← forestSize_eq_length] at hlength
  rwa [size_eq]

mutual
def map (f : α → β) : Rose α → Rose β
  | .node a cs => .node (f a) (mapForest f cs)

def mapForest (f : α → β) : List (Rose α) → List (Rose β)
  | [] => []
  | t :: ts => t.map f :: mapForest f ts
end

theorem mapForest_append (f : α → β) (us vs : List (Rose α)) :
    mapForest f (us ++ vs) = mapForest f us ++ mapForest f vs := by
  induction us with
  | nil => simp [mapForest]
  | cons u us ih => simp [mapForest, ih]

end Rose

end

/-! ### Shuffled forests -/

namespace Rose

variable {α : Type*}

/-- Two forests with the same trees, at every depth in whatever order. -/
inductive Shuffled : List (Rose α) → List (Rose α) → Prop
  | nil : Shuffled [] []
  | cons (a : α) {cs cs' ts us} : Shuffled cs cs' → Shuffled ts us →
    Shuffled (.node a cs :: ts) (.node a cs' :: us)
  | swap (t u : Rose α) (ts) : Shuffled (t :: u :: ts) (u :: t :: ts)
  | trans {ts us vs} : Shuffled ts us → Shuffled us vs → Shuffled ts vs

namespace Shuffled
variable {ts us : List (Rose α)}

theorem refl (ts : List (Rose α)) : Shuffled ts ts := by
  induction ts using forest_induction with
  | nil => exact .nil
  | cons a cs ts ihc iht => exact .cons a ihc iht

/-- The labels stay the same up to order. -/
theorem labels_perm (h : Shuffled ts us) :
    ((forestNodes ts).map label).Perm ((forestNodes us).map label) := by
  induction h with
  | nil => exact .refl _
  | cons a _ _ ihc iht =>
    simp only [forestNodes, nodes, List.cons_append, List.map_cons, List.map_append, label_node]
    exact (ihc.append iht).cons a
  | swap t u ts =>
    simp only [forestNodes, List.map_append]
    rw [← List.append_assoc, ← List.append_assoc]
    exact List.perm_append_comm.append_right _
  | trans _ _ ih ih' => exact ih.trans ih'

end Shuffled

end Rose

end BigCodeAnalysis.Trees
