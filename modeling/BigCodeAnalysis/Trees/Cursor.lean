import BigCodeAnalysis.Trees.Rose
import Mathlib.Data.List.Nodup

/-! Trees whose nodes carry the field their parent reaches them through, and cursors that
move in them. -/

namespace BigCodeAnalysis.Trees

/-- A node's own data, and the field its parent reaches it through. -/
structure Labelled (α : Type*) where
  data : α
  field : Option String

abbrev FieldTree (α : Type*) := Rose (Labelled α)

namespace FieldTree

variable {α : Type*} (node : FieldTree α)

def childCount : ℕ := node.children.length

def child (i : ℕ) : Option (FieldTree α) := node.children[i]?

def fieldNameForChild (i : ℕ) : Option String := (node.children[i]?).bind (·.label.field)

def childByFieldName (field : String) : Option (FieldTree α) :=
  node.children.find? fun child => child.label.field = some field

variable {node}

theorem mem_children_of_childByFieldName {field : String} {child : FieldTree α}
    (h : node.childByFieldName field = some child) : child ∈ node.children :=
  List.mem_of_find?_eq_some h

end FieldTree

/-- The nodes from the cursor's up to the root, each with its place among its siblings. -/
structure Cursor (α : Type*) where
  node : FieldTree α
  index : ℕ
  above : List (FieldTree α × ℕ)

namespace Cursor

variable {α : Type*} (cursor : Cursor α)

def new (root : FieldTree α) : Cursor α := ⟨root, 0, []⟩

def gotoFirstChild : Option (Cursor α) :=
  (cursor.node.child 0).map fun child => ⟨child, 0, (cursor.node, cursor.index) :: cursor.above⟩

def gotoNextSibling : Option (Cursor α) :=
  match cursor.above with
  | [] => none
  | (parent, _) :: _ =>
    (parent.child (cursor.index + 1)).map fun sibling => ⟨sibling, cursor.index + 1, cursor.above⟩

def gotoParent : Option (Cursor α) :=
  match cursor.above with
  | [] => none
  | (parent, index) :: above => some ⟨parent, index, above⟩

def fieldName : Option String :=
  match cursor.above with
  | [] => none
  | (parent, _) :: _ => parent.fieldNameForChild cursor.index

/-! ### Neighbours -/

def children : List (Cursor α) :=
  cursor.node.children.zipIdx.map fun (child, i) =>
    ⟨child, i, (cursor.node, cursor.index) :: cursor.above⟩

/-- The children of the parent, the cursor among them. -/
def siblings : List (Cursor α) :=
  match cursor.gotoParent with
  | none => []
  | some parent => parent.children

def siblingsAfter : List (Cursor α) := cursor.siblings.drop (cursor.index + 1)

/-- Nearest first. -/
def siblingsBefore : List (Cursor α) := (cursor.siblings.take cursor.index).reverse

def ancestorsOf : List (FieldTree α × ℕ) → List (Cursor α)
  | [] => []
  | (node, index) :: above => ⟨node, index, above⟩ :: ancestorsOf above

/-- Nearest first. -/
def ancestors : List (Cursor α) := ancestorsOf cursor.above

variable {cursor}

theorem gotoParent_of_mem_children {c : Cursor α} (h : c ∈ cursor.children) :
    c.gotoParent = some cursor := by
  obtain ⟨⟨child, i⟩, -, rfl⟩ := List.mem_map.mp h
  rfl

theorem ancestors_of_mem_children {c : Cursor α} (h : c ∈ cursor.children) :
    c.ancestors = cursor :: cursor.ancestors := by
  obtain ⟨⟨child, i⟩, -, rfl⟩ := List.mem_map.mp h
  rfl

theorem node_mem_of_mem_children {c : Cursor α} (h : c ∈ cursor.children) :
    c.node ∈ cursor.node.children := by
  obtain ⟨⟨child, i⟩, hmem, rfl⟩ := List.mem_map.mp h
  exact List.fst_mem_of_mem_zipIdx hmem

theorem map_node_children : cursor.children.map Cursor.node = cursor.node.children := by
  rw [children, List.map_map]
  exact List.zipIdx_map_fst 0 _

/-- No two children stand at one index. -/
theorem nodup_children : cursor.children.Nodup := by
  refine List.Nodup.of_map Cursor.index ?_
  have hindices : cursor.children.map Cursor.index = cursor.node.children.zipIdx.map Prod.snd := by
    rw [children, List.map_map]
    rfl
  rw [hindices, List.zipIdx_map_snd]
  exact List.nodup_range'

/-- A child stands at its index. -/
theorem index_eq_length {us after : List (Cursor α)} {c : Cursor α}
    (h : cursor.children = us ++ c :: after) : c.index = us.length := by
  have hget : cursor.children[us.length]? = some c := by simp [h]
  simp only [children, List.getElem?_map, Option.map_eq_some_iff, List.getElem?_zipIdx] at hget
  obtain ⟨⟨child, i⟩, ⟨node, -, hpair⟩, rfl⟩ := hget
  cases hpair
  exact Nat.zero_add _

theorem siblings_of_split {us after : List (Cursor α)} {c : Cursor α}
    (h : cursor.children = us ++ c :: after) :
    c.siblingsBefore = us.reverse ∧ c.siblingsAfter = after := by
  have hmem : c ∈ cursor.children := by simp [h]
  have hsiblings : c.siblings = us ++ c :: after := by
    rw [siblings, gotoParent_of_mem_children hmem]
    exact h
  rw [siblingsBefore, siblingsAfter, hsiblings, index_eq_length h]
  constructor
  · rw [List.take_left]
  · rw [← List.drop_drop, List.drop_left]
    rfl

end Cursor

end BigCodeAnalysis.Trees
