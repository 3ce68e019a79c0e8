import BigCodeAnalysis.Ast.Export
import BigCodeAnalysis.Trees.Fold
import BigCodeAnalysis.Trees.RootPath

/-! Both walks of the export are the recursion on the tree. A node's frame is followed from
the moment it is entered, over whatever lies below it on the stack: its children are finished
into it one after the other, and it is finished itself when none is left. -/

namespace BigCodeAnalysis.Ast

open Sequences Trees Rose

variable {α A : Type*}

/-! ### A frame on top of the stack -/

/-- `t` is on top of `below`, with these children exported and these nodes finished since it
was entered. -/
def Export.over (below : Export α A) (t : Node α) (field : Option String) (children : List A)
    (next : ℕ) (finished : List (Finished α A)) : Export α A :=
  ⟨⟨t, field, children, next⟩ :: below.stack, below.chain ++ [t], below.finished ++ finished⟩

namespace Export

variable (below : Export α A) (t : Node α) (field : Option String)

theorem enter_eq : below.enter t field = below.over t field [] 0 [] := by
  simp [enter, Export.over, Frame.new]

theorem new_eq (root : Node α) : (new root : Export α A) = Export.over ⟨[], [], []⟩ root none [] 0 [] := by
  simp [new, Export.over, Frame.new]

variable (get : GetAstNode α A) (children : List A) (next : ℕ) (finished : List (Finished α A))

/-- A finished node leaves its export in the frame below and the chain as it was there. -/
theorem finish_over (p : Node α) (pfield : Option String) (pchildren : List A) (pnext : ℕ)
    (pfinished : List (Finished α A)) :
    ((below.over p pfield pchildren pnext pfinished).over t field children next finished).finish
        get =
      some (.onward (below.over p pfield
        (pchildren ++ (get t field children (below.chain ++ [p])).toList) pnext
        (pfinished ++ (finished ++ [⟨t, field, children, below.chain ++ [p]⟩])))) := by
  simp [finish, Export.over]

theorem finish_root :
    (Export.over ⟨[], [], []⟩ t none children next finished).finish get =
      some (.leave (get t none children [], finished ++ [⟨t, none, children, []⟩])) := by
  simp [finish, Export.over]

end Export

theorem fieldNameForChild_of_drop {p t : Node α} {ts : List (Node α)} {i : ℕ}
    (h : p.children.drop i = t :: ts) :
    p.child i = some t ∧ p.fieldNameForChild i = t.label.field ∧ p.children.drop (i + 1) = ts := by
  have hget : p.children[i]? = some t := by rw [← List.head?_drop, h, List.head?_cons]
  refine ⟨hget, by rw [FieldTree.fieldNameForChild, hget]; rfl, ?_⟩
  rw [← List.tail_drop, h, List.tail_cons]

variable (get : GetAstNode α A)

/-! ### The cursor's walk -/

/-- From a node the cursor has just entered to the moment it is about to be finished. -/
def CursorReads (t : Node α) : Prop :=
  ∀ (below : Export α A) (field : Option String) (index : ℕ) (above : List (Node α × ℕ)),
    ∃ n < 3 * t.size, Loop.Steps (cursorTurn get) n
      ⟨.descend, ⟨t, index, above⟩, below.over t field [] 0 []⟩
      ⟨.finish, ⟨t, index, above⟩, below.over t field
        (exportForest get (below.chain ++ [t]) t.children) 0
        (forestFinishes get (below.chain ++ [t]) t.children)⟩

/-- From a child the cursor has just entered, over the siblings after it, back to the parent. -/
def CursorReadsAll (t : Node α) (ts : List (Node α)) : Prop :=
  ∀ (below : Export α A) (p : Node α) (field : Option String) (children : List A)
    (finished : List (Finished α A)) (i index : ℕ) (above : List (Node α × ℕ)),
    p.children.drop i = t :: ts →
    ∃ n ≤ 3 * forestSize (t :: ts), Loop.Steps (cursorTurn get) n
      ⟨.descend, ⟨t, i, (p, index) :: above⟩,
        (below.over p field children 0 finished).over t t.label.field [] 0 []⟩
      ⟨.finish, ⟨p, index, above⟩, below.over p field
        (children ++ exportForest get (below.chain ++ [p]) (t :: ts)) 0
        (finished ++ forestFinishes get (below.chain ++ [p]) (t :: ts))⟩

variable {get}

variable (get) in
theorem exportNode_eq (chain : List (Node α)) (field : Option String) (t : Node α) :
    exportNode get chain field t =
      get t field (exportForest get (chain ++ [t]) t.children) chain := by
  cases t
  rw [exportNode, children_node]

theorem finishes_eq (chain : List (Node α)) (field : Option String) (t : Node α) :
    finishes get chain field t = forestFinishes get (chain ++ [t]) t.children ++
      [⟨t, field, exportForest get (chain ++ [t]) t.children, chain⟩] := by
  cases t
  rw [finishes, children_node]

/-- A leaf is finished at once; else the cursor goes to the first child. -/
theorem cursorReads_node {label : Labelled α} {cs : List (Node α)}
    (h : ∀ c rest, cs = c :: rest → CursorReadsAll get c rest) :
    CursorReads get (.node label cs) := by
  intro below field index above
  let t : Node α := .node label cs
  cases cs with
  | nil =>
    have hturn : cursorTurn get ⟨.descend, ⟨t, index, above⟩, below.over t field [] 0 []⟩ =
        some (.onward ⟨.finish, ⟨t, index, above⟩, below.over t field [] 0 []⟩) := rfl
    exact ⟨1, by rw [size_node]; omega, .one hturn⟩
  | cons c rest =>
    have hturn : cursorTurn get ⟨.descend, ⟨t, index, above⟩, below.over t field [] 0 []⟩ =
        some (.onward ⟨.descend, ⟨c, 0, (t, index) :: above⟩,
          (below.over t field [] 0 []).over c c.label.field [] 0 []⟩) := by
      rw [← Export.enter_eq (below.over t field [] 0 []) c]
      rfl
    obtain ⟨n, hn, hsteps⟩ := h c rest rfl below t field [] [] 0 index above rfl
    refine ⟨n + 1, by rw [size_node]; omega, (Loop.Steps.one hturn).trans hsteps⟩

/-- A child is finished into its parent, and the cursor goes to the next one or climbs. -/
theorem cursorReadsAll_cons {t : Node α} {ts : List (Node α)} (ht : CursorReads get t)
    (hts : ∀ c rest, ts = c :: rest → CursorReadsAll get c rest) : CursorReadsAll get t ts := by
  intro below p field children finished i index above hdrop
  obtain ⟨-, -, hrest⟩ := fieldNameForChild_of_drop hdrop
  obtain ⟨m, hm, hsteps⟩ := ht (below.over p field children 0 finished) t.label.field i
    ((p, index) :: above)
  have hchain : (below.over p field children 0 finished).chain = below.chain ++ [p] := rfl
  rw [hchain] at hsteps
  have hfinish := Export.finish_over below t t.label.field get
    (exportForest get (below.chain ++ [p] ++ [t]) t.children) 0
    (forestFinishes get (below.chain ++ [p] ++ [t]) t.children) p field children 0 finished
  rw [← exportNode_eq get, ← finishes_eq] at hfinish
  rw [exportForest, forestFinishes, ← List.append_assoc, ← List.append_assoc, forestSize_cons]
  cases ts with
  | nil =>
    have hnone : p.child (i + 1) = none := by
      rw [FieldTree.child, ← List.head?_drop, hrest, List.head?_nil]
    have hturn : cursorTurn get ⟨.finish, ⟨t, i, (p, index) :: above⟩,
        (below.over p field children 0 finished).over t t.label.field
          (exportForest get (below.chain ++ [p] ++ [t]) t.children) 0
          (forestFinishes get (below.chain ++ [p] ++ [t]) t.children)⟩ =
        some (.onward ⟨.finish, ⟨p, index, above⟩, below.over p field
          (children ++ (exportNode get (below.chain ++ [p]) t.label.field t).toList) 0
          (finished ++ finishes get (below.chain ++ [p]) t.label.field t)⟩) := by
      simp only [cursorTurn, hfinish, Cursor.gotoNextSibling, hnone, Cursor.gotoParent,
        Option.map_none, Option.map_some]
    rw [exportForest, forestFinishes, List.append_nil, List.append_nil]
    exact ⟨m + 1, by omega, hsteps.snoc hturn⟩
  | cons c rest =>
    obtain ⟨hchild, hfield, -⟩ := fieldNameForChild_of_drop hrest
    have hturn : cursorTurn get ⟨.finish, ⟨t, i, (p, index) :: above⟩,
        (below.over p field children 0 finished).over t t.label.field
          (exportForest get (below.chain ++ [p] ++ [t]) t.children) 0
          (forestFinishes get (below.chain ++ [p] ++ [t]) t.children)⟩ =
        some (.onward ⟨.descend, ⟨c, i + 1, (p, index) :: above⟩, (below.over p field
          (children ++ (exportNode get (below.chain ++ [p]) t.label.field t).toList) 0
          (finished ++ finishes get (below.chain ++ [p]) t.label.field t)).over c c.label.field
            [] 0 []⟩) := by
      simp only [cursorTurn, hfinish, Cursor.gotoNextSibling, hchild, Cursor.fieldName, hfield,
        Option.map_some, Export.enter_eq]
    obtain ⟨n, hn, hsteps'⟩ := hts c rest rfl below p field
      (children ++ (exportNode get (below.chain ++ [p]) t.label.field t).toList)
      (finished ++ finishes get (below.chain ++ [p]) t.label.field t) (i + 1) index above hrest
    exact ⟨n + (m + 1), by omega, (hsteps.snoc hturn).trans hsteps'⟩

theorem cursorReads_tree_forest :
    (∀ t : Node α, CursorReads get t) ∧
      ∀ ts : List (Node α), ∀ c rest, ts = c :: rest → CursorReadsAll get c rest := by
  refine tree_forest_induction (fun label cs ih => cursorReads_node ih)
    (fun c rest h => by cases h) (fun t ts iht ihts c rest h => ?_)
  injection h with ht hts
  subst ht hts
  exact cursorReadsAll_cons iht ihts

theorem buildCursor_eq (root : Node α) :
    buildCursor get root = some (exportNode get [] none root, finishes get [] none root) := by
  obtain ⟨n, hn, hsteps⟩ := cursorReads_tree_forest.1 root ⟨[], [], []⟩ none 0 []
  rw [buildCursor, Export.new_eq]
  apply hsteps.run_eq
  · rw [exportNode_eq, finishes_eq]
    simp [cursorTurn, Export.finish_root]
  · omega

/-! ### The walk by index -/

section Indexed
variable (get)

/-- No node has more children than 32 bits count. -/
def Narrow (ts : List (Node α)) : Prop :=
  ∀ t : Node α, t ∈ forestNodes ts → t.childCount ≤ 2 ^ 32

/-- From a node just entered to the moment no child of it is left. -/
def IndexedReads (t : Node α) : Prop :=
  ∀ (below : Export α A) (field : Option String),
    ∃ n, n + 2 ≤ 2 * t.size ∧ Loop.Steps (indexedTurn get) n (below.over t field [] 0 [])
      (below.over t field (exportForest get (below.chain ++ [t]) t.children) t.childCount
        (forestFinishes get (below.chain ++ [t]) t.children))

/-- From a frame these children are left to, to the moment none is left. -/
def IndexedReadsAll (ts : List (Node α)) : Prop :=
  ∀ (below : Export α A) (p : Node α) (field : Option String) (children : List A) (i : ℕ)
    (finished : List (Finished α A)), p.childCount ≤ 2 ^ 32 → p.children.drop i = ts →
    i ≤ p.childCount →
    ∃ n ≤ 2 * forestSize ts, Loop.Steps (indexedTurn get) n
      (below.over p field children i finished)
      (below.over p field (children ++ exportForest get (below.chain ++ [p]) ts) p.childCount
        (finished ++ forestFinishes get (below.chain ++ [p]) ts))

variable {get}

variable (get) in
theorem indexedTurn_full (below : Export α A) (t : Node α) (field : Option String)
    (children : List A) (finished : List (Finished α A)) :
    indexedTurn get (below.over t field children t.childCount finished) =
      (below.over t field children t.childCount finished).finish get := by
  simp [indexedTurn, Export.over]

variable (get) in
theorem indexedTurn_enter (below : Export α A) {p t : Node α} {ts : List (Node α)} {i : ℕ}
    (hnarrow : p.childCount ≤ 2 ^ 32) (hdrop : p.children.drop i = t :: ts)
    (field : Option String) (children : List A) (finished : List (Finished α A)) :
    indexedTurn get (below.over p field children i finished) =
      some (.onward ((below.over p field children (i + 1) finished).over t t.label.field
        [] 0 [])) := by
  obtain ⟨hchild, hfield, -⟩ := fieldNameForChild_of_drop hdrop
  have hi : i < p.childCount := by
    rw [FieldTree.child] at hchild
    exact (List.getElem?_eq_some_iff.mp hchild).1
  rw [← Export.enter_eq]
  simp [indexedTurn, Export.over, hi, hchild, hfield, show i < 4294967296 by omega]

theorem indexedReads_node {label : Labelled α} {cs : List (Node α)}
    (hnarrow : FieldTree.childCount (.node label cs) ≤ 2 ^ 32) (h : IndexedReadsAll get cs) :
    IndexedReads get (.node label cs) := by
  intro below field
  obtain ⟨n, hn, hsteps⟩ := h below (.node label cs) field [] 0 [] hnarrow rfl (Nat.zero_le _)
  exact ⟨n, by rw [size_node]; omega, hsteps⟩

theorem indexedReadsAll_cons {t : Node α} {ts : List (Node α)} (ht : IndexedReads get t)
    (hts : IndexedReadsAll get ts) : IndexedReadsAll get (t :: ts) := by
  intro below p field children i finished hnarrow hdrop hi
  obtain ⟨hchild, -, hrest⟩ := fieldNameForChild_of_drop hdrop
  obtain ⟨m, hm, hsteps⟩ := ht (below.over p field children (i + 1) finished) t.label.field
  have hchain : (below.over p field children (i + 1) finished).chain = below.chain ++ [p] := rfl
  rw [hchain] at hsteps
  have hturn := indexedTurn_full get (below.over p field children (i + 1) finished) t
    t.label.field (exportForest get (below.chain ++ [p] ++ [t]) t.children)
    (forestFinishes get (below.chain ++ [p] ++ [t]) t.children)
  rw [Export.finish_over, ← exportNode_eq get, ← finishes_eq] at hturn
  have hlt : i < p.childCount := by
    rw [FieldTree.child] at hchild
    exact (List.getElem?_eq_some_iff.mp hchild).1
  obtain ⟨n, hn, hsteps'⟩ := hts below p field
    (children ++ (exportNode get (below.chain ++ [p]) t.label.field t).toList) (i + 1)
    (finished ++ finishes get (below.chain ++ [p]) t.label.field t) hnarrow hrest hlt
  rw [exportForest, forestFinishes, ← List.append_assoc, ← List.append_assoc, forestSize_cons]
  have henter := indexedTurn_enter get below hnarrow hdrop field children
    finished
  exact ⟨n + (m + 1 + 1), by omega,
    (((Loop.Steps.one henter).trans hsteps).snoc hturn).trans hsteps'⟩

theorem indexedReads_tree_forest :
    (∀ t : Node α, Narrow [t] → IndexedReads get t) ∧
      ∀ ts : List (Node α), Narrow ts → IndexedReadsAll get ts := by
  refine tree_forest_induction ?node ?nil ?cons
  case node =>
    intro label cs ih hnarrow
    apply indexedReads_node
    · exact hnarrow _ (mem_forestNodes List.mem_cons_self)
    · refine ih fun t ht => hnarrow t ?_
      rw [forestNodes, nodes, List.cons_append]
      exact List.mem_cons_of_mem _ (List.mem_append_left _ ht)
  case nil =>
    intro _ below p field children i finished _ hdrop hi
    have hlength : p.childCount ≤ i := by simpa [FieldTree.childCount] using hdrop
    obtain rfl : i = p.childCount := by omega
    refine ⟨0, Nat.zero_le _, ?_⟩
    rw [exportForest, forestFinishes, List.append_nil, List.append_nil]
    exact .zero _
  case cons =>
    intro t ts iht ihts hnarrow
    refine indexedReadsAll_cons (iht fun u hu => hnarrow u ?_) (ihts fun u hu => hnarrow u ?_)
    · exact (forestNodes_sublist (List.singleton_sublist.mpr List.mem_cons_self)).subset hu
    · exact (forestNodes_sublist (List.sublist_cons_self t ts)).subset hu

theorem buildIndexed_eq (tree : ParsedTree α) :
    buildIndexed get tree.root =
      some (exportNode get [] none tree.root, finishes get [] none tree.root) := by
  have hnarrow : Narrow [tree.root] := by
    intro t ht
    apply tree.narrow
    simpa [forestNodes] using ht
  obtain ⟨n, hn, hsteps⟩ := indexedReads_tree_forest.1 tree.root hnarrow ⟨[], [], []⟩ none
  rw [buildIndexed, Export.new_eq]
  apply hsteps.run_eq
  · rw [indexedTurn_full, Export.finish_root, exportNode_eq, finishes_eq]
  · omega

end Indexed

/-! ### What the recursion asks -/

theorem finishes_nodes :
    (∀ (t : Node α) (chain : List (Node α)) (field : Option String),
      (finishes get chain field t).map Finished.node = t.postorder) ∧
    ∀ (ts : List (Node α)) (chain : List (Node α)),
      (forestFinishes get chain ts).map Finished.node = forestPostorder ts := by
  refine tree_forest_induction (fun label cs ih chain field => ?_) (fun chain => ?_)
    (fun t ts iht ihts chain => ?_)
  · rw [finishes, postorder, List.map_append, ih]
    rfl
  · rw [forestFinishes, forestPostorder, List.map_nil]
  · rw [forestFinishes, forestPostorder, List.map_append, iht, ihts]

/-- The alterator is asked with the ancestors of the node, the field its parent reaches it
through, and the exports of its children. -/
structure Finished.Right (get : GetAstNode α A) (root : Node α) (asked : Finished α A) : Prop where
  path : IsPath root (asked.chain ++ [asked.node])
  field : asked.field = if asked.chain.isEmpty then none else asked.node.label.field
  children : asked.children =
    exportForest get (asked.chain ++ [asked.node]) asked.node.children

theorem finishes_right {root : Node α} :
    (∀ (t : Node α) (chain : List (Node α)), IsPath root (chain ++ [t]) →
      ∀ asked ∈ finishes get chain (if chain.isEmpty then none else t.label.field) t,
        asked.Right get root) ∧
    ∀ (ts : List (Node α)) (p : Node α) (chain : List (Node α)), IsPath root (chain ++ [p]) →
      (∀ t : Node α, t ∈ ts → t ∈ p.children) →
      ∀ asked ∈ forestFinishes get (chain ++ [p]) ts, asked.Right get root := by
  refine tree_forest_induction ?node ?nil ?cons
  case node =>
    intro label cs ih chain hpath asked hasked
    rw [finishes] at hasked
    rcases List.mem_append.mp hasked with hasked | hasked
    · exact ih _ chain hpath (fun _ ht => ht) asked hasked
    · obtain rfl := List.mem_singleton.mp hasked
      exact ⟨hpath, rfl, rfl⟩
  case nil =>
    intro p chain _ _ asked hasked
    rw [forestFinishes] at hasked
    exact absurd hasked List.not_mem_nil
  case cons =>
    intro t ts iht ihts p chain hpath hsub asked hasked
    rw [forestFinishes] at hasked
    rcases List.mem_append.mp hasked with hasked | hasked
    · refine iht (chain ++ [p]) (hpath.snoc (hsub t List.mem_cons_self)) asked ?_
      simpa using hasked
    · exact ihts p chain hpath (fun u hu => hsub u (List.mem_cons_of_mem _ hu)) asked hasked

/-- Both walks end with the tree of the recursion. Both ask the alterator about each node
once, after its children, with what belongs to it. -/
theorem builds_agree (get : GetAstNode α A) (tree : ParsedTree α) :
    ∃ log, buildCursor get tree.root = some (exportNode get [] none tree.root, log) ∧
      buildIndexed get tree.root = some (exportNode get [] none tree.root, log) ∧
      log.map Finished.node = tree.root.postorder ∧
      ∀ asked ∈ log, asked.Right get tree.root :=
  ⟨finishes get [] none tree.root, buildCursor_eq tree.root, buildIndexed_eq tree,
    finishes_nodes.1 tree.root [] none,
    finishes_right.1 tree.root [] ⟨rfl, List.isChain_singleton tree.root⟩⟩

/-- An export that drops `x` and writes every other node out before its children. -/
theorem builds_agree_call :
    let get : GetAstNode String (List String) := fun node field children _ =>
      if node.label.data = "x" then none
      else some (node.label.data :: (field.toList ++ children.flatten))
    ∃ log, buildCursor get callTree.root = some (some ["call", "f", "function"], log) ∧
      buildIndexed get callTree.root = some (some ["call", "f", "function"], log) ∧
      log.map Finished.node = callTree.root.postorder := by
  intro get
  obtain ⟨log, hcursor, hindexed, hnodes, -⟩ := builds_agree get callTree
  exact ⟨log, hcursor, hindexed, hnodes⟩

end BigCodeAnalysis.Ast
