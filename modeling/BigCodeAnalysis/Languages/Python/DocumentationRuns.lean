import BigCodeAnalysis.Languages.Python.Documentation
import BigCodeAnalysis.Sequences.Runs

/-! The run helper against the question it shares its scan with. The climb from a string to its
statement passes any parenthesis; the way down from a statement stops where a `\` stands before
the expression a parenthesis holds. A string behind one is documentation to the question, and
no string statement to the helper. -/

namespace BigCodeAnalysis.Languages.Python

open Sequences Trees
open Sequences.Runs (placed members accepted inContext)

/-! ### The search through a target -/

def isTargetLeaf (node : Node) : Bool :=
  node.kind = .identifier || node.kind = .subscript || node.kind = .attribute

mutual
/-- Whether some leaf of a target answers. -/
def bindsSome (leaf : Node → Bool) : Node → Bool
  | .node a cs => if isTargetLeaf (.node a cs) then leaf (.node a cs) else bindsAny leaf cs

def bindsAny (leaf : Node → Bool) : List Node → Bool
  | [] => false
  | t :: ts => (Node.isNamed t && bindsSome leaf t) || bindsAny leaf ts
end

theorem bindsAny_eq (leaf : Node → Bool) (ts : List Node) :
    bindsAny leaf ts = (ts.filter Node.isNamed).any (bindsSome leaf) := by
  induction ts with
  | nil => rfl
  | cons t ts ih =>
    rw [bindsAny, ih]
    by_cases ht : Node.isNamed t = true
    · simp [ht]
    · simp [ht]

theorem run_bindsTurn (leaf : Node → Bool) (fuel : ℕ) (pending : List Node)
    (h : Rose.forestSize pending < fuel) :
    Loop.run (bindsTurn leaf) fuel pending = some (pending.any (bindsSome leaf)) := by
  induction fuel generalizing pending with
  | zero => exact absurd h (Nat.not_lt_zero _)
  | succ fuel ih =>
    match pending with
    | [] => rfl
    | .node a cs :: rest =>
      rw [Rose.forestSize_cons, Rose.size_node] at h
      rw [Loop.run, List.any_cons, bindsSome]
      by_cases hleaf : isTargetLeaf (.node a cs) = true
      · have hkind := hleaf
        rw [isTargetLeaf] at hkind
        cases hanswer : leaf (.node a cs)
        · simp [bindsTurn, hkind, hleaf, hanswer, ih rest (by omega)]
        · simp [bindsTurn, hkind, hleaf, hanswer]
      · have hkind := hleaf
        rw [isTargetLeaf] at hkind
        have hsize : Rose.forestSize ((cs.filter Node.isNamed).reverse ++ rest) < fuel := by
          rw [Rose.forestSize_append, Rose.forestSize_reverse]
          have hle := Rose.forestSize_le_of_sublist (cs.filter_sublist (p := Node.isNamed))
          omega
        simp [bindsTurn, hkind, hleaf, ih _ hsize, bindsAny_eq, List.any_append, List.any_reverse]

/-- The size of the target is fuel enough: the search answers as the recursion does. -/
theorem binds_eq (target : Node) (leaf : Node → Bool) :
    binds target leaf = bindsSome leaf target := by
  have hsize : Rose.forestSize [target] < target.size + 1 := by simp [Rose.forestSize_cons]
  have hany : [target].any (bindsSome leaf) = bindsSome leaf target := by simp
  rw [binds, run_bindsTurn leaf _ _ hsize, hany]
  cases bindsSome leaf target <;> rfl

/-! ### Up from a string -/

/-- Between a string and the place it was found in there are parentheses only. -/
theorem ancestors_of_mem_stringsWithin {n : ℕ} {place v : Place} (h : v ∈ stringsWithin n place) :
    isStringKind v.node = true ∧ ∃ parens : List Place,
      v.ancestors = parens ++ place.ancestors ∧ parens.length ≤ n ∧
        ∀ paren : Place, paren ∈ parens → Node.kind paren.node = .parenthesizedExpression := by
  induction n generalizing place with
  | zero =>
    rw [stringsWithin] at h
    split at h
    · next hkind =>
      obtain rfl := List.mem_singleton.mp h
      exact ⟨hkind, [], rfl, Nat.zero_le _, fun _ h => absurd h List.not_mem_nil⟩
    · split at h <;> cases h
  | succ n ih =>
    rw [stringsWithin] at h
    split at h
    · next hkind =>
      obtain rfl := List.mem_singleton.mp h
      exact ⟨hkind, [], rfl, Nat.zero_le _, fun _ h => absurd h List.not_mem_nil⟩
    · split at h
      · next hparen =>
        obtain ⟨c, hc, hv⟩ := List.mem_flatMap.mp h
        obtain ⟨hkind, parens, hancestors, hlength, hparens⟩ := ih hv
        refine ⟨hkind, parens ++ [place], ?_, ?_, ?_⟩
        · rw [hancestors, Cursor.ancestors_of_mem_children hc, List.append_assoc,
            List.singleton_append]
        · simp only [List.length_append, List.length_cons, List.length_nil]
          omega
        · intro paren hmem
          rcases List.mem_append.mp hmem with hmem | hmem
          · exact hparens paren hmem
          · rw [List.mem_singleton.mp hmem]
            simpa using hparen
      · cases h

theorem kind_of_isBareStatement {statement : Node} (h : isBareStatement statement = true) :
    statement.kind = .expressionStatement := by
  simp only [isBareStatement, Bool.and_eq_true, decide_eq_true_eq] at h
  exact h.1

theorem enclosingStatement_of_mem {statement v : Place} (h : v ∈ bareStrings statement) :
    isBareStatement statement.node = true ∧ enclosingStatement v = some statement := by
  unfold bareStrings at h
  split at h
  · next hbare =>
    refine ⟨hbare, ?_⟩
    obtain ⟨c, hc, hv⟩ := List.mem_flatMap.mp h
    obtain ⟨-, parens, hancestors, hlength, hparens⟩ := ancestors_of_mem_stringsWithin hv
    have hstatement := kind_of_isBareStatement hbare
    have hnone : parens.find? (fun ancestor : Place =>
        !(Node.kind ancestor.node = .parenthesizedExpression)) = none :=
      List.find?_eq_none.mpr fun paren hparen => by simp [hparens paren hparen]
    obtain ⟨k, hk⟩ : ∃ k, maxParentheses + 1 - parens.length = k + 1 :=
      ⟨maxParentheses - parens.length, by omega⟩
    rw [enclosingStatement, hancestors, Cursor.ancestors_of_mem_children hc, List.take_append,
      List.take_of_length_le (by omega), List.find?_append, hnone, hk, List.take_succ_cons,
      List.find?_cons_of_pos (by simp [hstatement])]
    rfl
  · cases h

/-! ### Down from a statement -/

def continuedWithin : ℕ → Node → Bool
  | 0, _ => false
  | n + 1, value =>
    match unparenthesizedOnce value with
    | none => false
    | some inner => inner.kind = .lineContinuation || continuedWithin n inner

/-- A parenthesis around the statement's value holds a `\` before what it holds else. -/
def continued (statement : Node) : Bool :=
  (statement.child 0).any (continuedWithin maxParentheses)

/-- Every parenthesis below a node holds one expression. -/
def Parenthesized (root : Node) : Prop :=
  ∀ node : Node, node ∈ root.nodes → node.kind = .parenthesizedExpression →
    ∃ e, (node.children.filter fun child : Node => child.isNamed && !isExtra child) = [e]

theorem Parenthesized.child {root c : Node} (h : Parenthesized root) (hc : c ∈ root.children) :
    Parenthesized c := by
  intro node hnode
  apply h node
  rw [Rose.nodes_eq]
  exact List.mem_cons_of_mem _ ((Rose.nodes_sublist_of_mem hc).subset hnode)

theorem flatMap_filter {ι β : Type*} {g : ι → List β} {p : ι → Bool} (l : List ι)
    (h : ∀ x ∈ l, p x = false → g x = []) : l.flatMap g = (l.filter p).flatMap g := by
  induction l with
  | nil => rfl
  | cons x l ih =>
    have hl := ih fun y hy => h y (List.mem_cons_of_mem _ hy)
    by_cases hx : p x = true
    · simp [hx, hl]
    · simp [h x List.mem_cons_self (Bool.eq_false_iff.mpr hx), hx, hl]

theorem stringsWithin_of_not_expression {n : ℕ} {place : Place}
    (h : (Node.isNamed place.node && !isExtra place.node) = false) :
    stringsWithin n place = [] := by
  have hkind : isStringKind place.node = false ∧
      ¬ Node.kind place.node = .parenthesizedExpression := by
    simp only [Node.isNamed, isExtra, isStringKind] at h ⊢
    generalize Node.kind place.node = kind at h ⊢
    cases kind <;> simp_all [Kind.isNamed]
  rw [stringsWithin.eq_def]
  simp [hkind]

theorem unparenthesized_of_kind_ne {n : ℕ} {value : Node}
    (h : value.kind ≠ .parenthesizedExpression) : unparenthesized n value = value := by
  cases n with
  | zero => rfl
  | succ n => simp [unparenthesized, unparenthesizedOnce, h]

/-- The first thing a parenthesis holds is a `\`, or its expression. -/
theorem unparenthesizedOnce_eq {value e : Node}
    (hkind : value.kind = .parenthesizedExpression)
    (he : (value.children.filter fun child : Node => child.isNamed && !isExtra child) = [e]) :
    ∃ inner, unparenthesizedOnce value = some inner ∧
      (inner.kind = .lineContinuation ∨ inner = e) := by
  have hmem : e ∈ value.children.filter fun child : Node => child.isNamed && !isExtra child := by
    rw [he]
    exact List.mem_singleton_self e
  obtain ⟨hchild, hexpression⟩ := List.mem_filter.mp hmem
  have hfound : ∃ inner, unparenthesizedOnce value = some inner := by
    rw [unparenthesizedOnce, if_pos hkind, ← Option.isSome_iff_exists, List.find?_isSome]
    refine ⟨e, hchild, ?_⟩
    simp only [isExtra, Bool.and_eq_true] at hexpression ⊢
    exact ⟨hexpression.1, by simp_all⟩
  obtain ⟨inner, hinner⟩ := hfound
  refine ⟨inner, hinner, ?_⟩
  rw [unparenthesizedOnce, if_pos hkind] at hinner
  have hin := List.mem_of_find?_eq_some hinner
  have hholds := List.find?_some hinner
  by_cases hcontinuation : inner.kind = .lineContinuation
  · exact Or.inl hcontinuation
  · right
    have hfilter : inner ∈ value.children.filter fun child : Node =>
        child.isNamed && !isExtra child := by
      refine List.mem_filter.mpr ⟨hin, ?_⟩
      simp only [isExtra, Bool.and_eq_true] at hholds ⊢
      exact ⟨hholds.1, by simp_all⟩
    rw [he] at hfilter
    exact List.mem_singleton.mp hfilter

/-- A parenthesis is looked into where its expression stands. -/
theorem exists_expressionPlace {place : Place} {e : Node} (n : ℕ)
    (hstring : isStringKind place.node = false)
    (hkind : Node.kind place.node = .parenthesizedExpression)
    (he : (place.node.children.filter fun child : Node => child.isNamed && !isExtra child) = [e]) :
    ∃ pe : Place, (pe ∈ place.children ∧ pe.node = e) ∧
      (Node.isNamed e && !isExtra e) = true ∧
      stringsWithin (n + 1) place = stringsWithin n pe := by
  have hfilter : (place.children.filter fun c : Place =>
      Node.isNamed c.node && !isExtra c.node).map Cursor.node = [e] := by
    rw [← he, ← Cursor.map_node_children, List.filter_map]
    rfl
  obtain ⟨pe, hpe, hnode⟩ := List.map_eq_singleton_iff.mp hfilter
  have hmem : pe ∈ place.children.filter fun c : Place =>
      Node.isNamed c.node && !isExtra c.node := by
    rw [hpe]
    exact List.mem_singleton_self pe
  obtain ⟨hchild, hexpression⟩ := List.mem_filter.mp hmem
  refine ⟨pe, ⟨hchild, hnode⟩, hnode ▸ hexpression, ?_⟩
  rw [stringsWithin]
  simp only [hstring, hkind, Bool.false_eq_true, if_false, if_true]
  rw [flatMap_filter place.children fun c _ hc => stringsWithin_of_not_expression hc, hpe]
  simp

/-- The strings found from a place on down: none, or one that the way down finds too unless it
meets a `\`. -/
theorem stringsWithin_cases {n : ℕ} {place : Place} (hwf : Parenthesized place.node) :
    (stringsWithin n place = [] ∧ isStringKind (unparenthesized n place.node) = false) ∨
      ∃ v, stringsWithin n place = [v] ∧
        if continuedWithin n place.node then
          isStringKind (unparenthesized n place.node) = false
        else unparenthesized n place.node = v.node := by
  induction n generalizing place with
  | zero =>
    by_cases hstring : isStringKind place.node = true
    · exact Or.inr ⟨place, by simp [stringsWithin, hstring], by simp [continuedWithin, unparenthesized]⟩
    · rw [Bool.not_eq_true] at hstring
      exact Or.inl ⟨by simp [stringsWithin, hstring], hstring⟩
  | succ n ih =>
    by_cases hstring : isStringKind place.node = true
    · have hne : Node.kind place.node ≠ .parenthesizedExpression := by
        intro hkind
        simp [isStringKind, hkind] at hstring
      refine Or.inr ⟨place, by simp [stringsWithin, hstring], ?_⟩
      simp [continuedWithin, unparenthesized, unparenthesizedOnce, hne]
    · rw [Bool.not_eq_true] at hstring
      by_cases hkind : Node.kind place.node = .parenthesizedExpression
      · obtain ⟨e, he⟩ := hwf place.node (by rw [Rose.nodes_eq]; exact List.mem_cons_self) hkind
        obtain ⟨inner, hinner, hcases⟩ := unparenthesizedOnce_eq hkind he
        obtain ⟨pe, hpe, hexpression, hstrings⟩ := exists_expressionPlace n hstring hkind he
        have hdown : unparenthesized (n + 1) place.node = unparenthesized n inner := by
          rw [unparenthesized, hinner]
        have hcontinued : continuedWithin (n + 1) place.node =
            (decide (inner.kind = .lineContinuation) || continuedWithin n inner) := by
          rw [continuedWithin, hinner]
        rw [hstrings, hdown, hcontinued]
        rcases hcases with hline | rfl
        · have hinside : isStringKind (unparenthesized n inner) = false := by
            rw [unparenthesized_of_kind_ne (by simp [hline])]
            simp [isStringKind, hline]
          rcases ih (hwf.child (Cursor.node_mem_of_mem_children hpe.1)) with ⟨hnil, -⟩ | ⟨v, hv, -⟩
          · exact Or.inl ⟨hnil, hinside⟩
          · exact Or.inr ⟨v, hv, by simpa [hline] using hinside⟩
        · have hne : ¬ Node.kind inner = .lineContinuation := by
            intro hline
            simp [isExtra, hline] at hexpression
          have hinner := ih (hwf.child (Cursor.node_mem_of_mem_children hpe.1))
          rw [hpe.2] at hinner
          simpa [hne] using hinner
      · refine Or.inl ⟨by simp [stringsWithin, hstring, hkind], ?_⟩
        rwa [unparenthesized_of_kind_ne hkind]

/-! ### Statements -/

/-- A `\` among the statements. It is named, as they are. -/
def isContinuation (place : Place) : Bool := Node.kind place.node = .lineContinuation

/-- A bare statement whose string is a `str`, however its parentheses are laid out. -/
def isStrStatement (statement : Place) : Bool :=
  (bareStrings statement).any fun value : Place => isStrLiteral value.node

theorem bareStrings_cases {statement : Place} (hwf : Parenthesized statement.node) :
    (bareStrings statement = [] ∧ isStringStatement statement.node = false) ∨
      ∃ v, bareStrings statement = [v] ∧ isStringStatement statement.node =
        (isStrLiteral v.node && !continued statement.node) := by
  by_cases hbare : isBareStatement statement.node = true
  · have hcount : statement.node.children.length = 1 := by
      simp only [isBareStatement, Bool.and_eq_true, decide_eq_true_eq] at hbare
      exact hbare.2
    obtain ⟨c, hc⟩ := List.length_eq_one_iff.mp hcount
    obtain ⟨place, hplace, hnode⟩ : ∃ place, statement.children = [place] ∧ place.node = c := by
      have hmap : statement.children.map Cursor.node = statement.node.children :=
        Cursor.map_node_children
      rw [hc] at hmap
      exact List.map_eq_singleton_iff.mp hmap
    have hchild : statement.node.child 0 = some place.node := by
      rw [FieldTree.child, hc, hnode]
      rfl
    have hbelow : Parenthesized place.node := hwf.child (by rw [hc, hnode]; exact List.mem_singleton_self c)
    have hstrings : bareStrings statement = stringsWithin maxParentheses place := by
      simp [bareStrings, hbare, hplace]
    have hstring : isStringStatement statement.node =
        (isStringKind (unparenthesized maxParentheses place.node) &&
          isStrLiteral (unparenthesized maxParentheses place.node)) := by
      simp only [isStringStatement, statementString, hbare, if_true, hchild, Option.map_some,
        Option.filter_some]
      cases isStringKind (unparenthesized maxParentheses place.node) <;> simp
    have hcontinued : continued statement.node = continuedWithin maxParentheses place.node := by
      rw [continued, hchild]
      rfl
    rw [hstrings, hstring, hcontinued]
    rcases stringsWithin_cases (n := maxParentheses) hbelow with ⟨hnil, hkind⟩ | ⟨v, hv, hdown⟩
    · exact Or.inl ⟨hnil, by rw [hkind, Bool.false_and]⟩
    · refine Or.inr ⟨v, hv, ?_⟩
      have hkind : isStringKind v.node = true :=
        (ancestors_of_mem_stringsWithin (hv ▸ List.mem_singleton_self v)).1
      split at hdown
      · next hline => rw [hdown, hline, Bool.false_and, Bool.not_true, Bool.and_false]
      · next hline =>
        rw [Bool.not_eq_true] at hline
        rw [hdown, hkind, hline, Bool.true_and, Bool.not_false, Bool.and_true]
  · rw [Bool.not_eq_true] at hbare
    exact Or.inl ⟨by simp [bareStrings, hbare], by simp [isStringStatement, statementString, hbare]⟩

/-- What the way down sees are the `str` statements that are not continued. -/
theorem isStringStatement_eq {statement : Place} (hwf : Parenthesized statement.node) :
    isStringStatement statement.node =
      (isStrStatement statement && !continued statement.node) := by
  rcases bareStrings_cases hwf with ⟨hnil, hstring⟩ | ⟨v, hv, hstring⟩
  · simp [isStrStatement, hnil, hstring]
  · simp [isStrStatement, hv, hstring]

/-- What the way down finds is one of the strings. -/
theorem mem_stringsWithin_of_unparenthesized {n : ℕ} {place : Place}
    (h : isStringKind (unparenthesized n place.node) = true) :
    ∃ v ∈ stringsWithin n place, v.node = unparenthesized n place.node := by
  induction n generalizing place with
  | zero =>
    rw [unparenthesized] at h ⊢
    exact ⟨place, by simp [stringsWithin, h], rfl⟩
  | succ n ih =>
    by_cases hkind : Node.kind place.node = .parenthesizedExpression
    · cases hinner : unparenthesizedOnce place.node with
      | none =>
        rw [unparenthesized, hinner] at h
        simp [isStringKind, hkind] at h
      | some inner =>
        rw [unparenthesized, hinner] at h ⊢
        have hfound := hinner
        rw [unparenthesizedOnce, if_pos hkind] at hfound
        have hchild := List.mem_of_find?_eq_some hfound
        rw [← Cursor.map_node_children] at hchild
        obtain ⟨c, hc, rfl⟩ := List.mem_map.mp hchild
        obtain ⟨v, hv, hnode⟩ := ih h
        refine ⟨v, ?_, hnode⟩
        rw [stringsWithin]
        simp only [isStringKind, hkind, if_true]
        exact List.mem_flatMap.mpr ⟨c, hc, hv⟩
    · rw [unparenthesized_of_kind_ne hkind] at h ⊢
      exact ⟨place, by simp [stringsWithin, h], rfl⟩

theorem isStrStatement_of_isStringStatement {statement : Place}
    (h : isStringStatement statement.node = true) : isStrStatement statement = true := by
  obtain ⟨value, hvalue, hliteral⟩ := (Option.any_eq_true ..).mp h
  rw [statementString] at hvalue
  split at hvalue
  · next hbare =>
    obtain ⟨hdown, hkind⟩ := Option.filter_eq_some_iff.mp hvalue
    obtain ⟨first, hfirst, rfl⟩ := Option.map_eq_some_iff.mp hdown
    have hchild := List.mem_of_getElem? hfirst
    rw [← Cursor.map_node_children] at hchild
    obtain ⟨c, hc, rfl⟩ := List.mem_map.mp hchild
    obtain ⟨v, hv, hnode⟩ := mem_stringsWithin_of_unparenthesized hkind
    refine List.any_eq_true.mpr ⟨v, ?_, by rwa [hnode]⟩
    rw [bareStrings, if_pos hbare]
    exact List.mem_flatMap.mpr ⟨c, hc, hv⟩
  · cases hvalue

theorem kind_of_isStrStatement {statement : Place} (h : isStrStatement statement = true) :
    isBareStatement statement.node = true := by
  obtain ⟨v, hv, -⟩ := List.any_eq_true.mp h
  exact (enclosingStatement_of_mem hv).1

theorem isStatement_of_isBareStatement {statement : Place}
    (h : isBareStatement statement.node = true) : isStatement statement = true := by
  have hkind := kind_of_isBareStatement h
  simp [isStatement, Node.isNamed, hkind, Kind.isNamed]

theorem isBareStatement_of_isStringStatement {statement : Node}
    (h : isStringStatement statement = true) : isBareStatement statement = true := by
  by_contra hbare
  simp [isStringStatement, statementString, hbare] at h

/-- An assignment's statement holds no string. -/
theorem isStrStatement_of_documentedBy {attributes : Attributes} {statement : Place}
    (h : attributes.documentedBy statement.node = true) : isStrStatement statement = false := by
  by_contra hne
  rw [Bool.not_eq_false] at hne
  have hbare := kind_of_isStrStatement hne
  have hkind := kind_of_isBareStatement hbare
  obtain ⟨v, hv, -⟩ := List.any_eq_true.mp hne
  rw [bareStrings, if_pos hbare] at hv
  obtain ⟨c, hc, hv⟩ := List.mem_flatMap.mp hv
  have hassignment : Node.kind c.node ≠ .assignment := by
    intro hassignment
    rw [stringsWithin.eq_def] at hv
    simp [isStringKind, hassignment] at hv
  have hcount : statement.node.children.length = 1 := by
    simp only [isBareStatement, Bool.and_eq_true, decide_eq_true_eq] at hbare
    exact hbare.2
  obtain ⟨d, hd⟩ := List.length_eq_one_iff.mp hcount
  have hchild : statement.node.child 0 = some c.node := by
    have hmem := Cursor.node_mem_of_mem_children hc
    rw [hd] at hmem
    rw [FieldTree.child, hd, List.mem_singleton.mp hmem]
    rfl
  simp [Attributes.documentedBy, assignmentTarget, hkind, hchild, hassignment, Option.filter] at h

/-! ### Runs -/

theorem isSome_runStart (attributes : Attributes) (first : Place) (before : List Place) :
    (runStart attributes first before).isSome =
      placed true (fun s : Place => attributes.documentedBy s.node)
        (fun s : Place => isStringStatement s.node) (before.filter isStatement) := by
  induction before generalizing first with
  | nil => rfl
  | cons s before ih =>
    rw [runStart]
    by_cases hs : isStatement s = true
    · rw [if_pos hs, List.filter_cons_of_pos hs, placed]
      by_cases hstring : isStringStatement s.node = true
      · rw [if_pos hstring, if_pos hstring, ih]
      · rw [if_neg hstring, if_neg hstring]
        cases attributes.documentedBy s.node <;> rfl
    · rw [if_neg hs, List.filter_cons_of_neg hs, ih]

/-- The run the scan went through: up to its first statement, and the statements of it are the
string statements just before. -/
theorem runStart_eq_some {attributes : Attributes} {first f : Place} {before : List Place}
    (h : runStart attributes first before = some f) :
    ∃ run earlier, before = run ++ earlier ∧
      run.filter isStatement =
        (before.filter isStatement).takeWhile (fun s : Place => isStringStatement s.node) ∧
      (run = [] ∧ f = first ∨ ∃ later, run = later ++ [f]) := by
  induction before generalizing first with
  | nil =>
    cases h
    exact ⟨[], [], rfl, rfl, Or.inl ⟨rfl, rfl⟩⟩
  | cons s before ih =>
    rw [runStart] at h
    by_cases hs : isStatement s = true
    · rw [if_pos hs] at h
      rw [List.filter_cons_of_pos hs]
      by_cases hstring : isStringStatement s.node = true
      · rw [if_pos hstring] at h
        obtain ⟨run, earlier, rfl, hrun, hends⟩ := ih h
        refine ⟨s :: run, earlier, rfl, ?_, Or.inr ?_⟩
        · rw [List.filter_cons_of_pos hs, hrun]
          simp [hstring]
        · rcases hends with ⟨rfl, rfl⟩ | ⟨later, rfl⟩
          · exact ⟨[], rfl⟩
          · exact ⟨s :: later, rfl⟩
      · rw [if_neg hstring] at h
        refine ⟨[], s :: before, rfl, ?_, Or.inl ⟨rfl, ?_⟩⟩
        · simp [hstring]
        · split at h
          · exact (Option.some.inj h).symm
          · cases h
    · rw [if_neg hs] at h
      rw [List.filter_cons_of_neg hs]
      obtain ⟨run, earlier, rfl, hrun, hends⟩ := ih h
      rcases hends with ⟨rfl, hf⟩ | ⟨later, rfl⟩
      · exact ⟨[], s :: earlier, rfl, hrun, Or.inl ⟨rfl, hf⟩⟩
      · refine ⟨s :: (later ++ [f]), earlier, rfl, ?_, Or.inr ⟨s :: later, rfl⟩⟩
        rw [List.filter_cons_of_neg hs, hrun]

/-! ### Bodies -/

namespace Body

variable (body : Body)

/-- What opens a run that documents. -/
def opens : Bool := body.attributes.isSome

/-- The statements a run documents right after. -/
def follows (statement : Place) : Bool :=
  body.attributes.any fun attributes : Attributes => attributes.documentedBy statement.node

/-- The run of `str` statements that a statement belongs to, comments and `\` left out, opens
the body or follows an assignment the body reads attribute docstrings after. -/
def InPlace (statement : Place) : Prop :=
  placed body.opens body.follows isStrStatement (statement.siblingsBefore.filter fun s : Place =>
    !isContinuation s && isStatement s) = true

/-- A `\` stands before the statement, or inside its parentheses before the string. -/
def behindContinuation (statement : Place) : Bool :=
  continued statement.node || (statement.siblingsBefore.find? isStatement).any isContinuation

variable {body}

theorem parenthesized_statement {statement : Place} (h : statement ∈ body.statements) :
    Parenthesized statement.node := by
  have hbody : Parenthesized body.container.node := body.parenthesized
  exact hbody.child (Cursor.node_mem_of_mem_children h)

theorem bodyAttributes_eq {statement : Place} (h : statement ∈ body.statements) :
    bodyAttributes statement.ancestors = body.attributes := by
  rw [Cursor.ancestors_of_mem_children h, attributes]

theorem isSome_documentationRun {us after : List Place} {statement v : Place}
    (hsplit : body.statements = us ++ statement :: after) (hv : v ∈ bareStrings statement) :
    pythonIsDocumentationString v = (isStrLiteral v.node &&
      placed body.opens body.follows (fun s : Place => isStringStatement s.node)
        (us.filter isStatement).reverse) := by
  obtain ⟨hbare, henclosing⟩ := enclosingStatement_of_mem hv
  have hmem : statement ∈ body.statements := by simp [hsplit]
  have hbefore := (Cursor.siblings_of_split hsplit).1
  rw [pythonIsDocumentationString, documentationRun]
  by_cases hliteral : isStrLiteral v.node = true
  · rw [if_pos hliteral, hliteral, Bool.true_and, henclosing, Option.bind_eq_bind,
      Option.bind_some, if_pos hbare, bodyAttributes_eq hmem]
    unfold opens follows
    cases body.attributes with
    | none => exact (Runs.placed_false _ _).symm
    | some attributes =>
      rw [Option.bind_eq_bind, Option.bind_some, isSome_runStart, hbefore, List.filter_reverse]
      rfl
  · rw [if_neg hliteral]
    rw [Bool.not_eq_true] at hliteral
    rw [hliteral, Bool.false_and]
    rfl

theorem ordered_statements : body.statements.Pairwise fun a b : Place =>
    Node.startByte a.node ≤ Node.startByte b.node ∧
      Node.endByte a.node ≤ Node.startByte b.node := by
  have hordered := body.ordered
  rw [← Cursor.map_node_children] at hordered
  exact List.pairwise_map.mp hordered

/-- No statement after another starts where it does. -/
theorem startByte_lt {us after : List Place} {statement next : Place}
    (hsplit : body.statements = us ++ statement :: after)
    (hbare : isBareStatement statement.node = true) (hnext : next ∈ after) :
    Node.startByte statement.node < Node.startByte next.node := by
  have hmem : statement ∈ body.statements := by simp [hsplit]
  have hordered := body.ordered_statements
  rw [hsplit] at hordered
  have hafter := (List.pairwise_append.mp hordered).2.1
  have hle := ((List.pairwise_cons.mp hafter).1 next hnext).2
  have hlt := body.nonempty statement.node (Cursor.node_mem_of_mem_children hmem)
    (kind_of_isBareStatement hbare)
  exact Nat.lt_of_lt_of_le hlt hle

theorem startByte_le {us after : List Place} {statement earlier : Place}
    (hsplit : body.statements = us ++ statement :: after) (hearlier : earlier ∈ us) :
    Node.startByte earlier.node ≤ Node.startByte statement.node := by
  have hordered := body.ordered_statements
  rw [hsplit] at hordered
  exact ((List.pairwise_append.mp hordered).2.2 earlier hearlier statement List.mem_cons_self).1

/-- From a run's first statement up to the one that ends it. -/
theorem takeWhile_siblings {us after : List Place} {statement f : Place} {run earlier : List Place}
    (hsplit : body.statements = us ++ statement :: after)
    (hbare : isBareStatement statement.node = true) (hrun : us.reverse = run ++ earlier)
    (hends : run = [] ∧ f = statement ∨ ∃ later, run = later ++ [f]) :
    (f :: f.siblingsAfter).takeWhile (fun member : Place =>
      decide (Node.startByte member.node ≤ Node.startByte statement.node)) =
      run.reverse ++ [statement] := by
  have hafter : after.takeWhile (fun member : Place =>
      decide (Node.startByte member.node ≤ Node.startByte statement.node)) = [] := by
    cases after with
    | nil => rfl
    | cons next after =>
      have hlt := startByte_lt hsplit hbare List.mem_cons_self
      exact List.takeWhile_cons_of_neg (by simpa using hlt)
  have hus : us = earlier.reverse ++ run.reverse := by
    rw [← List.reverse_reverse us, hrun, List.reverse_append]
  have hle : ∀ member ∈ run.reverse, decide (Node.startByte (Cursor.node member) ≤
      Node.startByte statement.node) = true := by
    intro member hmember
    rw [decide_eq_true_eq]
    exact startByte_le hsplit (by rw [hus]; exact List.mem_append_right _ hmember)
  have hall : (run.reverse ++ statement :: after).takeWhile (fun member : Place =>
      decide (Node.startByte member.node ≤ Node.startByte statement.node)) =
      run.reverse ++ [statement] := by
    rw [List.takeWhile_append_of_pos hle, List.takeWhile_cons_of_pos (by simp), hafter]
  rw [← hall]
  congr 1
  rcases hends with ⟨rfl, rfl⟩ | ⟨later, rfl⟩
  · rw [(Cursor.siblings_of_split hsplit).2]
    rfl
  · have hf : body.container.children = earlier.reverse ++ f :: (later.reverse ++ statement :: after) := by
      rw [statements] at hsplit
      rw [hsplit, hus]
      simp
    rw [(Cursor.siblings_of_split hf).2]
    simp

/-- What a string credits is what its statement credits in the list of statements. -/
theorem runMembers_eq {us after : List Place} {statement v : Place}
    (hsplit : body.statements = us ++ statement :: after) (hv : bareStrings statement = [v]) :
    runMembers v = members body.opens body.follows isStrStatement
      (fun s : Place => isStringStatement s.node) (us.filter isStatement).reverse statement
      (after.filter isStatement) := by
  have hmem : v ∈ bareStrings statement := hv ▸ List.mem_singleton_self v
  obtain ⟨hbare, henclosing⟩ := enclosingStatement_of_mem hmem
  have hstatement : statement ∈ body.statements := by simp [hsplit]
  have hstr : isStrStatement statement = isStrLiteral v.node := by simp [isStrStatement, hv]
  have hsome := isSome_documentationRun hsplit hmem
  obtain ⟨hbefore, hafter⟩ := Cursor.siblings_of_split hsplit
  rw [runMembers, henclosing]
  simp only [members, hafter, List.head?_filter]
  split
  · rfl
  · rw [hstr, ← hsome, pythonIsDocumentationString]
    cases hrun : documentationRun v with
    | none => rfl
    | some f =>
      rw [Option.isSome_some, if_pos rfl]
      have hstart : ∃ attributes, runStart attributes statement us.reverse = some f := by
        rw [documentationRun] at hrun
        split at hrun
        · rw [henclosing, Option.bind_eq_bind, Option.bind_some, if_pos hbare, hbefore] at hrun
          obtain ⟨attributes, -, hrun⟩ := Option.bind_eq_some_iff.mp hrun
          exact ⟨attributes, hrun⟩
        · cases hrun
      obtain ⟨attributes, hstart⟩ := hstart
      obtain ⟨run, earlier, hsplit', hfilter, hends⟩ := runStart_eq_some hstart
      dsimp only
      rw [takeWhile_siblings hsplit hbare hsplit' hends, ← List.filter_reverse, ← hfilter]
      have hvisible : ∀ l : List Place, (l.filter isStatement).filter
          (fun s : Place => isStringStatement s.node) =
          l.filter fun s : Place => isStringStatement s.node := by
        intro l
        rw [List.filter_filter]
        refine List.filter_congr fun s _ => ?_
        cases hs : isStringStatement s.node with
        | false => rfl
        | true => exact isStatement_of_isBareStatement (isBareStatement_of_isStringStatement hs)
      rw [List.filter_append, List.filter_append, List.filter_reverse, List.filter_reverse,
        hvisible]

theorem flatMap_runMembers :
    body.values.flatMap runMembers = inContext (members body.opens body.follows isStrStatement
      fun s : Place => isStringStatement s.node) [] (body.statements.filter isStatement) := by
  rw [values, List.flatMap_assoc]
  refine Runs.flatMap_eq_inContext _ fun us statement after hsplit => ?_
  have hwf : Parenthesized statement.node := body.parenthesized_statement (by simp [hsplit])
  rcases bareStrings_cases hwf with ⟨hnil, -⟩ | ⟨v, hv, -⟩
  · have hstr : isStrStatement statement = false := by simp [isStrStatement, hnil]
    simp [hnil, members, hstr]
  · have hbare := (enclosingStatement_of_mem (hv ▸ List.mem_singleton_self v)).1
    rw [if_pos (isStatement_of_isBareStatement hbare), hv, List.flatMap_singleton,
      runMembers_eq hsplit hv]

theorem filter_isDocumentationString :
    (body.values.filter pythonIsDocumentationString).filterMap enclosingStatement =
      inContext (accepted body.opens body.follows isStrStatement
        fun s : Place => isStringStatement s.node) [] (body.statements.filter isStatement) := by
  rw [values, List.filter_flatMap, List.filterMap_flatMap]
  refine Runs.flatMap_eq_inContext _ fun us statement after hsplit => ?_
  have hwf : Parenthesized statement.node := body.parenthesized_statement (by simp [hsplit])
  rcases bareStrings_cases hwf with ⟨hnil, -⟩ | ⟨v, hv, -⟩
  · have hstr : isStrStatement statement = false := by simp [isStrStatement, hnil]
    simp [hnil, accepted, hstr]
  · have hmem : v ∈ bareStrings statement := hv ▸ List.mem_singleton_self v
    obtain ⟨hbare, henclosing⟩ := enclosingStatement_of_mem hmem
    have hsome := isSome_documentationRun hsplit hmem
    have hstr : isStrStatement statement = isStrLiteral v.node := by simp [isStrStatement, hv]
    rw [if_pos (isStatement_of_isBareStatement hbare), hv, accepted, hstr, ← hsome]
    cases haccepted : pythonIsDocumentationString v with
    | false => simp [haccepted]
    | true => simp [haccepted, henclosing]

/-- The statements of the list that counts are those of the body. -/
theorem forall_split_iff {P : List Place → Place → Prop} :
    (∀ us statement after, body.statements.filter isStatement = us ++ statement :: after →
      isStrStatement statement = true → P us.reverse statement) ↔
    ∀ statement ∈ body.statements, isStrStatement statement = true →
      P (statement.siblingsBefore.filter isStatement) statement := by
  constructor
  · intro h statement hmem hstr
    obtain ⟨us, after, hsplit⟩ := List.append_of_mem hmem
    have hkeep := isStatement_of_isBareStatement (kind_of_isStrStatement hstr)
    rw [(Cursor.siblings_of_split hsplit).1, List.filter_reverse]
    refine h (us.filter isStatement) statement (after.filter isStatement) ?_ hstr
    rw [hsplit, List.filter_append, List.filter_cons_of_pos hkeep]
  · intro h us statement after hsplit hstr
    obtain ⟨front, back, hstatements, rfl, hback⟩ := List.filter_eq_append_iff.mp hsplit
    obtain ⟨skipped, later, rfl, hskipped, -, -⟩ := List.filter_eq_cons_iff.mp hback
    rw [← List.append_assoc] at hstatements
    have hmem : statement ∈ body.statements := by simp [hstatements]
    have hnone : skipped.filter isStatement = [] :=
      List.filter_eq_nil_iff.mpr hskipped
    have hp := h statement hmem hstr
    rwa [(Cursor.siblings_of_split hstatements).1, List.filter_reverse, List.filter_append, hnone,
      List.append_nil] at hp

/-- Asked about every bare string in order, the helper credits the statements of the strings
the question accepts, each once; and these are the `str` statements of the runs that
document. -/
def CreditsDocumentation (body : Body) : Prop :=
  body.values.flatMap runMembers =
      (body.values.filter pythonIsDocumentationString).filterMap enclosingStatement ∧
    ∀ statement ∈ body.statements, ∀ v ∈ bareStrings statement,
      (pythonIsDocumentationString v = true ↔
        isStrLiteral v.node = true ∧ body.InPlace statement)

theorem accepts_iff :
    (∀ statement ∈ body.statements, ∀ v ∈ bareStrings statement,
      (pythonIsDocumentationString v = true ↔
        isStrLiteral v.node = true ∧ body.InPlace statement)) ↔
    ∀ statement ∈ body.statements, isStrStatement statement = true →
      (placed body.opens body.follows (fun s : Place => isStringStatement s.node)
        (statement.siblingsBefore.filter isStatement) = true ↔ body.InPlace statement) := by
  refine forall_congr' fun statement => forall_congr' fun hmem => ?_
  obtain ⟨us, after, hsplit⟩ := List.append_of_mem hmem
  have haccepts : ∀ v ∈ bareStrings statement, pythonIsDocumentationString v =
      (isStrLiteral v.node && placed body.opens body.follows
        (fun s : Place => isStringStatement s.node)
        (statement.siblingsBefore.filter isStatement)) := by
    intro v hv
    rw [isSome_documentationRun hsplit hv, (Cursor.siblings_of_split hsplit).1, List.filter_reverse]
  constructor
  · intro h hstr
    obtain ⟨v, hv, hliteral⟩ := List.any_eq_true.mp hstr
    have hv' := h v hv
    rw [haccepts v hv, hliteral, Bool.true_and] at hv'
    simpa using hv'
  · intro h v hv
    rw [haccepts v hv, Bool.and_eq_true]
    refine and_congr_right fun hliteral => h ?_
    exact List.any_eq_true.mpr ⟨v, hv, hliteral⟩

theorem of_isContinuation {s : Place} (h : isContinuation s = true) :
    isStrStatement s = false ∧ body.follows s = false := by
  have hkind : Node.kind s.node = .lineContinuation := by simpa [isContinuation] using h
  constructor
  · by_contra hstr
    have hexpression := kind_of_isBareStatement (kind_of_isStrStatement (by simpa using hstr))
    rw [hkind] at hexpression
    cases hexpression
  · cases hattributes : body.attributes <;>
      simp [follows, hattributes, Attributes.documentedBy, assignmentTarget, hkind]

/-- The helper and the question agree on what is documentation exactly on the bodies none of
whose documentation strings stands behind a `\`. -/
theorem creditsDocumentation_iff (body : Body) :
    body.CreditsDocumentation ↔ ∀ statement ∈ body.statements,
      isStrStatement statement = true → body.InPlace statement →
      behindContinuation statement = false := by
  have hvis : ∀ s : Place, isStringStatement s.node = true → isStrStatement s = true :=
    fun s => isStrStatement_of_isStringStatement
  have hfollows : ∀ s : Place, body.follows s = true → isStrStatement s = false := by
    intro s hs
    rw [follows, Option.any_eq_true] at hs
    obtain ⟨attributes, -, hs⟩ := hs
    exact isStrStatement_of_documentedBy hs
  have hinPlace : ∀ statement : Place, body.InPlace statement ↔
      placed body.opens body.follows isStrStatement
        ((statement.siblingsBefore.filter isStatement).filter fun s : Place =>
          !isContinuation s) = true := by
    intro statement
    rw [InPlace, List.filter_filter]
  have hseen : (∀ statement ∈ body.statements, isStrStatement statement = true →
      body.InPlace statement → behindContinuation statement = false) ↔
      ∀ statement ∈ body.statements, isStrStatement statement = true →
        (placed body.opens body.follows isStrStatement
          ((statement.siblingsBefore.filter isStatement).filter fun s : Place =>
            !isContinuation s) = true →
        isStringStatement statement.node = true ∧
          (statement.siblingsBefore.filter isStatement).head?.any isContinuation = false) := by
    refine forall_congr' fun statement => forall_congr' fun hmem => forall_congr' fun hstr => ?_
    rw [isStringStatement_eq (parenthesized_statement hmem), hstr, hinPlace, behindContinuation,
      List.head?_filter]
    simp
  rw [CreditsDocumentation, accepts_iff, flatMap_runMembers, filter_isDocumentationString, hseen,
    ← forall_split_iff (P := fun before statement =>
      placed body.opens body.follows isStrStatement
        (before.filter fun s : Place => !isContinuation s) = true →
      isStringStatement statement.node = true ∧ before.head?.any isContinuation = false)]
  simp only [hinPlace]
  rw [← forall_split_iff (P := fun before _ =>
    (placed body.opens body.follows (fun s : Place => isStringStatement s.node) before = true ↔
      placed body.opens body.follows isStrStatement
        (before.filter fun s : Place => !isContinuation s) = true))]
  exact Runs.credited_over_gaps_iff hvis hfollows (fun s hs => of_isContinuation hs)
    (body.statements.filter isStatement)

/-- `(\` on one row, a comment on the next and `"doc")` on the third, all a module holds. The
scanner takes a `\` right before a string for padding, so it is the comment that makes a node of
this one. -/
def continuedModule : Place :=
  let leaf (kind : Kind) (start stop startRow endRow : ℕ) (text : List UInt8) : Node :=
    .node ⟨⟨start, kind, start, stop, startRow, endRow, text⟩, none⟩ []
  let value : Node := .node ⟨⟨20, .parenthesizedExpression, 0, 13, 0, 2, []⟩, none⟩
    [leaf .lparen 0 1 0 0 [40], leaf .lineContinuation 1 3 0 1 [92, 10],
      leaf .comment 3 6 1 1 [35, 32, 99], leaf .string 7 12 2 2 [34, 100, 111, 99, 34],
      leaf .rparen 12 13 2 2 [41]]
  .new (.node ⟨⟨22, .module, 0, 13, 0, 2, []⟩, none⟩
    [.node ⟨⟨21, .expressionStatement, 0, 13, 0, 2, []⟩, none⟩ [value]])

def continuedBody : Body where
  container := continuedModule
  parenthesized := by
    intro node hnode hkind
    simp [continuedModule, Cursor.new, Rose.nodes, Rose.forestNodes] at hnode
    rcases hnode with rfl | rfl | rfl | rfl | rfl | rfl | rfl | rfl
    all_goals first | exact ⟨_, rfl⟩ | cases hkind
  ordered := List.pairwise_singleton _ _
  nonempty := by
    intro statement hmem _
    obtain rfl := List.mem_singleton.mp hmem
    decide

theorem not_creditsDocumentation_continuedBody : ¬ continuedBody.CreditsDocumentation := by
  rintro ⟨h, -⟩
  exact absurd (congrArg List.length h) (by decide)

end Body

end BigCodeAnalysis.Languages.Python
