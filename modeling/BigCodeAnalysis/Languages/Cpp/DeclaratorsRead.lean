import BigCodeAnalysis.Languages.Cpp.Declarators

/-! The equations of the source for the reading of declarators: a tree's size bounds how deep
the reading goes. -/

namespace BigCodeAnalysis.Languages.Cpp

open Trees

/-! ### What is asked of a node stays below it -/

theorem mem_nodes_of_childByFieldName {root node child : Node} {field : String}
    (h : node ∈ root.nodes) (hc : node.childByFieldName field = some child) :
    child ∈ root.nodes :=
  Rose.mem_nodes_of_mem_children h (FieldTree.mem_children_of_childByFieldName hc)

theorem innermostWithin_mem {root : Node} (fuel : ℕ) {qualified : Node}
    (h : qualified ∈ root.nodes) : innermostWithin fuel qualified ∈ root.nodes := by
  induction fuel generalizing qualified with
  | zero => exact h
  | succ fuel ih =>
    rw [innermostWithin]
    split
    · next name hname =>
      exact ih (mem_nodes_of_childByFieldName h (Option.eq_some_of_filter_eq_some hname))
    · exact h

theorem cppMemberPointer_mem {root qualified pointer : Node} (h : qualified ∈ root.nodes)
    (hp : cppMemberPointer qualified = some pointer) : pointer ∈ root.nodes :=
  mem_nodes_of_childByFieldName (innermostWithin_mem _ h) (Option.eq_some_of_filter_eq_some hp)

theorem recoveredInBitfield_mem {clause expression : Node} {afterColon : Bool}
    (h : cppRecoveredMemberPointerInBitfield clause afterColon = some expression) :
    expression ∈ clause.nodes := by
  obtain ⟨payload, hpayload, h⟩ := Option.bind_eq_some_iff.mp h
  obtain ⟨held, hheld, h⟩ := Option.bind_eq_some_iff.mp h
  have hmem : payload ∈ clause.nodes :=
    Rose.mem_nodes_of_mem_children (Rose.mem_nodes_self clause) (List.mem_of_find?_eq_some hpayload)
  have hheldMem : held ∈ clause.nodes := by
    split at hheld
    · split at hheld
      · exact Rose.mem_nodes_of_mem_children hmem (List.mem_of_find?_eq_some hheld)
      · cases hheld
        exact hmem
    · cases hheld
  split at h
  · exact mem_nodes_of_childByFieldName hheldMem h
  · cases h
    exact hheldMem

/-! ### Answers that agree below a node -/

section
variable {f f' g g' : Node → Bool}

theorem any_congr_mem {l : List Node} (h : ∀ x ∈ l, f x = f' x) : l.any f = l.any f' := by
  have hmap : (l.map f).any id = (l.map f').any id := by rw [List.map_congr_left h]
  simpa only [List.any_map, Function.id_comp] using hmap

theorem all_congr_mem {l : List Node} (h : ∀ x ∈ l, f x = f' x) : l.all f = l.all f' := by
  have hmap : (l.map f).all id = (l.map f').all id := by rw [List.map_congr_left h]
  simpa only [List.all_map, Function.id_comp] using hmap

theorem any_congr_below {o : Option Node} {root : Node} (h : ∀ x ∈ root.nodes, f x = f' x)
    (ho : ∀ x, o = some x → x ∈ root.nodes) : o.any f = o.any f' := by
  cases o with
  | none => rfl
  | some x => exact h x (ho x rfl)

theorem all_congr_below {o : Option Node} {root : Node} (h : ∀ x ∈ root.nodes, f x = f' x)
    (ho : ∀ x, o = some x → x ∈ root.nodes) : o.all f = o.all f' := by
  cases o with
  | none => rfl
  | some x => exact h x (ho x rfl)

theorem parameter_congr {root parameter : Node} (h : ∀ x ∈ root.nodes, f x = f' x)
    (hmem : parameter ∈ root.nodes) :
    cppRecoveredMemberPointerParameter f parameter =
      cppRecoveredMemberPointerParameter f' parameter := by
  have hany : parameter.children.any (functionUnderRecovered f) =
      parameter.children.any (functionUnderRecovered f') := by
    refine any_congr_mem fun child hchild => ?_
    rw [functionUnderRecovered, functionUnderRecovered, h child (Rose.mem_nodes_of_mem_children hmem hchild)]
  rw [cppRecoveredMemberPointerParameter, cppRecoveredMemberPointerParameter, hany]

theorem recoveredWithin_congr {root : Node} (h : ∀ x ∈ root.nodes, f x = f' x) (fuel : ℕ)
    {declarator : Option Node} (hmem : ∀ x, declarator = some x → x ∈ root.nodes)
    (recovered : RecoveredMemberPointers) :
    recoveredWithin f fuel declarator recovered =
      recoveredWithin f' fuel declarator recovered := by
  induction fuel generalizing declarator recovered with
  | zero => rfl
  | succ fuel ih =>
    rw [recoveredWithin, recoveredWithin]
    cases hlevel : declarator.filter fun level : Node => level.kind = .functionDeclarator with
    | none => rfl
    | some level =>
      have hin := hmem level (Option.eq_some_of_filter_eq_some hlevel)
      have hparameters : (parametersOf level).filterMap (cppRecoveredMemberPointerParameter f) =
          (parametersOf level).filterMap (cppRecoveredMemberPointerParameter f') := by
        refine List.filterMap_congr fun parameter hparameter => parameter_congr h ?_
        obtain ⟨list, hlist, hparameter⟩ := List.mem_flatMap.mp (List.mem_filter.mp hparameter).1
        have hfield : level.childByFieldName "parameters" = some list := by simpa using hlist
        exact Rose.mem_nodes_of_mem_children (mem_nodes_of_childByFieldName hin hfield) hparameter
      simp only [hparameters]
      exact ih (fun x hx => mem_nodes_of_childByFieldName hin hx) _

theorem childDeclaresFunction_congr {child : Node} {afterColon : Bool}
    (hf : ∀ x ∈ child.nodes, f x = f' x) (hg : ∀ x ∈ child.nodes, g x = g' x) :
    childDeclaresFunction f g child afterColon = childDeclaresFunction f' g' child afterColon := by
  have hself := Rose.mem_nodes_self child
  have hpointer := any_congr_below hf fun x hx => cppMemberPointer_mem hself hx
  have hrecovered : cppRecoveredMemberPointers f child = cppRecoveredMemberPointers f' child :=
    recoveredWithin_congr hf _ (fun x hx => by cases hx; exact hself) _
  have hbitfield : cppRecoveredBitfieldDeclaresFunction f child afterColon =
      cppRecoveredBitfieldDeclaresFunction f' child afterColon := by
    rw [cppRecoveredBitfieldDeclaresFunction, cppRecoveredBitfieldDeclaresFunction]
    cases hexpression : cppRecoveredMemberPointerInBitfield child afterColon with
    | none => rfl
    | some expression =>
      have hany := any_congr_below hf fun x hx =>
        cppMemberPointer_mem (recoveredInBitfield_mem hexpression) hx
      simp only [hany]
  have hinner : ∀ inner, child.childByFieldName "declarator" = some inner → g inner = g' inner :=
    fun inner h => hg inner (mem_nodes_of_childByFieldName hself h)
  rw [childDeclaresFunction, childDeclaresFunction, hf child hself, hpointer, hrecovered, hbitfield]
  split
  · split
    · rfl
    · next inner h => rw [hinner inner h]
  all_goals rfl

theorem parenthesizedChild_congr {child : Node} (hf : ∀ x ∈ child.nodes, f x = f' x)
    (hg : ∀ x ∈ child.nodes, g x = g' x) :
    parenthesizedChild f g child = parenthesizedChild f' g' child := by
  have hself := Rose.mem_nodes_self child
  have hpointer := all_congr_below hf fun x hx => cppMemberPointer_mem hself hx
  rw [parenthesizedChild, parenthesizedChild, hf child hself, hg child hself, hpointer]

theorem anyChild_congr {answer answer' : Node → Bool → Bool} {children : List Node}
    (h : ∀ child ∈ children, ∀ afterColon, answer child afterColon = answer' child afterColon)
    (afterColon : Bool) :
    anyChild answer afterColon children = anyChild answer' afterColon children := by
  induction children generalizing afterColon with
  | nil => rfl
  | cons child rest ih =>
    have hrest := ih fun c hc => h c (List.mem_cons_of_mem _ hc)
    rw [anyChild, anyChild, h child List.mem_cons_self, hrest, hrest]

end

/-! ### Enough fuel -/

/-- A tree's size is enough, and more changes nothing. -/
theorem within_eq (depth : ℕ) (node : Node) (h : node.size ≤ depth) :
    declaresWithin depth node = cppDeclaresFunction node ∧
      parenthesizedWithin depth node = cppParenthesizedDeclaresFunction node := by
  induction depth using Nat.strongRecOn generalizing node with
  | ind depth ih =>
    have hsize := Rose.size_eq node
    obtain ⟨depth, rfl⟩ : ∃ d, depth = d + 1 := ⟨depth - 1, by omega⟩
    have hbelow : ∀ d, Rose.forestSize node.children ≤ d → d < depth + 1 →
        ∀ child ∈ node.children, ∀ x ∈ child.nodes,
          declaresWithin d x = cppDeclaresFunction x ∧
            parenthesizedWithin d x = cppParenthesizedDeclaresFunction x := by
      intro d hd hlt child hchild x hx
      have hin := (Rose.nodes_sublist_of_mem hchild).subset hx
      exact ih d hlt x (Nat.le_trans (Rose.size_le_of_mem_forestNodes hin) hd)
    have hdeep := hbelow depth (by omega) (by omega)
    have hleast := hbelow (Rose.forestSize node.children) (Nat.le_refl _) (by omega)
    have hf : ∀ child ∈ node.children, ∀ x ∈ child.nodes,
        declaresWithin depth x = declaresWithin (Rose.forestSize node.children) x :=
      fun child hchild x hx => (hdeep child hchild x hx).1.trans (hleast child hchild x hx).1.symm
    have hg : ∀ child ∈ node.children, ∀ x ∈ child.nodes,
        parenthesizedWithin depth x = parenthesizedWithin (Rose.forestSize node.children) x :=
      fun child hchild x hx => (hdeep child hchild x hx).2.trans (hleast child hchild x hx).2.symm
    rw [cppDeclaresFunction, cppParenthesizedDeclaresFunction, hsize, declaresWithin,
      declaresWithin, parenthesizedWithin, parenthesizedWithin]
    constructor
    · exact anyChild_congr (fun child hchild _ =>
        childDeclaresFunction_congr (hf child hchild) (hg child hchild)) false
    · exact all_congr_mem fun child hchild =>
        parenthesizedChild_congr (hf child hchild) (hg child hchild)

theorem below_eq {node child : Node} (hchild : child ∈ node.children) :
    (∀ x ∈ child.nodes,
      declaresWithin (Rose.forestSize node.children) x = cppDeclaresFunction x) ∧
    ∀ x ∈ child.nodes, parenthesizedWithin (Rose.forestSize node.children) x =
      cppParenthesizedDeclaresFunction x := by
  have hsize : ∀ x ∈ child.nodes, x.size ≤ Rose.forestSize node.children := fun x hx =>
    Rose.size_le_of_mem_forestNodes ((Rose.nodes_sublist_of_mem hchild).subset hx)
  exact ⟨fun x hx => (within_eq _ x (hsize x hx)).1, fun x hx => (within_eq _ x (hsize x hx)).2⟩

/-- A declaration declares a function if one of its children does. -/
theorem cppDeclaresFunction_eq (node : Node) :
    cppDeclaresFunction node = anyChild cppChildDeclaresFunction false node.children := by
  rw [cppDeclaresFunction, Rose.size_eq, declaresWithin]
  exact anyChild_congr (fun child hchild _ =>
    childDeclaresFunction_congr (below_eq hchild).1 (below_eq hchild).2) false

theorem cppParenthesizedDeclaresFunction_eq (paren : Node) :
    cppParenthesizedDeclaresFunction paren = paren.children.all
      (parenthesizedChild cppDeclaresFunction cppParenthesizedDeclaresFunction) := by
  rw [cppParenthesizedDeclaresFunction, Rose.size_eq, parenthesizedWithin]
  exact all_congr_mem fun child hchild =>
    parenthesizedChild_congr (below_eq hchild).1 (below_eq hchild).2

end BigCodeAnalysis.Languages.Cpp
