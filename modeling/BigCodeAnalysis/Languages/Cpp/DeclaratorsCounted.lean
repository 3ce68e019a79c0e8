import BigCodeAnalysis.Languages.Cpp.Declarators
import BigCodeAnalysis.Languages.Cpp.DeclaratorsRead
import Mathlib.Algebra.GroupWithZero.Nat

/-! The reading from the outside against the meaning from the name. The two agree on the
declarators in which the way in meets no parenthesis and no array around a function before a
parameter list, and no array and no parameter list right under one. -/

namespace BigCodeAnalysis.Languages.Cpp

open Trees

namespace Declarator

mutual
/-- What the reading from the outside makes of a declarator. -/
def read : Declarator → Bool
  | .name _ | .array _ | .parenthesized _ => false
  | .pointer d | .reference d | .memberPointer d => d.read
  | .function d => d.readUnder

def readUnder : Declarator → Bool
  | .parenthesized d => d.readInside
  | _ => true

def readInside : Declarator → Bool
  | .parenthesized d => d.readInside
  | .pointer d | .reference d | .memberPointer d => d.read
  | _ => true
end

theorem declaresFunction_or {d : Declarator} {c : Constructor} (hc : c ≠ .function) :
    decide (d.firstConstructor.or (some c) = some .function) = d.declaresFunction := by
  rw [declaresFunction]
  cases d.firstConstructor <;> simp [hc]

theorem declaresFunction_pointer (d : Declarator) :
    (Declarator.pointer d).declaresFunction = d.declaresFunction := declaresFunction_or (by decide)

theorem declaresFunction_reference (d : Declarator) :
    (Declarator.reference d).declaresFunction = d.declaresFunction := declaresFunction_or (by decide)

theorem declaresFunction_memberPointer (d : Declarator) :
    (Declarator.memberPointer d).declaresFunction = d.declaresFunction :=
  declaresFunction_or (by decide)

theorem declaresFunction_array (d : Declarator) :
    (Declarator.array d).declaresFunction = d.declaresFunction := declaresFunction_or (by decide)

theorem declaresFunction_parenthesized (d : Declarator) :
    (Declarator.parenthesized d).declaresFunction = d.declaresFunction := rfl

/-- A parameter list around another constructor is not met first. -/
theorem declaresFunction_function {d : Declarator} (h : d.firstConstructor.isSome = true) :
    (Declarator.function d).declaresFunction = d.declaresFunction := by
  obtain ⟨c, hc⟩ := Option.isSome_iff_exists.mp h
  simp [declaresFunction, firstConstructor, hc]

theorem isSome_or (o : Option Constructor) (c : Constructor) : (o.or (some c)).isSome = true := by
  cases o <;> rfl

theorem true_eq_function_iff {d : Declarator} (h : d.firstConstructor.isSome = true) :
    true = (Declarator.function d).declaresFunction ↔ d.declaresFunction = true := by
  rw [declaresFunction_function h]
  exact eq_comm

mutual
theorem read_iff_plain : ∀ d : Declarator, d.read = d.declaresFunction ↔ d.Plain
  | .name _ => by simp [read, Plain, declaresFunction, firstConstructor]
  | .array d => by
    rw [read, Plain, declaresFunction_array]
    exact eq_comm
  | .parenthesized d => by
    rw [read, Plain, declaresFunction_parenthesized]
    exact eq_comm
  | .pointer d => by
    rw [read, Plain, declaresFunction_pointer]
    exact read_iff_plain d
  | .reference d => by
    rw [read, Plain, declaresFunction_reference]
    exact read_iff_plain d
  | .memberPointer d => by
    rw [read, Plain, declaresFunction_memberPointer]
    exact read_iff_plain d
  | .function d => by
    rw [read, Plain]
    exact readUnder_iff_plain d

theorem readUnder_iff_plain : ∀ d : Declarator,
    d.readUnder = (Declarator.function d).declaresFunction ↔ d.PlainUnder
  | .name _ => by simp [readUnder, PlainUnder, declaresFunction, firstConstructor]
  | .parenthesized d => by
    rw [readUnder, PlainUnder, ← readInside_iff_plain d]
    rfl
  | .array d => true_eq_function_iff (isSome_or d.firstConstructor .array)
  | .pointer d => true_eq_function_iff (isSome_or d.firstConstructor .pointer)
  | .reference d => true_eq_function_iff (isSome_or d.firstConstructor .reference)
  | .memberPointer d => true_eq_function_iff (isSome_or d.firstConstructor .memberPointer)
  | .function d => true_eq_function_iff (isSome_or d.firstConstructor .function)

theorem readInside_iff_plain : ∀ d : Declarator,
    d.readInside = (Declarator.function d).declaresFunction ↔ d.PlainInside
  | .name _ => by simp [readInside, PlainInside, declaresFunction, firstConstructor]
  | .parenthesized d => by
    rw [readInside, PlainInside, ← readInside_iff_plain d]
    rfl
  | .array d => true_eq_function_iff (isSome_or d.firstConstructor .array)
  | .function d => true_eq_function_iff (isSome_or d.firstConstructor .function)
  | .pointer d => by
    rw [readInside, PlainInside, ← read_iff_plain d,
      declaresFunction_function (d := .pointer d) (isSome_or d.firstConstructor .pointer),
      declaresFunction_pointer]
  | .reference d => by
    rw [readInside, PlainInside, ← read_iff_plain d,
      declaresFunction_function (d := .reference d) (isSome_or d.firstConstructor .reference),
      declaresFunction_reference]
  | .memberPointer d => by
    rw [readInside, PlainInside, ← read_iff_plain d,
      declaresFunction_function (d := .memberPointer d) (isSome_or d.firstConstructor .memberPointer),
      declaresFunction_memberPointer]
end

end Declarator

/-! ### What stands beside -/

theorem innermost_of_qualifies {node name : Node} (h : Qualifies node name) :
    (cppInnermostQualified node).childByFieldName "name" = some name := by
  suffices hfuel : ∀ fuel, node.size ≤ fuel →
      (innermostWithin fuel node).childByFieldName "name" = some name from hfuel _ (Nat.le_refl _)
  induction h with
  | @last node name hname hkind =>
    intro fuel hfuel
    cases fuel with
    | zero =>
      rw [innermostWithin]
      exact hname
    | succ fuel =>
      rw [innermostWithin, hname, Option.filter_some, if_neg (by simpa using hkind)]
      exact hname
  | @nested node inner name hinner hkind _ ih =>
    intro fuel hfuel
    have hsize := Rose.size_eq node
    have hmem := FieldTree.mem_children_of_childByFieldName hinner
    have hle := Rose.size_le_forestSize hmem
    obtain ⟨fuel, rfl⟩ : ∃ n, fuel = n + 1 := ⟨fuel - 1, by omega⟩
    rw [innermostWithin, hinner, Option.filter_some, if_pos (by simpa using hkind)]
    exact ih fuel (by omega)

theorem memberPointer_of_qualifies {node name : Node} (h : Qualifies node name) :
    cppMemberPointer node = if name.kind = .pointerTypeDeclarator then some name else none := by
  rw [cppMemberPointer, innermost_of_qualifies h, Option.filter_some]
  simp

theorem namesOfNode (node : Node) : cppDeclaratorNames node =
    match node.kind with
    | .fieldIdentifier => 1
    | .functionDeclarator | .parenthesizedDeclarator | .pointerDeclarator | .arrayDeclarator
    | .initDeclarator | .referenceDeclarator => namesOfChildren node.children
    | .qualifiedIdentifier => (cppMemberPointer node).isSome.toNat
    | _ => 0 := by
  cases node
  rw [cppDeclaratorNames]
  rfl

theorem namesOfChildren_append (us vs : List Node) :
    namesOfChildren (us ++ vs) = namesOfChildren us + namesOfChildren vs := by
  induction us with
  | nil => simp [namesOfChildren]
  | cons u us ih => rw [List.cons_append, namesOfChildren, namesOfChildren, ih, Nat.add_assoc]

namespace Inert

variable {node : Node}

theorem declares (h : Inert node) : cppChildDeclaresFunction node false = false := by
  rw [cppChildDeclaresFunction, childDeclaresFunction]
  cases h with
  | kind h =>
    revert h
    cases node.kind <;> simp [Kind.isInert]
  | qualified hkind hname hplain =>
    rw [hkind, memberPointer_of_qualifies hname, if_neg hplain]
    rfl
  | width hkind hclean =>
    rw [hkind]
    have hnone : cppRecoveredMemberPointerInBitfield node false = none := by
      refine Option.bind_eq_none_iff.mpr fun payload hpayload => ?_
      have hne := hclean payload (List.mem_of_find?_eq_some hpayload)
      simp [cppIsRecoveredColon, Node.isError, hne]
    simp [cppRecoveredBitfieldDeclaresFunction, hnone]

theorem parenthesized (h : Inert node) :
    parenthesizedChild cppDeclaresFunction cppParenthesizedDeclaresFunction node = true := by
  rw [parenthesizedChild]
  cases h with
  | kind h =>
    revert h
    cases node.kind <;> simp [Kind.isInert]
  | qualified hkind hname hplain =>
    rw [hkind, memberPointer_of_qualifies hname, if_neg hplain]
    rfl
  | width hkind => rw [hkind]

theorem names (h : Inert node) : cppDeclaratorNames node = 0 := by
  rw [namesOfNode]
  cases h with
  | kind h =>
    revert h
    cases node.kind <;> simp [Kind.isInert]
  | qualified hkind hname hplain =>
    rw [hkind, memberPointer_of_qualifies hname, if_neg hplain]
    rfl
  | width hkind => rw [hkind]

theorem kind_ne (h : Inert node) : node.kind ≠ .comma ∧ node.kind ≠ .error := by
  cases h with
  | kind h =>
    revert h
    cases node.kind <;> simp [Kind.isInert]
  | qualified hkind => simp [hkind]
  | width hkind => simp [hkind]

theorem not_colon (h : Inert node) : cppIsRecoveredColon node = false := by
  simp [cppIsRecoveredColon, Node.isError, h.kind_ne.2]

end Inert

/-! ### Lists of children -/

theorem anyChild_inert {us : List Node} (h : ∀ u ∈ us, Inert u) (rest : List Node) :
    anyChild cppChildDeclaresFunction false (us ++ rest) =
      anyChild cppChildDeclaresFunction false rest := by
  induction us with
  | nil => rfl
  | cons u us ih =>
    have hu := h u List.mem_cons_self
    rw [List.cons_append, anyChild, hu.declares, hu.not_colon, Bool.false_or,
      ih fun v hv => h v (List.mem_cons_of_mem _ hv), ite_self]

theorem namesOfChildren_inert {us : List Node} (h : ∀ u ∈ us, Inert u) :
    namesOfChildren us = 0 := by
  induction us with
  | nil => rfl
  | cons u us ih =>
    rw [namesOfChildren, (h u List.mem_cons_self).names,
      ih fun v hv => h v (List.mem_cons_of_mem _ hv)]

namespace Holds

variable {node child : Node}

theorem names (h : Holds node child) :
    namesOfChildren node.children = cppDeclaratorNames child := by
  obtain ⟨us, vs, hchildren, hus, hvs⟩ := h
  rw [hchildren, namesOfChildren_append, namesOfChildren, namesOfChildren_inert hus,
    namesOfChildren_inert hvs, Nat.zero_add, Nat.add_zero]

theorem parenthesized (h : Holds node child) : cppParenthesizedDeclaresFunction node =
    parenthesizedChild cppDeclaresFunction cppParenthesizedDeclaresFunction child := by
  obtain ⟨us, vs, hchildren, hus, hvs⟩ := h
  have hinert : ∀ l : List Node, (∀ x ∈ l, Inert x) → l.all
      (parenthesizedChild cppDeclaresFunction cppParenthesizedDeclaresFunction) = true :=
    fun l hl => List.all_eq_true.mpr fun x hx => (hl x hx).parenthesized
  rw [cppParenthesizedDeclaresFunction_eq, hchildren, List.all_append, List.all_cons,
    hinert us hus, hinert vs hvs, Bool.true_and, Bool.and_true]

theorem declares (h : Holds node child) (hcomment : child.kind ≠ .comment)
    (herror : child.kind ≠ .error) :
    cppDeclaresFunction node = cppChildDeclaresFunction child false := by
  obtain ⟨us, vs, hchildren, hus, hvs⟩ := h
  have hcolon : cppIsRecoveredColon child = false := by
    simp [cppIsRecoveredColon, Node.isError, herror]
  have hrest := anyChild_inert hvs []
  rw [List.append_nil] at hrest
  rw [cppDeclaresFunction_eq, hchildren, anyChild_inert hus, anyChild, if_neg hcomment, hcolon,
    hrest, anyChild, Bool.or_false]

end Holds

/-! ### Declarators -/

namespace Mirrors

variable {inside : Bool} {node : Node} {d : Declarator}

theorem kind_ne (h : Mirrors inside node d) :
    node.kind ≠ .comma ∧ node.kind ≠ .comment ∧ node.kind ≠ .error := by
  cases h with
  | field hkind | typeName hkind | operator hkind | pointer hkind | reference hkind | array hkind
  | parenthesized hkind | function hkind | memberPointer hkind => simp [hkind]

theorem not_colon (h : Mirrors inside node d) : cppIsRecoveredColon node = false := by
  simp [cppIsRecoveredColon, Node.isError, h.kind_ne.2.2]

theorem recoveredName_clean {l : List Node} (h : ∀ x ∈ l, x.kind ≠ .error ∧
    (x.kind = .typeIdentifier → x.startByte ≠ x.endByte)) : recoveredName false l = false := by
  induction l with
  | nil => rfl
  | cons x l ih =>
    obtain ⟨herror, hwidth⟩ := h x List.mem_cons_self
    have hx : x.isError = false := by simpa [Node.isError] using herror
    have hrest := ih fun y hy => h y (List.mem_cons_of_mem _ hy)
    by_cases hkind : x.kind = .typeIdentifier
    · simp [recoveredName, hx, hrest, hwidth hkind]
    · simp [recoveredName, hx, hrest, hkind]

/-- Clean parameter lists hold no recovered member pointer. -/
theorem parameters_clean (h : CleanParameters node) :
    (parametersOf node).filterMap (cppRecoveredMemberPointerParameter cppDeclaresFunction) = [] := by
  refine List.filterMap_eq_nil_iff.mpr fun parameter hparameter => ?_
  obtain ⟨list, hlist, hparameter⟩ := List.mem_flatMap.mp (List.mem_filter.mp hparameter).1
  have hclean := h list (by simpa using hlist)
  have hin := Rose.mem_nodes_of_mem_children (Rose.mem_nodes_self list) hparameter
  refine Option.bind_eq_none_iff.mpr fun qualified hqualified => if_neg ?_
  have hmem : cppInnermostQualified qualified ∈ list.nodes := innermostWithin_mem _
    (mem_nodes_of_childByFieldName hin (Option.eq_some_of_filter_eq_some hqualified))
  rw [recoveredName_clean fun x hx => hclean x (Rose.mem_nodes_of_mem_children hmem hx)]
  exact Bool.false_ne_true

theorem recovered_none (fuel : ℕ) (declarator : Option Node)
    (h : ∀ x, declarator = some x → ∃ inside d, Mirrors inside x d)
    (recovered : RecoveredMemberPointers) :
    recoveredWithin cppDeclaresFunction fuel declarator recovered = recovered := by
  induction fuel generalizing declarator with
  | zero => rfl
  | succ fuel ih =>
    rw [recoveredWithin]
    cases hlevel : declarator.filter fun level : Node => level.kind = .functionDeclarator with
    | none => rfl
    | some level =>
      obtain ⟨hsome, hkind⟩ := Option.filter_eq_some_iff.mp hlevel
      obtain ⟨inside, d, hd⟩ := h level hsome
      have hkind : level.kind = .functionDeclarator := by simpa using hkind
      cases hd with
      | function _ _ hfield hclean hchild =>
        simp only [parameters_clean hclean, List.foldl_nil]
        refine ih _ fun x hx => ?_
        rw [hfield] at hx
        cases hx
        exact ⟨_, _, hchild⟩
      | field hother | typeName hother | operator hother | pointer hother | reference hother
      | array hother | parenthesized hother | memberPointer hother => rw [hkind] at hother; cases hother

/-- What the metrics read of a declarator. A type's name is not counted, nor asked for: the
member pointer around it is. -/
theorem read (h : Mirrors inside node d) :
    cppChildDeclaresFunction node false = d.read ∧
      parenthesizedChild cppDeclaresFunction cppParenthesizedDeclaresFunction node = d.readInside ∧
      (inside = false → cppDeclaratorNames node = d.isCounted.toNat) := by
  induction h with
  | field hkind | operator hkind =>
    rw [cppChildDeclaresFunction, childDeclaresFunction, parenthesizedChild, namesOfNode, hkind]
    exact ⟨rfl, rfl, fun _ => rfl⟩
  | typeName hkind =>
    rw [cppChildDeclaresFunction, childDeclaresFunction, parenthesizedChild, hkind]
    exact ⟨rfl, rfl, fun hfalse => by cases hfalse⟩
  | pointer hkind hholds h ih =>
    rw [cppChildDeclaresFunction, childDeclaresFunction, parenthesizedChild, namesOfNode, hkind,
      hholds.declares h.kind_ne.2.1 h.kind_ne.2.2, hholds.names]
    exact ⟨ih.1, ih.1, ih.2.2⟩
  | reference hkind hholds h ih =>
    rw [cppChildDeclaresFunction, childDeclaresFunction, parenthesizedChild, namesOfNode, hkind,
      hholds.declares h.kind_ne.2.1 h.kind_ne.2.2, hholds.names]
    exact ⟨ih.1, ih.1, ih.2.2⟩
  | array hkind hholds h ih =>
    rw [cppChildDeclaresFunction, childDeclaresFunction, parenthesizedChild, namesOfNode, hkind,
      hholds.names]
    exact ⟨rfl, rfl, ih.2.2⟩
  | parenthesized hkind hholds h ih =>
    rw [cppChildDeclaresFunction, childDeclaresFunction, parenthesizedChild, namesOfNode, hkind,
      hholds.names, hholds.parenthesized]
    exact ⟨rfl, ih.2.1, ih.2.2⟩
  | @function inside node child d hkind hholds hfield hclean h ih =>
    have hunder : cppChildDeclaresFunction node false = d.readUnder := by
      rw [cppChildDeclaresFunction, childDeclaresFunction, hkind, hfield]
      cases h with
      | parenthesized hinner =>
        have hinside := ih.2.1
        rw [parenthesizedChild, hinner] at hinside
        simp only [hinner]
        exact hinside
      | function hinner hheld hdeclarator hparameters hchild =>
        have hnone : cppRecoveredMemberPointers cppDeclaresFunction node = ⟨0, false⟩ :=
          recovered_none _ _ (fun x hx => by
            cases hx
            exact ⟨_, _, .function hkind hholds hfield hclean
              (.function hinner hheld hdeclarator hparameters hchild)⟩) _
        simp only [hinner, hnone]
        rfl
      | field hinner | typeName hinner | operator hinner | pointer hinner | reference hinner
      | array hinner | memberPointer hinner =>
        simp only [hinner]
        rfl
    refine ⟨hunder, ?_, ?_⟩
    · rw [parenthesizedChild, hkind]
      rfl
    · rw [namesOfNode, hkind]
      exact fun hinside => hholds.names.trans (ih.2.2 hinside)
  | memberPointer hkind hname hpointer hholds h ih =>
    have hsome := memberPointer_of_qualifies hname
    rw [if_pos hpointer] at hsome
    rw [cppChildDeclaresFunction, childDeclaresFunction, parenthesizedChild, namesOfNode, hkind,
      hsome]
    simp only [Option.any_some, Option.all_some, Option.isSome_some,
      hholds.declares h.kind_ne.2.1 h.kind_ne.2.2]
    exact ⟨ih.1, ih.1, fun _ => rfl⟩

end Mirrors

/-! ### Declarations -/

theorem segmentsFrom_inert {us : List Node} (h : ∀ u ∈ us, Inert u) {segment : DeclaratorSegment}
    (hcolon : segment.afterColon = false) (rest : List Node) :
    segmentsFrom segment (us ++ rest) = segmentsFrom segment rest := by
  induction us with
  | nil => rfl
  | cons u us ih =>
    have hu := h u List.mem_cons_self
    have hsame : segment.read u = segment := by
      cases segment
      cases hcolon
      simp [DeclaratorSegment.read, hu.declares, hu.names, hu.not_colon]
    rw [List.cons_append, segmentsFrom, if_neg hu.kind_ne.1, hsame,
      ih fun v hv => h v (List.mem_cons_of_mem _ hv), ite_self]

/-- The segment one declarator makes. -/
def segmentOf (d : Declarator) : DeclaratorSegment := ⟨d.read, d.isCounted.toNat, false⟩

theorem read_of_mirrors {child : Node} {d : Declarator} (h : Mirrors false child d) :
    DeclaratorSegment.default.read child = segmentOf d := by
  obtain ⟨hread, -, hnames⟩ := h.read
  simp [DeclaratorSegment.read, DeclaratorSegment.default, segmentOf, hread, hnames rfl, h.not_colon]

theorem segments_of_declares {children : List Node} {ds : List Declarator}
    (h : Declares children ds) :
    segmentsFrom .default children = ds.map segmentOf ∧
      anyChild cppChildDeclaresFunction false children = ds.any Declarator.read := by
  induction h with
  | @last us vs child d hus hvs h =>
    have hend : segmentsFrom (segmentOf d) (vs ++ []) = [segmentOf d] :=
      segmentsFrom_inert hvs rfl []
    have hnone := anyChild_inert hvs []
    rw [List.append_nil] at hend hnone
    rw [segmentsFrom_inert hus rfl, segmentsFrom, if_neg h.kind_ne.1, if_neg h.kind_ne.2.1,
      read_of_mirrors h, hend, anyChild_inert hus, anyChild, if_neg h.kind_ne.2.1, h.not_colon,
      hnone, h.read.1]
    exact ⟨rfl, rfl⟩
  | @more us vs rest child comma d ds hus hvs h hcomma _ ih =>
    have hpast : segmentsFrom (segmentOf d) (vs ++ comma :: rest) =
        segmentsFrom (segmentOf d) (comma :: rest) := segmentsFrom_inert hvs rfl _
    have hcommaChild : anyChild cppChildDeclaresFunction false (comma :: rest) =
        anyChild cppChildDeclaresFunction false rest := by
      simp [anyChild, hcomma, cppChildDeclaresFunction, childDeclaresFunction, cppIsRecoveredColon,
        Node.isError]
    rw [segmentsFrom_inert hus rfl, segmentsFrom, if_neg h.kind_ne.1, if_neg h.kind_ne.2.1,
      read_of_mirrors h, hpast, segmentsFrom, if_pos hcomma, ih.1, anyChild_inert hus, anyChild,
      if_neg h.kind_ne.2.1, h.not_colon, anyChild_inert hvs, hcommaChild, ih.2, h.read.1]
    exact ⟨rfl, rfl⟩

theorem dataMembersFrom_eq (total : ℕ) (segment : DeclaratorSegment) (children : List Node) :
    dataMembersFrom total segment children =
      total + ((segmentsFrom segment children).map DeclaratorSegment.dataMembers).sum := by
  induction children generalizing total segment with
  | nil => simp [dataMembersFrom, segmentsFrom]
  | cons child rest ih =>
    rw [dataMembersFrom, segmentsFrom]
    split
    · rw [ih, List.map_cons, List.sum_cons, Nat.add_assoc]
    · split
      · exact ih total segment
      · exact ih total _

namespace MemberDeclaration

variable {member : MemberDeclaration}

theorem cppDeclaresFunction_outer :
    cppDeclaresFunction member.outer = member.declarators.any Declarator.read := by
  have hnode : cppDeclaresFunction member.node = member.declarators.any Declarator.read := by
    rw [cppDeclaresFunction_eq]
    exact (segments_of_declares member.mirrors).2
  rcases member.wraps with houter | ⟨hkind, hholds⟩
  · rw [houter, hnode]
  · rw [hholds.declares (by simp [hkind]) (by simp [hkind]), cppChildDeclaresFunction,
      childDeclaresFunction, hkind]
    exact hnode

theorem isCounted_of_namesField {d : Declarator} (h : d.namesField = true) :
    d.isCounted = true := by
  induction d with
  | name field => exact h
  | memberPointer d => rfl
  | pointer d ih | reference d ih | array d ih | parenthesized d ih | function d ih => exact ih h

theorem dataMembers_iff {d : Declarator}
    (h : d.namesField = false → d.declaresFunction = true) :
    (segmentOf d).dataMembers = (!d.declaresFunction).toNat ↔ d.Plain ∨ d.isCounted = false := by
  have hcounted : d.declaresFunction = false → d.isCounted = true := by
    intro hdata
    refine isCounted_of_namesField ?_
    by_contra hname
    rw [h (by simpa using hname)] at hdata
    cases hdata
  rw [← d.read_iff_plain, segmentOf, DeclaratorSegment.dataMembers]
  cases hread : d.read <;> cases hdeclares : d.declaresFunction <;>
    cases hcount : d.isCounted <;> simp_all

theorem sum_toNat {ι : Type*} (p : ι → Bool) (l : List ι) :
    (l.map fun x => (p x).toNat).sum = l.countP p := by
  induction l with
  | nil => rfl
  | cons x l ih =>
    rw [List.map_cons, List.sum_cons, ih, List.countP_cons]
    cases p x <;> simp [Nat.add_comm]

theorem cppFieldDataMembers_eq : cppFieldDataMembers member.node =
    ((segmentsFrom .default member.node.children).map DeclaratorSegment.dataMembers).sum := by
  rw [cppFieldDataMembers, dataMembersFrom_eq, Nat.zero_add]

/-- The two metrics count each declarator of a declaration once exactly if the reading goes
through each of them, an operator's name apart that nothing counts, where another declarator
makes the declaration a function. -/
theorem countsDeclarators_iff (member : MemberDeclaration) :
    member.CountsDeclarators ↔ ∀ d ∈ member.declarators, d.Plain ∨
      d.isCounted = false ∧ ∃ e ∈ member.declarators, e.Plain ∧ e.declaresFunction = true := by
  have hsegments := (segments_of_declares member.mirrors).1
  rw [CountsDeclarators, cppDeclaresFunction_outer, cppFieldDataMembers_eq, hsegments,
    List.map_map]
  constructor
  · rintro ⟨hany, hfield⟩ d hd
    by_cases hplain : d.Plain
    · exact Or.inl hplain
    by_cases hkind : member.node.kind = .fieldDeclaration
    · have heach : ∀ e ∈ member.declarators, e.Plain ∨ e.isCounted = false := fun e he =>
        (dataMembers_iff (member.operators hkind e he)).mp
          (List.map_inj_left.mp (hfield hkind).1 e he)
      have hfunction : ∀ e ∈ member.declarators, e.isCounted = false →
          e.declaresFunction = true := by
        intro e he hcount
        refine member.operators hkind e he ?_
        by_contra hname
        rw [isCounted_of_namesField (by simpa using hname)] at hcount
        cases hcount
      have hcount : d.isCounted = false := (heach d hd).resolve_left hplain
      obtain ⟨e, he, hread⟩ : ∃ e ∈ member.declarators, e.read = true := by
        rw [← List.any_eq_true, hany, List.any_eq_true]
        exact ⟨d, hd, hfunction d hd hcount⟩
      have hdeclares : e.declaresFunction = true := by
        rcases heach e he with hplain | hcount
        · rw [← e.read_iff_plain.mpr hplain, hread]
        · exact hfunction e he hcount
      exact Or.inr ⟨hcount, e, he, e.read_iff_plain.mp (by rw [hread, hdeclares]), hdeclares⟩
    · obtain ⟨only, honly⟩ := member.single hkind
      rw [honly] at hany hd
      obtain rfl := List.mem_singleton.mp hd
      rw [List.any_cons, List.any_cons, List.any_nil, Bool.or_false, List.any_nil,
        Bool.or_false] at hany
      exact absurd (d.read_iff_plain.mp hany) hplain
  · intro h
    have hreads : ∀ e : Declarator, e.Plain → e.declaresFunction = true → e.read = true :=
      fun e hplain hdeclares => by rw [e.read_iff_plain.mpr hplain, hdeclares]
    refine ⟨?_, fun hkind => ?_⟩
    · rw [Bool.eq_iff_iff, List.any_eq_true, List.any_eq_true]
      constructor
      · rintro ⟨d, hd, hread⟩
        rcases h d hd with hplain | ⟨-, e, he, -, hdeclares⟩
        · exact ⟨d, hd, by rw [← d.read_iff_plain.mpr hplain, hread]⟩
        · exact ⟨e, he, hdeclares⟩
      · rintro ⟨d, hd, hdeclares⟩
        rcases h d hd with hplain | ⟨-, e, he, hplain, heDeclares⟩
        · exact ⟨d, hd, hreads d hplain hdeclares⟩
        · exact ⟨e, he, hreads e hplain heDeclares⟩
    · have hmap : member.declarators.map (DeclaratorSegment.dataMembers ∘ segmentOf) =
          member.declarators.map fun d => (!d.declaresFunction).toNat :=
        List.map_congr_left fun d hd => (dataMembers_iff (member.operators hkind d hd)).mpr
          ((h d hd).imp_right And.left)
      exact ⟨hmap, by rw [hmap, sum_toNat]⟩

/-! ### A function that returns a pointer to an array -/

def token (id start stop : ℕ) : Node := .node ⟨⟨.other id, false, start, stop⟩, none⟩ []

theorem tokens_inert (l : List (ℕ × ℕ × ℕ)) :
    ∀ v ∈ l.map fun (id, start, stop) => token id start stop, Inert v := by
  intro v hv
  obtain ⟨_, -, rfl⟩ := List.mem_map.mp hv
  exact .kind rfl

/-- `(*f())` as the declarator of an array. -/
def pointerToArray : Node :=
  let name : Node := .node ⟨⟨.fieldIdentifier, true, 6, 7⟩, some "declarator"⟩ []
  let parameters : Node := .node ⟨⟨.other 1, true, 7, 9⟩, some "parameters"⟩
    [token 2 7 8, token 3 8 9]
  let function : Node := .node ⟨⟨.functionDeclarator, true, 6, 9⟩, some "declarator"⟩
    [name, parameters]
  let pointer : Node := .node ⟨⟨.pointerDeclarator, true, 5, 9⟩, none⟩ [token 4 5 6, function]
  .node ⟨⟨.parenthesizedDeclarator, true, 4, 10⟩, some "declarator"⟩
    [token 2 4 5, pointer, token 3 9 10]

theorem mirrors_pointerToArray :
    Mirrors false pointerToArray (.parenthesized (.pointer (.function (.name true)))) := by
  refine .parenthesized rfl ⟨_, _, rfl, tokens_inert [(2, 4, 5)], tokens_inert [(3, 9, 10)]⟩
    (.pointer rfl ⟨_, _, rfl, tokens_inert [(4, 5, 6)], tokens_inert []⟩
      (.function rfl ⟨[], [_], rfl, tokens_inert [], ?_⟩ rfl ?_ (.field rfl)))
  · intro v hv
    obtain rfl := List.mem_singleton.mp hv
    exact .kind rfl
  · intro list hlist x hx
    cases hlist
    simp [Rose.nodes, Rose.forestNodes, token] at hx
    rcases hx with rfl | rfl | rfl <;> exact ⟨by decide, by decide⟩

/-- The tree of `int (*f())[3];`. -/
def arrayReturningField : Node :=
  let declarator : Node := .node ⟨⟨.arrayDeclarator, true, 4, 13⟩, some "declarator"⟩
    [pointerToArray, token 5 10 11, token 6 11 12, token 7 12 13]
  .node ⟨⟨.fieldDeclaration, true, 0, 14⟩, none⟩ [token 0 0 3, declarator, token 8 13 14]

def arrayReturning : MemberDeclaration where
  outer := arrayReturningField
  node := arrayReturningField
  declarators := [.array (.parenthesized (.pointer (.function (.name true))))]
  wraps := Or.inl rfl
  mirrors := .last (tokens_inert [(0, 0, 3)]) (tokens_inert [(8, 13, 14)]) (.array rfl
    ⟨_, _, rfl, tokens_inert [], tokens_inert [(5, 10, 11), (6, 11, 12), (7, 12, 13)]⟩
    mirrors_pointerToArray)
  single := fun h => absurd rfl h
  operators := by
    intro _ d hd hname
    obtain rfl := List.mem_singleton.mp hd
    cases hname

theorem not_countsDeclarators_arrayReturning : ¬ arrayReturning.CountsDeclarators := by
  rintro ⟨h, -⟩
  rw [cppDeclaresFunction_outer] at h
  exact absurd h (by decide)

end MemberDeclaration

end BigCodeAnalysis.Languages.Cpp
