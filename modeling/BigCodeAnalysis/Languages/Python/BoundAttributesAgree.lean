import BigCodeAnalysis.Languages.Python.BoundAttributesWalk
import Mathlib.Logic.Relation

/-! The attributes that the walk of a method collects are those that climb to an assignment of
the method's own scope, each once. A class has the names its body binds and the names of these
attributes. -/

namespace BigCodeAnalysis.Languages.Python

open Trees

/-! ### The climb -/

theorem assignment_not_pattern {node : Node} (h : node.kind = .assignment) :
    isTargetPattern node = false := by
  rw [isTargetPattern, h]
  decide

/-- The target of an assignment, found by its id. -/
def IsTarget (assignment below : Node) : Prop :=
  ∃ first : Node, assignment.child 0 = some first ∧ first.id = below.id

/-- The climb passes patterns and ends at an assignment through its target. -/
theorem climbsToAssignment_iff {below : Node} {up : List Node} :
    climbsToAssignment below up = true ↔ ∃ ws a rest,
      up = ws ++ a :: rest ∧ (∀ w ∈ ws, isTargetPattern w = true) ∧ a.kind = .assignment ∧
        IsTarget a (ws.getLast?.getD below) := by
  induction up generalizing below with
  | nil => simp [climbsToAssignment]
  | cons x up ih =>
    rw [climbsToAssignment]
    by_cases hkind : x.kind = .assignment
    · rw [if_pos hkind, Option.any_eq_true]
      constructor
      · rintro ⟨first, hfirst, hid⟩
        exact ⟨[], x, up, rfl, by simp, hkind, first, hfirst, of_decide_eq_true hid⟩
      · rintro ⟨ws, a, rest, hup, hws, ha, first, hfirst, hid⟩
        cases ws with
        | nil =>
          obtain ⟨rfl, rfl⟩ := List.cons.inj hup
          exact ⟨first, hfirst, decide_eq_true hid⟩
        | cons w ws =>
          obtain ⟨rfl, -⟩ := List.cons.inj hup
          have hpattern := hws _ List.mem_cons_self
          rw [assignment_not_pattern hkind] at hpattern
          cases hpattern
    · rw [if_neg hkind]
      by_cases hpattern : isTargetPattern x = true
      · rw [hpattern, Bool.not_true, if_neg Bool.false_ne_true, ih]
        constructor
        · rintro ⟨ws, a, rest, rfl, hws, ha, htarget⟩
          refine ⟨x :: ws, a, rest, rfl, List.forall_mem_cons.mpr ⟨hpattern, hws⟩, ha, ?_⟩
          rw [List.getLast?_cons]
          exact htarget
        · rintro ⟨ws, a, rest, hup, hws, ha, htarget⟩
          cases ws with
          | nil =>
            obtain ⟨rfl, -⟩ := List.cons.inj hup
            exact absurd ha hkind
          | cons w ws =>
            obtain ⟨rfl, htail⟩ := List.cons.inj hup
            rw [List.getLast?_cons] at htarget
            exact ⟨ws, a, rest, htail, fun w hw => hws w (List.mem_cons_of_mem _ hw), ha, htarget⟩
      · rw [Bool.not_eq_true] at hpattern
        rw [hpattern, Bool.not_false, if_pos rfl]
        refine iff_of_false Bool.false_ne_true ?_
        rintro ⟨ws, a, rest, hup, hws, ha, -⟩
        cases ws with
        | nil =>
          obtain ⟨rfl, -⟩ := List.cons.inj hup
          exact hkind ha
        | cons w ws =>
          obtain ⟨rfl, -⟩ := List.cons.inj hup
          rw [hws _ List.mem_cons_self] at hpattern
          cases hpattern

/-- The climb, read from the top: the last node above that is no pattern is the assignment. -/
theorem memberOwns_iff {e : Node} {above : List Node} :
    memberOwns e above = true ↔ e.kind = .attribute ∧ (pythonSelfReceiver e).isSome = true ∧
      ∃ top a ws, above = top ++ a :: ws ∧ (∀ w ∈ ws, isTargetPattern w = true) ∧
        a.kind = .assignment ∧ IsTarget a (ws.head?.getD e) := by
  rw [memberOwns, Bool.and_eq_true, decide_eq_true_iff, pythonIsBoundSelfAttribute,
    Bool.and_eq_true, climbsToAssignment_iff]
  refine and_congr_right fun _ => and_congr_right fun _ => ⟨?_, ?_⟩
  · rintro ⟨ws, a, rest, hup, hws, ha, htarget⟩
    refine ⟨rest.reverse, a, ws.reverse, ?_, fun w hw => hws w (List.mem_reverse.mp hw), ha, ?_⟩
    · rw [← List.reverse_reverse above, hup]
      simp
    · rwa [List.head?_reverse]
  · rintro ⟨top, a, ws, rfl, hws, ha, htarget⟩
    refine ⟨ws.reverse, a, top.reverse, by simp, fun w hw => hws w (List.mem_reverse.mp hw), ha,
      ?_⟩
    rwa [List.getLast?_reverse]

/-- Two ways to cut a list behind its last node that is no pattern. -/
theorem cut_unique {top top' ws ws' : List Node} {a a' : Node}
    (h : top ++ a :: ws = top' ++ a' :: ws') (ha : isTargetPattern a = false)
    (ha' : isTargetPattern a' = false) (hws : ∀ w ∈ ws, isTargetPattern w = true)
    (hws' : ∀ w ∈ ws', isTargetPattern w = true) : top = top' ∧ a = a' ∧ ws = ws' := by
  rcases List.append_eq_append_iff.mp h with ⟨r, rfl, hr⟩ | ⟨r, rfl, hr⟩
  · cases r with
    | nil => exact ⟨(List.append_nil _).symm, List.cons.inj hr⟩
    | cons b r =>
      obtain ⟨-, rfl⟩ := List.cons.inj hr
      rw [hws a' (by simp)] at ha'
      cases ha'
  · cases r with
    | nil =>
      obtain ⟨rfl, rfl⟩ := List.cons.inj hr
      exact ⟨List.append_nil _, rfl, rfl⟩
    | cons b r =>
      obtain ⟨-, rfl⟩ := List.cons.inj hr
      rw [hws' a (by simp)] at ha
      cases ha

/-! ### Methods -/

/-- A `def`, its nodes told apart by their ids. -/
structure Method where
  func : Node
  isFunction : func.kind = .functionDefinition
  ids : (func.nodes.map Node.id).Nodup

namespace Method

variable (m : Method)

/-- A self attribute in the method's own scope, bound by an assignment if the chain of its
ancestors says so. The chain goes on above the method. -/
def Binds (above : List Node) (e : Node) : Prop :=
  ∃ p, IsPath m.func (m.func :: p ++ [e]) ∧ (∀ y ∈ p, isBoundary y = false) ∧
    memberOwns e (above ++ m.func :: p) = true ∧ (pythonSelfAttributeName e).isSome = true

theorem mem_assignmentsIn_iff {a : Node} :
    a ∈ assignmentsIn m.func ↔ a.kind = .assignment ∧
      ∃ p, IsPath m.func (m.func :: p ++ [a]) ∧ ∀ y ∈ p, isBoundary y = false := by
  rw [assignmentsIn, List.mem_filter, decide_eq_true_iff, and_comm]
  refine and_congr_right fun hkind => ?_
  have ha : isBoundary a = false := by
    rw [isBoundary, hkind]
    decide
  rw [mem_regionOf_iff]
  constructor
  · rintro ⟨c, hc, hregion⟩
    obtain ⟨p, hpath, hclear⟩ := mem_region_iff.mp hregion
    refine ⟨p, hpath.of_child hc, fun y hy => hclear y (List.mem_append_left _ hy)⟩
  · rintro ⟨p, hpath, hclear⟩
    obtain ⟨c, q, hq⟩ : ∃ c q, p ++ [a] = c :: q := List.exists_cons_of_ne_nil (by simp)
    rw [List.cons_append, hq] at hpath
    obtain ⟨hc, hbelow⟩ := hpath.cons
    rw [← hq] at hbelow
    refine ⟨c, hc, mem_region_iff.mpr ⟨p, hbelow, fun y hy => ?_⟩⟩
    rcases List.mem_append.mp hy with hy | hy
    · exact hclear y hy
    · rwa [List.mem_singleton.mp hy]

/-- The attributes the walk hands over, in the order it does. -/
def walkedAttributes : List Node :=
  pythonCollectSelfAttrsInSubtree (fun out element _ => out ++ [element]) m.func []

theorem walkedAttributes_eq :
    m.walkedAttributes = ((assignmentsIn m.func).flatMap boundIn).map Prod.fst := by
  rw [walkedAttributes, pythonCollectSelfAttrsInSubtree_eq, List.foldl_append_eq_append,
    List.nil_append, ← List.flatMap_def, ← List.map_eq_flatMap]

/-- What an assignment hands over, by the path down from it. -/
theorem mem_boundIn_iff {a e : Node} {name : List UInt8} :
    (e, name) ∈ boundIn a ↔ pythonSelfAttributeName e = some name ∧
      ∃ target ws, a.child 0 = some target ∧ IsPath target (ws ++ [e]) ∧
        (∀ w ∈ ws, isTargetPattern w = true) ∧ memberOwns e (a :: ws) = true := by
  rw [boundIn]
  cases a.child 0 with
  | none => simp
  | some target =>
    dsimp only
    rw [List.mem_filterMap]
    constructor
    · rintro ⟨⟨e', above⟩, hmem, hname⟩
      obtain ⟨ws, rfl, hpath, hws, -⟩ := mem_elements_iff.mp hmem
      split at hname
      case isFalse => cases hname
      case isTrue howns =>
        obtain ⟨name', hsome, heq⟩ := Option.map_eq_some_iff.mp hname
        obtain ⟨rfl, rfl⟩ := Prod.mk.inj heq
        exact ⟨hsome, target, ws, rfl, hpath, hws, howns⟩
    · rintro ⟨hname, _, ws, htarget, hpath, hws, howns⟩
      obtain rfl := Option.some_inj.mp htarget
      have he : isTargetPattern e = false := by
        rw [isTargetPattern, (memberOwns_iff.mp howns).1]
        decide
      refine ⟨(e, a :: ws), mem_elements_iff.mpr ⟨ws, rfl, hpath, hws, he⟩, ?_⟩
      dsimp only
      rw [if_pos howns, hname]
      rfl

theorem pattern_not_boundary {node : Node} (h : isTargetPattern node = true) :
    isBoundary node = false := by
  rw [isTargetPattern, decide_eq_true_iff, pythonTargetPatternKinds] at h
  rw [isBoundary]
  simp only [List.mem_cons, List.not_mem_nil, or_false] at h
  rcases h with h | h | h | h | h | h <;> rw [h] <;> decide

/-- A node above the last assignment has no say in the climb. -/
theorem memberOwns_above (top top' : List Node) {e a : Node} {ws : List Node}
    (hws : ∀ w ∈ ws, isTargetPattern w = true) (ha : a.kind = .assignment)
    (h : memberOwns e (top ++ a :: ws) = true) : memberOwns e (top' ++ a :: ws) = true := by
  obtain ⟨hkind, hself, t, b, vs, hcut, hvs, hb, htarget⟩ := memberOwns_iff.mp h
  obtain ⟨-, rfl, rfl⟩ := cut_unique hcut (assignment_not_pattern ha) (assignment_not_pattern hb)
    hws hvs
  exact memberOwns_iff.mpr ⟨hkind, hself, top', a, ws, rfl, hws, ha, htarget⟩

/-- Cutting at the assignment stays below the method. -/
theorem cut_below_func {above p top ws : List Node} {a : Node} (ha : a.kind = .assignment)
    (hws : ∀ w ∈ ws, isTargetPattern w = true)
    (h : above ++ m.func :: p = top ++ a :: ws) : ∃ q, p = q ++ a :: ws := by
  have hfunc : isTargetPattern m.func = false := by
    rw [isTargetPattern, m.isFunction]
    decide
  rcases List.append_eq_append_iff.mp h with ⟨r, rfl, hr⟩ | ⟨r, rfl, hr⟩
  · cases r with
    | nil =>
      obtain ⟨rfl, -⟩ := List.cons.inj hr
      rw [m.isFunction] at ha
      cases ha
    | cons b r =>
      obtain ⟨rfl, rfl⟩ := List.cons.inj hr
      exact ⟨r, rfl⟩
  · cases r with
    | nil =>
      obtain ⟨rfl, -⟩ := List.cons.inj hr
      rw [m.isFunction] at ha
      cases ha
    | cons b r =>
      obtain ⟨-, rfl⟩ := List.cons.inj hr
      rw [hws m.func (by simp)] at hfunc
      cases hfunc

/-- The target that a path goes on into is the one the climb finds by its id. -/
theorem child_eq_of_isTarget {p : List Node} {a c : Node}
    (hpath : IsPath m.func (p ++ [a])) (hc : c ∈ a.children) (h : IsTarget a c) :
    a.child 0 = some c := by
  obtain ⟨first, hfirst, hid⟩ := h
  have hnodes : (a.nodes.map Node.id).Nodup :=
    m.ids.sublist ((Rose.nodes_sublist_nodes hpath.last_mem_nodes).map _)
  rw [Rose.nodes_eq, List.map_cons, List.nodup_cons] at hnodes
  have hself : ∀ t : Node, t ∈ t.nodes := fun t => by
    rw [Rose.nodes_eq]
    exact List.mem_cons_self
  have hsame : first = c := child_of_key_eq hnodes.2 (List.mem_of_getElem? hfirst) hc
    (hself first) (hself c) hid
  rw [hfirst, hsame]

/-- The path from the method through the assignment that hands an attribute over. -/
theorem exists_path_through {a e : Node} {name : List UInt8} (ha : a ∈ assignmentsIn m.func)
    (h : (e, name) ∈ boundIn a) :
    ∃ p ws, IsPath m.func (m.func :: (p ++ a :: ws) ++ [e]) ∧ (∀ y ∈ p, isBoundary y = false) ∧
      (∀ w ∈ ws, isTargetPattern w = true) ∧ memberOwns e (a :: ws) = true := by
  obtain ⟨-, p, hpath, hclear⟩ := m.mem_assignmentsIn_iff.mp ha
  obtain ⟨-, target, ws, htarget, hbelow, hws, howns⟩ := mem_boundIn_iff.mp h
  obtain ⟨c, q, hq⟩ : ∃ c q, ws ++ [e] = c :: q := List.exists_cons_of_ne_nil (by simp)
  obtain rfl : c = target := by
    have hhead := hbelow.1
    rw [hq] at hhead
    exact Option.some_inj.mp hhead
  have hsplit : m.func :: (p ++ a :: ws) ++ [e] = m.func :: p ++ a :: c :: q := by
    rw [← hq]
    simp
  refine ⟨p, ws, ?_, hclear, hws, howns⟩
  rw [hsplit]
  exact isPath_append_iff.mpr ⟨hpath, List.mem_of_getElem? htarget, hq ▸ hbelow⟩

/-- The walk down and the climb up find the same attributes. -/
theorem mem_walkedAttributes_iff (above : List Node) {e : Node} :
    e ∈ m.walkedAttributes ↔ m.Binds above e := by
  rw [walkedAttributes_eq, List.mem_map]
  constructor
  · rintro ⟨⟨e, name⟩, hmem, rfl⟩
    obtain ⟨a, ha, hbound⟩ := List.mem_flatMap.mp hmem
    have hkind := (m.mem_assignmentsIn_iff.mp ha).1
    have hname := (mem_boundIn_iff.mp hbound).1
    obtain ⟨p, ws, hpath, hclear, hws, howns⟩ := m.exists_path_through ha hbound
    refine ⟨p ++ a :: ws, hpath, ?_, ?_, Option.isSome_of_eq_some hname⟩
    · intro y hy
      rcases List.mem_append.mp hy with hy | hy
      · exact hclear y hy
      rcases List.mem_cons.mp hy with rfl | hy
      · rw [isBoundary, hkind]
        decide
      · exact pattern_not_boundary (hws y hy)
    · have hall := memberOwns_above [] (above ++ m.func :: p) hws hkind howns
      simpa using hall
  · rintro ⟨p, hpath, hclear, howns, hname⟩
    obtain ⟨hattr, hself, top, a, ws, hcut, hws, ha, htarget⟩ := memberOwns_iff.mp howns
    obtain ⟨q, rfl⟩ := m.cut_below_func ha hws hcut
    obtain ⟨name, hname⟩ := Option.isSome_iff_exists.mp hname
    obtain ⟨c, r, hr⟩ : ∃ c r, ws ++ [e] = c :: r := List.exists_cons_of_ne_nil (by simp)
    have hhead : ws.head?.getD e = c := by
      cases ws with
      | nil => exact (List.cons.inj hr).1
      | cons w ws => exact (List.cons.inj hr).1
    have hsplit : m.func :: (q ++ a :: ws) ++ [e] = m.func :: q ++ a :: c :: r := by
      rw [← hr]
      simp
    rw [hsplit] at hpath
    obtain ⟨hassignment, hc, hbelow⟩ := isPath_append_iff.mp hpath
    rw [hhead] at htarget
    refine ⟨(e, name), List.mem_flatMap.mpr ⟨a, ?_, mem_boundIn_iff.mpr ⟨hname, c, ws, ?_, ?_, hws,
      ?_⟩⟩, rfl⟩
    · exact m.mem_assignmentsIn_iff.mpr
        ⟨ha, q, hassignment, fun y hy => hclear y (List.mem_append_left _ hy)⟩
    · exact m.child_eq_of_isTarget hassignment hc htarget
    · rw [hr]
      exact hbelow
    · refine memberOwns_above (above ++ m.func :: q) [] hws ha ?_
      simpa using howns

/-! ### Each attribute once -/

theorem nodup_nodes : m.func.nodes.Nodup := m.ids.of_map

theorem nodup_assignmentsIn : (assignmentsIn m.func).Nodup := by
  obtain ⟨l, hperm, hsub⟩ := region_perm_sublist.2 m.func.children
  have hnodes := m.nodup_nodes
  rw [Rose.nodes_eq, List.nodup_cons] at hnodes
  exact (hperm.nodup_iff.mpr (hnodes.2.sublist hsub)).filter _

/-- The attributes of one assignment, in document order. -/
theorem boundIn_sublist (a : Node) : ((boundIn a).map Prod.fst).Sublist a.nodes := by
  rw [boundIn]
  cases hchild : a.child 0 with
  | none => exact List.nil_sublist _
  | some target =>
    dsimp only
    have htarget : target.nodes.Sublist a.nodes := by
      rw [Rose.nodes_eq a]
      exact (Rose.nodes_sublist_of_mem (List.mem_of_getElem? hchild)).cons _
    refine List.Sublist.trans ?_ ((elements_sublist.1 target [a]).trans htarget)
    induction elements [a] target with
    | nil => exact List.Sublist.refl _
    | cons e found ih =>
      rw [List.map_cons, List.filterMap_cons]
      split
      · exact ih.cons _
      · next heq =>
        split at heq
        case isFalse => cases heq
        case isTrue =>
          obtain ⟨name, -, rfl⟩ := Option.map_eq_some_iff.mp heq
          exact ih.cons_cons _

/-- An attribute has one path above it, and so one assignment. -/
theorem nodup_walkedAttributes : m.walkedAttributes.Nodup := by
  rw [walkedAttributes_eq, List.map_flatMap, List.nodup_flatMap]
  constructor
  · intro a ha
    obtain ⟨-, p, hpath, -⟩ := m.mem_assignmentsIn_iff.mp ha
    have hsub := Rose.nodes_sublist_nodes hpath.last_mem_nodes
    exact m.nodup_nodes.sublist ((boundIn_sublist a).trans hsub)
  · refine m.nodup_assignmentsIn.imp_of_mem fun {a b} ha hb hne => ?_
    intro e hea heb
    obtain ⟨⟨_, name⟩, hboundA, rfl⟩ := List.mem_map.mp hea
    obtain ⟨⟨_, name'⟩, hboundB, rfl⟩ := List.mem_map.mp heb
    obtain ⟨p, ws, hpath, -, hws, -⟩ := m.exists_path_through ha hboundA
    obtain ⟨q, vs, hpath', -, hvs, -⟩ := m.exists_path_through hb hboundB
    have hsame := List.append_cancel_right (hpath.unique m.ids hpath' rfl)
    exact hne (cut_unique (List.cons.inj hsame).2
      (assignment_not_pattern (m.mem_assignmentsIn_iff.mp ha).1)
      (assignment_not_pattern (m.mem_assignmentsIn_iff.mp hb).1) hws hvs).2.1

end Method

/-! ### Names of a class body -/

/-- A fold that adds to a set what each entry stands for. -/
theorem mem_foldl_iff {β γ : Type*} {f : Finset γ → β → Finset γ} {P : β → γ → Prop}
    (hstep : ∀ s b c, c ∈ f s b ↔ c ∈ s ∨ P b c) (bs : List β) (s : Finset γ) (c : γ) :
    c ∈ bs.foldl f s ↔ c ∈ s ∨ ∃ b ∈ bs, P b c := by
  induction bs generalizing s with
  | nil => simp
  | cons b bs ih =>
    rw [List.foldl_cons, ih, hstep, or_assoc, List.exists_mem_cons_iff]

/-- The value of an assignment is an assignment itself. -/
def IsChained (assignment value : Node) : Prop :=
  assignment.child (assignment.childCount - 1) = some value ∧ value.kind = .assignment

/-- An identifier of the target, under patterns only. -/
def TargetNames (assignment : Node) (name : List UInt8) : Prop :=
  ∃ (target : Node) (p : List Node) (e : Node), assignment.child 0 = some target ∧
    IsPath target (p ++ [e]) ∧ (∀ w ∈ p, isTargetPattern w = true) ∧ e.kind = .identifier ∧
    e.text = name

/-- A name that an assignment binds, or one of those it is chained to. -/
def AssignmentBinds (assignment : Node) (name : List UInt8) : Prop :=
  ∃ value, Relation.ReflTransGen IsChained assignment value ∧ TargetNames value name

theorem assignmentBinds_iff {assignment : Node} {name : List UInt8} :
    AssignmentBinds assignment name ↔ TargetNames assignment name ∨
      ∃ value, IsChained assignment value ∧ AssignmentBinds value name := by
  constructor
  · rintro ⟨value, hchain, hname⟩
    rcases hchain.cases_head with rfl | ⟨next, hnext, hrest⟩
    · exact Or.inl hname
    · exact Or.inr ⟨next, hnext, value, hrest, hname⟩
  · rintro (hname | ⟨next, hnext, value, hrest, hname⟩)
    · exact ⟨assignment, Relation.ReflTransGen.refl, hname⟩
    · exact ⟨value, hrest.head hnext, hname⟩

theorem mem_collectName (seen : Finset (List UInt8)) (element : Node) (name : List UInt8) :
    name ∈ collectName seen element ↔
      name ∈ seen ∨ element.kind = .identifier ∧ element.text = name := by
  rw [collectName]
  split
  · next hkind =>
    rw [Finset.mem_insert]
    constructor
    · rintro (rfl | hseen)
      · exact Or.inr ⟨hkind, rfl⟩
      · exact Or.inl hseen
    · rintro (hseen | ⟨-, rfl⟩)
      · exact Or.inr hseen
      · exact Or.inl rfl
  · next hkind => simp [hkind]

theorem mem_targetNames {assignment target : Node} (htarget : assignment.child 0 = some target)
    (seen : Finset (List UInt8)) (name : List UInt8) :
    name ∈ (pythonWalkTargetElements (fun seen element _ => collectName seen element) target []
      seen).2 ↔ name ∈ seen ∨ TargetNames assignment name := by
  rw [pythonWalkTargetElements_eq, collectAll,
    mem_foldl_iff fun seen (e : Node × List Node) name => mem_collectName seen e.1 name]
  refine or_congr_right ⟨?_, ?_⟩
  · rintro ⟨⟨e, above⟩, hmem, hkind, hname⟩
    obtain ⟨ws, -, hpath, hws, -⟩ := mem_elements_iff.mp hmem
    exact ⟨target, ws, e, htarget, hpath, hws, hkind, hname⟩
  · rintro ⟨t, ws, e, ht, hpath, hws, hkind, hname⟩
    obtain rfl := Option.some_inj.mp (ht.symm.trans htarget)
    have he : isTargetPattern e = false := by
      rw [isTargetPattern, hkind]
      decide
    exact ⟨(e, ws), mem_elements_iff.mpr ⟨ws, rfl, hpath, hws, he⟩, hkind, hname⟩

/-- The turns allowed are enough for the whole chain of assignments. -/
theorem mem_boundNamesWithin {depth : ℕ} {assignment : Node} (hdepth : assignment.size ≤ depth)
    (seen : Finset (List UInt8)) (name : List UInt8) :
    name ∈ boundNamesWithin depth assignment seen ↔
      name ∈ seen ∨ AssignmentBinds assignment name := by
  induction depth generalizing assignment seen with
  | zero =>
    rw [Rose.size_eq] at hdepth
    omega
  | succ depth ih =>
    rw [boundNamesWithin, assignmentBinds_iff]
    cases hchild : assignment.child 0 with
    | none =>
      have hnone : assignment.children = [] := by
        simpa [FieldTree.child] using hchild
      have hname : ¬ TargetNames assignment name := by
        rintro ⟨target, -, -, htarget, -⟩
        rw [hchild] at htarget
        cases htarget
      have hchain : ∀ value, ¬ IsChained assignment value := by
        rintro value ⟨hvalue, -⟩
        rw [FieldTree.child, hnone] at hvalue
        cases hvalue
      simp [hname, hchain]
    | some target =>
      dsimp only
      split
      · next value hvalue =>
        obtain ⟨hlast, hkind⟩ := Option.filter_eq_some_iff.mp hvalue
        have hsize := Rose.size_le_forestSize (List.mem_of_getElem? hlast)
        rw [Rose.size_eq] at hdepth
        rw [ih (by omega), mem_targetNames hchild, or_assoc]
        refine or_congr_right (or_congr_right ⟨fun h => ⟨value, ⟨hlast, of_decide_eq_true hkind⟩,
          h⟩, ?_⟩)
        rintro ⟨v, ⟨hv, -⟩, hbinds⟩
        obtain rfl := Option.some_inj.mp (hv.symm.trans hlast)
        exact hbinds
      · next hvalue =>
        rw [mem_targetNames hchild]
        refine or_congr_right (or_iff_left ?_).symm
        rintro ⟨v, ⟨hv, hkind⟩, -⟩
        rw [Option.filter_eq_none_iff] at hvalue
        exact hvalue v hv (decide_eq_true hkind)

/-! ### Classes -/

/-- A class, its nodes told apart by their ids. -/
structure Class where
  node : Node
  isClass : node.kind = .classDefinition
  ids : (node.nodes.map Node.id).Nodup

namespace Class

variable (c : Class)

/-- The functions that the body defines. -/
def methods : Set Method :=
  {m | ∃ (body stmt : Node), pythonClassBody c.node = some body ∧ stmt ∈ body.children ∧
    pythonUnwrapFunction stmt = some m.func}

/-- A name of the class: bound by its body, or by an attribute of a method. -/
def BindsName (name : List UInt8) : Prop :=
  (∃ body, pythonClassBody c.node = some body ∧
    ∃ a ∈ classLevelAssignments body, AssignmentBinds a name) ∨
  ∃ m ∈ c.methods, ∃ e ∈ m.walkedAttributes, pythonSelfAttributeName e = some name

theorem unwrapFunction_spec {stmt func : Node} (h : pythonUnwrapFunction stmt = some func) :
    func.kind = .functionDefinition ∧ func.nodes.Sublist stmt.nodes := by
  rw [pythonUnwrapFunction] at h
  split at h
  · next hkind =>
    obtain rfl := Option.some_inj.mp h
    exact ⟨hkind, List.Sublist.refl _⟩
  · split at h
    · have hkind := List.find?_some h
      refine ⟨of_decide_eq_true hkind, ?_⟩
      rw [Rose.nodes_eq stmt]
      exact (Rose.nodes_sublist_of_mem (List.mem_of_find?_eq_some h)).cons _
    · cases h

/-- Functions of the body are methods, with the ids of the class. -/
def method {body stmt func : Node} (hbody : pythonClassBody c.node = some body)
    (hstmt : stmt ∈ body.children) (hfunc : pythonUnwrapFunction stmt = some func) : Method where
  func := func
  isFunction := (unwrapFunction_spec hfunc).1
  ids := by
    have hbelow : body.nodes.Sublist c.node.nodes := by
      rw [Rose.nodes_eq c.node]
      exact (Rose.nodes_sublist_of_mem (List.mem_of_find?_eq_some hbody)).cons _
    have hinner : stmt.nodes.Sublist body.nodes := by
      rw [Rose.nodes_eq body]
      exact (Rose.nodes_sublist_of_mem hstmt).cons _
    exact c.ids.sublist
      ((((unwrapFunction_spec hfunc).2.trans hinner).trans hbelow).map Node.id)

theorem mem_collectSelfAttrs (func : Node) (seen : Finset (List UInt8)) (name : List UInt8) :
    name ∈ pythonCollectSelfAttrsInSubtree insertName func seen ↔
      name ∈ seen ∨ ∃ p ∈ (assignmentsIn func).flatMap boundIn, p.2 = name := by
  rw [pythonCollectSelfAttrsInSubtree_eq]
  refine mem_foldl_iff (fun seen p name => ?_) _ _ _
  rw [insertName, Finset.mem_insert, or_comm, eq_comm]

theorem mem_collectUniqueSelfAttrs (body : Node) (seen : Finset (List UInt8))
    (name : List UInt8) :
    name ∈ pythonCollectUniqueSelfAttrs body seen ↔ name ∈ seen ∨ ∃ stmt ∈ body.children,
      ∃ func, pythonUnwrapFunction stmt = some func ∧
        ∃ p ∈ (assignmentsIn func).flatMap boundIn, p.2 = name := by
  rw [pythonCollectUniqueSelfAttrs]
  refine mem_foldl_iff (P := fun stmt name => ∃ func, pythonUnwrapFunction stmt = some func ∧
    ∃ p ∈ (assignmentsIn func).flatMap boundIn, p.2 = name) (fun seen stmt name => ?_) _ _ _
  cases pythonUnwrapFunction stmt with
  | none => simp
  | some func => simpa using mem_collectSelfAttrs func seen name

theorem mem_collectClassLevelAttrs (body : Node) (seen : Finset (List UInt8))
    (name : List UInt8) :
    name ∈ pythonCollectClassLevelAttrs body seen ↔
      name ∈ seen ∨ ∃ a ∈ classLevelAssignments body, AssignmentBinds a name := by
  rw [pythonCollectClassLevelAttrs]
  exact mem_foldl_iff (fun seen (a : Node) name => mem_boundNamesWithin (Nat.le_refl a.size) seen name)
    _ _ _

/-- The pairs handed over name the attributes of the walk. -/
theorem exists_boundIn_iff (m : Method) (name : List UInt8) :
    (∃ p ∈ (assignmentsIn m.func).flatMap boundIn, p.2 = name) ↔
      ∃ e ∈ m.walkedAttributes, pythonSelfAttributeName e = some name := by
  rw [Method.walkedAttributes_eq]
  have hname : ∀ p ∈ (assignmentsIn m.func).flatMap boundIn,
      pythonSelfAttributeName p.1 = some p.2 := by
    intro p hp
    obtain ⟨a, -, hbound⟩ := List.mem_flatMap.mp hp
    exact (Method.mem_boundIn_iff.mp hbound).1
  constructor
  · rintro ⟨p, hp, rfl⟩
    exact ⟨p.1, List.mem_map_of_mem hp, hname p hp⟩
  · rintro ⟨e, he, hsome⟩
    obtain ⟨p, hp, rfl⟩ := List.mem_map.mp he
    exact ⟨p, hp, Option.some_inj.mp ((hname p hp).symm.trans hsome)⟩

/-- The names counted are the names of the class. -/
theorem mem_seenNames_iff {body : Node} (hbody : pythonClassBody c.node = some body)
    (name : List UInt8) : name ∈ seenNames body ↔ c.BindsName name := by
  rw [seenNames, mem_collectUniqueSelfAttrs, mem_collectClassLevelAttrs, BindsName]
  refine or_congr ?_ ⟨?_, ?_⟩
  · constructor
    · rintro (h | h)
      · exact absurd h (Finset.notMem_empty _)
      · exact ⟨body, hbody, h⟩
    · rintro ⟨body', hbody', h⟩
      obtain rfl := Option.some_inj.mp (hbody'.symm.trans hbody)
      exact Or.inr h
  · rintro ⟨stmt, hstmt, func, hfunc, hpair⟩
    exact ⟨c.method hbody hstmt hfunc, ⟨body, stmt, hbody, hstmt, hfunc⟩,
      (exists_boundIn_iff (c.method hbody hstmt hfunc) name).mp hpair⟩
  · rintro ⟨m, ⟨body', stmt, hbody', hstmt, hfunc⟩, hattr⟩
    obtain rfl := Option.some_inj.mp (hbody'.symm.trans hbody)
    exact ⟨stmt, hstmt, m.func, hfunc, (exists_boundIn_iff m name).mpr hattr⟩

theorem npaCompute_eq (stats : NpaStats) : ∃ names : Finset (List UInt8),
    (∀ name, name ∈ names ↔ c.BindsName name) ∧
      npaCompute c.node stats = ⟨stats.classNa + names.card, stats.classNpa + names.card⟩ := by
  rw [npaCompute, if_pos c.isClass]
  cases hbody : pythonClassBody c.node with
  | none =>
    refine ⟨∅, fun name => iff_of_false (Finset.notMem_empty _) ?_, rfl⟩
    rintro (⟨body, hbody', -⟩ | ⟨m, ⟨body, stmt, hbody', -⟩, -⟩) <;>
      exact Option.some_ne_none _ (hbody'.symm.trans hbody)
  | some body => exact ⟨seenNames body, c.mem_seenNames_iff hbody, rfl⟩

end Class

/-- Each method's walk hands over the self attributes that climb to an assignment of its own
scope, once each and in order within a target, and leaves the chain as it was. A class counts
the names of its body and of these attributes. -/
theorem attributes_agree :
    (∀ m : Method,
      (∀ (above : List Node) (e : Node), e ∈ m.walkedAttributes ↔ m.Binds above e) ∧
      m.walkedAttributes.Nodup ∧
      m.walkedAttributes = (assignmentsIn m.func).flatMap (fun a => (boundIn a).map Prod.fst) ∧
      ∀ a, ((boundIn a).map Prod.fst).Sublist a.nodes) ∧
    (∀ {σ : Type} (collect : σ → Node → List Node → σ) (target : Node) (chain : List Node) (s : σ),
      (pythonWalkTargetElements collect target chain s).1 = chain) ∧
    ∀ (c : Class) (stats : NpaStats), ∃ names : Finset (List UInt8),
      (∀ name, name ∈ names ↔ c.BindsName name) ∧
        npaCompute c.node stats = ⟨stats.classNa + names.card, stats.classNpa + names.card⟩ := by
  refine ⟨fun m => ⟨fun above e => m.mem_walkedAttributes_iff above, m.nodup_walkedAttributes, ?_,
    Method.boundIn_sublist⟩, fun collect target chain s => ?_, Class.npaCompute_eq⟩
  · rw [m.walkedAttributes_eq, List.map_flatMap]
  · rw [pythonWalkTargetElements_eq]

/-- A node that spells `text` if it is a leaf. -/
def spelledNode (id : ℕ) (kind : Kind) (text : List UInt8) (children : List Node) : Node :=
  .node ⟨⟨id, kind, id, id + 1, 0, 0, text⟩, none⟩ children

/-- The attribute `self.x` for a name `x`. -/
def selfAttribute (id : ℕ) (name : List UInt8) : Node :=
  spelledNode id .attribute []
    [spelledNode (id + 1) .identifier [115, 101, 108, 102] [],
      spelledNode (id + 2) (.other 0 false) [46] [],
      spelledNode (id + 3) .identifier name []]

/-- The function of `def f(self): self.y, self.x = p`. -/
def pairMethod : Method where
  func := spelledNode 20 .functionDefinition []
    [spelledNode 21 .block []
      [spelledNode 22 .expressionStatement []
        [spelledNode 23 .assignment []
          [spelledNode 24 .patternList [] [selfAttribute 30 [121], selfAttribute 40 [120]],
            spelledNode 25 .eq [61] [], spelledNode 26 .identifier [112] []]]]]
  isFunction := rfl
  ids := by decide

/-- A class that assigns `x` and has that function. -/
def pairClass : Class where
  node := spelledNode 1 .classDefinition []
    [spelledNode 2 .identifier [67] [],
      spelledNode 3 .block []
        [spelledNode 4 .expressionStatement []
          [spelledNode 5 .assignment []
            [spelledNode 6 .identifier [120] [], spelledNode 7 .eq [61] [],
              spelledNode 8 (.other 1 true) [49] []]],
          pairMethod.func]]
  isClass := rfl
  ids := by decide

theorem attributes_agree_pair :
    pairMethod.walkedAttributes = [selfAttribute 30 [121], selfAttribute 40 [120]] ∧
      pairMethod.walkedAttributes.Nodup ∧
      npaCompute pairClass.node ⟨0, 0⟩ = ⟨2, 2⟩ ∧
      ∃ names : Finset (List UInt8), (∀ name, name ∈ names ↔ pairClass.BindsName name) ∧
        names.card = 2 := by
  obtain ⟨hmethods, -, hclasses⟩ := attributes_agree
  obtain ⟨names, hnames, hcount⟩ := hclasses pairClass ⟨0, 0⟩
  have htwo : npaCompute pairClass.node ⟨0, 0⟩ = ⟨2, 2⟩ := by decide
  refine ⟨?_, (hmethods pairMethod).2.1, htwo, names, hnames, ?_⟩
  · rfl
  · rw [htwo] at hcount
    simpa using (congrArg NpaStats.classNa hcount).symm

end BigCodeAnalysis.Languages.Python
