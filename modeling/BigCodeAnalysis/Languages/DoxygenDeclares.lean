import BigCodeAnalysis.Languages.Doxygen
import BigCodeAnalysis.Spaces.FoldCache
import Mathlib.Tactic.Tauto

/-! The stack answers for a nest as the recursion over it does. What one visit of a
conditional does to the memo composes: it files the answers of the conditionals it read, each
of them new, and touches nothing else. A nested conditional's answer reaches the one around
it through the vector of answers, which only grows behind the indices in use. -/

namespace BigCodeAnalysis.Languages.Doxygen

open Sequences Spaces Trees Rose

variable (row : DoxygenRow)

/-! ### The recursion over the nest -/

mutual
def declares : Node → Bool
  | .node a cs => forestDeclares (.node a cs) cs

/-- Whether some of a conditional's children answers for it. -/
def forestDeclares (conditional : Node) : List Node → Bool
  | [] => false
  | t :: ts =>
    (if row.preprocConditional t then declares t else row.nonConditionalEntry conditional t) ||
      forestDeclares conditional ts
end

theorem declares_eq (t : Node) : declares row t = forestDeclares row t t.children := by
  cases t with
  | node a cs => rw [declares, children_node]

variable {row}

theorem forestDeclares_iff {conditional : Node} {ts : List Node} :
    forestDeclares row conditional ts = true ↔ ∃ t ∈ ts,
      (if row.preprocConditional t then declares row t
        else row.nonConditionalEntry conditional t) = true := by
  induction ts with
  | nil => simp [forestDeclares]
  | cons t ts ih => rw [forestDeclares, Bool.or_eq_true, ih, List.exists_mem_cons_iff]

theorem InNest.declares {node conditional : Node} (h : InNest row node conditional)
    (hdeclares : declares row conditional = true) : declares row node = true := by
  induction h with
  | outermost => exact hdeclares
  | nested _ hchild hconditional ih =>
    apply ih
    rw [declares_eq, forestDeclares_iff]
    exact ⟨_, hchild, by rwa [if_pos hconditional]⟩

theorem InNest.trans {a b c : Node} (h : InNest row a b) (h' : InNest row b c) :
    InNest row a c := by
  induction h' with
  | outermost => exact h
  | nested _ hchild hconditional ih => exact .nested ih hchild hconditional

/-- A nested conditional that holds an entry makes the one around it hold that entry. -/
theorem HoldsEntry.of_child {node child : Node} (h : HoldsEntry row child)
    (hchild : child ∈ node.children) (hconditional : row.preprocConditional child = true) :
    HoldsEntry row node := by
  obtain ⟨conditional, entry, hnest, hentry⟩ := h
  exact ⟨conditional, entry, (InNest.nested .outermost hchild hconditional).trans hnest, hentry⟩

theorem holdsEntry_of_declares :
    (∀ t : Node, declares row t = true → HoldsEntry row t) ∧
      ∀ ts : List Node, ∀ t ∈ ts, declares row t = true → HoldsEntry row t := by
  refine tree_forest_induction (fun a cs ih h => ?_) (fun _ h => absurd h List.not_mem_nil)
    (fun t ts iht ihts => List.forall_mem_cons.mpr ⟨iht, ihts⟩)
  rw [declares, forestDeclares_iff] at h
  obtain ⟨t, ht, hanswer⟩ := h
  by_cases hconditional : row.preprocConditional t = true
  · rw [if_pos hconditional] at hanswer
    exact (ih t ht hanswer).of_child ht hconditional
  · rw [if_neg hconditional] at hanswer
    exact ⟨_, t, .outermost, ht, Bool.eq_false_iff.mpr hconditional, hanswer⟩

theorem declares_iff {node : Node} : declares row node = true ↔ HoldsEntry row node := by
  constructor
  · exact holdsEntry_of_declares.1 node
  · rintro ⟨conditional, child, hnest, hchild, hconditional, hentry⟩
    apply hnest.declares
    rw [declares_eq, forestDeclares_iff]
    exact ⟨child, hchild, by simpa [hconditional] using hentry⟩

/-! ### One look at the children -/

section Children
variable (row)

/-- A nested conditional the memo does not answer for. -/
def unread (memo : NodeMemo) (child : Node) : Bool :=
  row.preprocConditional child && (memo.get child).isNone

/-- A child that answers for its conditional as the memo stands. -/
def settles (memo : NodeMemo) (conditional child : Node) : Bool :=
  if row.preprocConditional child then memo.get child == some true
  else row.nonConditionalEntry conditional child

/-- Once a child answers, the entries among the later ones are not asked for, and every
nested conditional is still looked at. -/
theorem childrenDeclareFrom_eq (memo : NodeMemo) (conditional : Node) (ts : List Node)
    (d : Bool) :
    childrenDeclareFrom row memo conditional ts d =
      (d || ts.any (settles row memo conditional), ts.filter (unread row memo)) := by
  induction ts generalizing d with
  | nil => simp [childrenDeclareFrom]
  | cons t ts ih =>
    rw [childrenDeclareFrom]
    by_cases hconditional : row.preprocConditional t = true
    · cases hmemo : memo.get t with
      | none => simp [hconditional, ih, unread, settles, hmemo]
      | some answer => cases answer <;> simp [hconditional, ih, unread, settles, hmemo]
    · have hunread : unread row memo t = false := by simp [unread, hconditional]
      have hsettles : settles row memo conditional t = row.nonConditionalEntry conditional t := by
        simp [settles, hconditional]
      cases d <;> simp [hconditional, ih, hunread, hsettles]

end Children

/-- What the memo holds for these nodes is the recursion's answer. -/
def CorrectOn (row : DoxygenRow) (memo : NodeMemo) (ns : List Node) : Prop :=
  ∀ node : Node, node ∈ ns → ∀ a, memo.get node = some a → a = declares row node

theorem CorrectOn.congr {memo memo' : NodeMemo} {ns : List Node} (h : CorrectOn row memo ns)
    (hagree : ∀ node : Node, node ∈ ns → memo'.get node = memo.get node) :
    CorrectOn row memo' ns := by
  intro node hnode a ha
  rw [hagree node hnode] at ha
  exact h node hnode a ha

/-- The children answer through what is settled and through the conditionals still to be
read. -/
theorem forestDeclares_eq {memo : NodeMemo} (conditional : Node) {ts : List Node}
    (h : CorrectOn row memo ts) :
    forestDeclares row conditional ts =
      (ts.any (settles row memo conditional) || (ts.filter (unread row memo)).any (declares row)) := by
  induction ts with
  | nil => rfl
  | cons t ts ih =>
    have hts : CorrectOn row memo ts := fun node hnode => h node (List.mem_cons_of_mem _ hnode)
    rw [forestDeclares, ih hts]
    by_cases hconditional : row.preprocConditional t = true
    · cases hmemo : memo.get t with
      | none =>
        have hunread : unread row memo t = true := by simp [unread, hconditional, hmemo]
        have hsettles : settles row memo conditional t = false := by
          simp [settles, hconditional, hmemo]
        simp only [hconditional, if_true, List.any_cons, hsettles, Bool.false_or, hunread,
          List.filter_cons_of_pos]
        exact Bool.or_left_comm ..
      | some a =>
        have hunread : unread row memo t = false := by simp [unread, hconditional, hmemo]
        have ha := h t List.mem_cons_self a hmemo
        have hsettles : settles row memo conditional t = declares row t := by
          rw [← ha]
          cases a <;> simp [settles, hconditional, hmemo]
        simp [hconditional, hsettles, hunread, Bool.or_assoc]
    · have hunread : unread row memo t = false := by simp [unread, hconditional]
      simp [hconditional, settles, hunread, Bool.or_assoc]

/-! ### What a visit does to the memo -/

/-- `read` are the conditionals read between two states of the memo: none had an answer, each
is read once and has the right one now, and nothing else changed. -/
structure Filed (row : DoxygenRow) (memo memo' : NodeMemo) (read : List Node) : Prop where
  fresh : ∀ node : Node, node ∈ read → memo.get node = none
  stored : ∀ node : Node, node ∈ read → memo'.get node = some (declares row node)
  kept : ∀ id, id ∉ read.map Node.id → memo' id = memo id
  once : (read.map Node.id).Nodup

namespace Filed

variable {memo memo₁ memo₂ : NodeMemo} {read read₁ read₂ : List Node}

theorem nil (memo : NodeMemo) : Filed row memo memo [] :=
  ⟨fun _ h => absurd h List.not_mem_nil, fun _ h => absurd h List.not_mem_nil, fun _ _ => rfl,
    List.nodup_nil⟩

/-- The second part reads nothing the first one did: it finds those answered. -/
theorem disjoint (h₁ : Filed row memo memo₁ read₁) (h₂ : Filed row memo₁ memo₂ read₂) :
    List.Disjoint (read₁.map Node.id) (read₂.map Node.id) := by
  intro id hid₁ hid₂
  obtain ⟨a, ha, rfl⟩ := List.mem_map.mp hid₁
  obtain ⟨b, hb, hab⟩ := List.mem_map.mp hid₂
  have hfresh := h₂.fresh b hb
  have hstored := h₁.stored a ha
  rw [NodeMemo.get, hab] at hfresh
  rw [NodeMemo.get, hfresh] at hstored
  cases hstored

theorem trans (h₁ : Filed row memo memo₁ read₁) (h₂ : Filed row memo₁ memo₂ read₂) :
    Filed row memo memo₂ (read₁ ++ read₂) where
  fresh node hnode := by
    rcases List.mem_append.mp hnode with hnode | hnode
    · exact h₁.fresh node hnode
    · have hnot := h₁.disjoint h₂ |>.symm (List.mem_map_of_mem hnode)
      rw [NodeMemo.get, ← h₁.kept _ hnot]
      exact h₂.fresh node hnode
  stored node hnode := by
    rcases List.mem_append.mp hnode with hnode | hnode
    · have hnot := h₁.disjoint h₂ (List.mem_map_of_mem hnode)
      rw [NodeMemo.get, h₂.kept _ hnot]
      exact h₁.stored node hnode
    · exact h₂.stored node hnode
  kept id hid := by
    rw [List.map_append, List.mem_append, not_or] at hid
    rw [h₂.kept id hid.2, h₁.kept id hid.1]
  once := by
    rw [List.map_append]
    exact h₁.once.append h₂.once (h₁.disjoint h₂)

/-- A conditional is answered once everything below it is. -/
theorem set (h : Filed row memo memo₁ read) {t : Node} (ht : memo.get t = none)
    (hnot : t.id ∉ read.map Node.id) :
    Filed row memo (memo₁.set t (declares row t)) (t :: read) where
  fresh := List.forall_mem_cons.mpr ⟨ht, h.fresh⟩
  stored := by
    refine List.forall_mem_cons.mpr ⟨Function.update_self .., fun node hnode => ?_⟩
    have hne : node.id ≠ t.id := fun he => hnot (he ▸ List.mem_map_of_mem hnode)
    rw [NodeMemo.get, NodeMemo.set, Function.update_of_ne hne]
    exact h.stored node hnode
  kept id hid := by
    rw [List.map_cons, List.mem_cons, not_or] at hid
    rw [NodeMemo.set, Function.update_of_ne hid.1, h.kept id hid.2]
  once := by
    rw [List.map_cons]
    exact List.nodup_cons.mpr ⟨hnot, h.once⟩

/-- A memo that was right on nodes of distinct ids stays right, if it is these that are
read. -/
theorem correctOn (h : Filed row memo memo₁ read) {ns : List Node}
    (hcorrect : CorrectOn row memo ns) (hread : ∀ node : Node, node ∈ read → node ∈ ns)
    (hdistinct : (ns.map Node.id).Nodup) : CorrectOn row memo₁ ns := by
  intro node hnode a ha
  by_cases hmem : node.id ∈ read.map Node.id
  · obtain ⟨b, hb, hid⟩ := List.mem_map.mp hmem
    obtain rfl := List.inj_on_of_nodup_map hdistinct (hread b hb) hnode hid
    rw [h.stored b hb] at ha
    exact (Option.some.inj ha).symm
  · rw [NodeMemo.get, h.kept _ hmem] at ha
    exact hcorrect node hnode a ha

end Filed

/-! ### What a visit does to the answers -/

/-- An answer folded into the one at `outer`, and new ones behind. -/
def Folded (answers : List Bool) (outer : Option ℕ) (a : Bool) (answers' : List Bool) : Prop :=
  ∃ folded extra, foldInto answers a outer = some folded ∧ answers' = folded ++ extra

theorem foldInto_some {answers : List Bool} {a : Bool} {i : ℕ} (hi : i < answers.length) :
    foldInto answers a (some i) = some (answers.set i (answers[i] || a)) := by
  simp [foldInto, List.getElem?_eq_getElem hi]

theorem foldInto_append {answers : List Bool} (extra : List Bool) (a : Bool) {outer : Option ℕ}
    (h : ∀ i ∈ outer, i < answers.length) :
    foldInto (answers ++ extra) a outer = (foldInto answers a outer).map (· ++ extra) := by
  cases outer with
  | none => rfl
  | some i =>
    have hi := h i rfl
    rw [foldInto_some hi, foldInto_some (by rw [List.length_append]; omega),
      List.getElem_append_left hi, List.set_append_left _ _ hi, Option.map_some]

theorem Folded.length_le {answers answers' : List Bool} {outer : Option ℕ} {a : Bool}
    (h : Folded answers outer a answers') (houter : ∀ i ∈ outer, i < answers.length) :
    answers.length ≤ answers'.length := by
  obtain ⟨folded, extra, hfolded, rfl⟩ := h
  cases outer with
  | none =>
    cases hfolded
    simp
  | some i =>
    rw [foldInto_some (houter i rfl)] at hfolded
    cases hfolded
    simp

theorem Folded.false {answers : List Bool} {i : ℕ} (hi : i < answers.length) :
    Folded answers (some i) false answers := by
  refine ⟨answers, [], ?_, (List.append_nil _).symm⟩
  rw [foldInto_some hi, Bool.or_false, List.set_getElem_self]

/-- Two answers folded into one place are folded in as one. -/
theorem Folded.trans {answers answers₁ answers₂ : List Bool} {i : ℕ} {a b : Bool}
    (hi : i < answers.length) (h₁ : Folded answers (some i) a answers₁)
    (h₂ : Folded answers₁ (some i) b answers₂) :
    Folded answers (some i) (b || a) answers₂ := by
  obtain ⟨folded₁, extra₁, hfolded₁, rfl⟩ := h₁
  obtain ⟨folded₂, extra₂, hfolded₂, rfl⟩ := h₂
  rw [foldInto_some hi] at hfolded₁
  cases hfolded₁
  have hlength : i < (answers.set i (answers[i] || a)).length := by rwa [List.length_set]
  rw [foldInto_append extra₁ b (by simpa using hlength), foldInto_some hlength,
    List.getElem_set_self, List.set_set, Option.map_some] at hfolded₂
  cases hfolded₂
  refine ⟨_, extra₁ ++ extra₂, foldInto_some hi, ?_⟩
  rw [List.append_assoc, Bool.or_assoc, Bool.or_comm a b]

end BigCodeAnalysis.Languages.Doxygen
