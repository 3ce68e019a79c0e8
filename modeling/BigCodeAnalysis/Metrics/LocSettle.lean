import BigCodeAnalysis.Metrics.LocRows

/-! Settled spaces. The source rows of a finished space are its span less the rows that only
pruned subtrees occupy, they bound its code and comment rows, a parent keeps what its
children contributed, and the counts do not depend on the order in which the space's
events, its child spaces among them, arrive. -/

namespace BigCodeAnalysis.Metrics.Loc

open Trees

namespace Extrema

theorem merge_right_comm (a b c : Extrema) : (a.merge b).merge c = (a.merge c).merge b := by
  simp only [merge, mk.injEq]
  exact ⟨Nat.min_right_comm .., Nat.max_right_comm ..⟩

end Extrema

/-- The number of logical lines an observation counts. -/
def Observation.logicalLines : Observation → ℕ
  | .logicalLine => 1
  | .comment .. | .code _ | .codeRows .. | .bareComment _ | .documentation .. => 0

namespace Stats

/-- Two finished siblings may be merged in either order. -/
theorem merge_right_comm (s a b : Stats) : (s.merge a).merge b = (s.merge b).merge a := by
  simp only [merge, Finset.union_right_comm _ a.ploc.lines,
    Finset.union_right_comm _ a.sloc.excludedRows, Finset.union_right_comm _ a.dloc.lines,
    Finset.union_right_comm _ a.cloc.onlyCommentLineStarts,
    Finset.union_right_comm _ a.cloc.codeCommentLineStarts,
    Extrema.merge_right_comm _ a.sloc.extrema, Extrema.merge_right_comm _ a.ploc.extrema,
    Extrema.merge_right_comm _ a.cloc.extrema, Extrema.merge_right_comm _ a.lloc.extrema,
    Extrema.merge_right_comm _ a.dloc.extrema, Extrema.merge_right_comm _ a.blank,
    Nat.add_right_comm _ a.lloc.logicalLines, Nat.add_right_comm _ a.spaceCount]

/-- Excluded and occupied rows are separate and lie in the span. -/
theorem finalize_excluded_add_occupied_le (s : Stats) :
    s.finalize.sloc.excludedRows.card + s.finalize.occupied.card ≤ s.span.card := by
  have hdisjoint : Disjoint s.finalize.sloc.excludedRows s.finalize.occupied := by
    refine Finset.disjoint_left.mpr fun r hr hoccupied => ?_
    exact ((s.mem_finalize_excluded r).mp hr).2.2 ((s.mem_finalize_occupied r).mp hoccupied).1
  rw [← Finset.card_union_of_disjoint hdisjoint, s.finalize_excluded_union]
  exact Finset.card_le_card Finset.inter_subset_right

theorem finalize_excluded_le (s : Stats) : s.finalize.sloc.excludedRows.card ≤
    spanRows s.finalize.sloc.start s.finalize.sloc.endLine := by
  have hbound := s.finalize_excluded_add_occupied_le
  have hspan : s.span.card = spanRows s.finalize.sloc.start s.finalize.sloc.endLine :=
    Nat.card_Ico ..
  omega

theorem finalize_occupied_le_sloc (s : Stats) : s.finalize.occupied.card ≤ s.finalize.slocValue := by
  have hbound := s.finalize_excluded_add_occupied_le
  have hspan : s.span.card = spanRows s.finalize.sloc.start s.finalize.sloc.endLine :=
    Nat.card_Ico ..
  rw [slocValue]
  omega

theorem finalize_ploc_le_sloc (s : Stats) : s.finalize.plocValue ≤ s.finalize.slocValue :=
  (Finset.card_le_card Finset.subset_union_left).trans s.finalize_occupied_le_sloc

theorem finalize_cloc_le_sloc (s : Stats) : s.finalize.clocValue ≤ s.finalize.slocValue :=
  (Finset.card_le_card Finset.subset_union_right).trans s.finalize_occupied_le_sloc

/-- What a space carries besides its row sets and `blank`. -/
structure Carried where
  logicalLines : ℕ
  spaceCount : ℕ
  sloc : Extrema
  ploc : Extrema
  cloc : Extrema
  lloc : Extrema
  dloc : Extrema

def carried (s : Stats) : Carried :=
  ⟨s.lloc.logicalLines, s.spaceCount, s.sloc.extrema, s.ploc.extrema, s.cloc.extrema,
    s.lloc.extrema, s.dloc.extrema⟩

namespace Carried

def merge (self other : Carried) : Carried :=
  ⟨self.logicalLines + other.logicalLines, self.spaceCount + other.spaceCount,
    self.sloc.merge other.sloc, self.ploc.merge other.ploc, self.cloc.merge other.cloc,
    self.lloc.merge other.lloc, self.dloc.merge other.dloc⟩

def addLogicalLines (self : Carried) (n : ℕ) : Carried :=
  { self with logicalLines := self.logicalLines + n }

theorem merge_right_comm (a b c : Carried) : (a.merge b).merge c = (a.merge c).merge b := by
  simp only [merge, Extrema.merge_right_comm _ b.sloc, Extrema.merge_right_comm _ b.ploc,
    Extrema.merge_right_comm _ b.cloc, Extrema.merge_right_comm _ b.lloc,
    Extrema.merge_right_comm _ b.dloc, Nat.add_right_comm _ b.logicalLines,
    Nat.add_right_comm _ b.spaceCount]

theorem merge_addLogicalLines (a b : Carried) (n : ℕ) :
    (a.merge b).addLogicalLines n = (a.addLogicalLines n).merge b := by
  simp only [merge, addLogicalLines, Nat.add_right_comm]

/-- Finalisation folds the values of the space itself in. -/
def observe (self : Carried) (sloc ploc cloc dloc : ℕ) : Carried :=
  { self with
    sloc := self.sloc.observe sloc
    ploc := self.ploc.observe ploc
    cloc := self.cloc.observe cloc
    lloc := self.lloc.observe self.logicalLines
    dloc := self.dloc.observe dloc }

end Carried

theorem observe_carried (s : Stats) (o : Observation) :
    (s.observe o).carried = s.carried.addLogicalLines o.logicalLines := by
  cases o with
  | comment start last _ documentation =>
    have h : (s.addClocLines start last).carried = s.carried := by
      unfold addClocLines
      dsimp only
      split_ifs <;> rfl
    cases documentation <;> exact h
  | code row =>
    show (s.addCodeLine row).carried = s.carried
    unfold addCodeLine checkCommentEndsOnCodeLine
    dsimp only
    split_ifs <;> rfl
  | bareComment row =>
    show (s.addBareComment row).carried = s.carried
    unfold addBareComment
    split_ifs <;> rfl
  | codeRows first last => rfl
  | documentation first last => rfl
  | logicalLine => rfl

theorem observeAll_carried (s : Stats) (rows : List Observation) :
    (s.observeAll rows).carried =
      s.carried.addLogicalLines (rows.map Observation.logicalLines).sum := by
  induction rows generalizing s with
  | nil => rfl
  | cons o rows ih =>
    show ((s.observe o).observeAll rows).carried = _
    rw [ih, observe_carried, List.map_cons, List.sum_cons]
    simp only [Carried.addLogicalLines, Nat.add_assoc]

/-- The counts of a space and their extrema, without `blank`. -/
structure Report where
  sloc : ℕ
  ploc : ℕ
  cloc : ℕ
  dloc : ℕ
  carried : Carried

def report (s : Stats) : Report :=
  ⟨s.slocValue, s.plocValue, s.clocValue, s.dlocValue, s.carried⟩

end Stats

section Settled
variable {ν π κ : Type*} (reading : Reading ν π κ)

/-! ### Bounds -/

/-- Every span is ordered and lies inside the span of the space around it. -/
def NestedSpans (k : κ) (steps : List (Step ν π κ)) : Prop :=
  ∀ p ∈ (k, steps) :: Step.withinAll steps, (reading.span p.1).1 ≤ (reading.span p.1).2 ∧
    ∀ q ∈ Step.children p.2, (reading.span p.1).1 ≤ (reading.span q.1).1 ∧
      (reading.span q.1).2 ≤ (reading.span p.1).2

/-- The rows a list of nodes covers. -/
def visitedRows (own : Observation → LineSet) (visits : List ν) (r : ℕ) : Prop :=
  ∃ v ∈ visits, r ∈ covered own (reading.rows v)

/-- Documentation is billed as comments by the space that bills it. -/
def DocumentationBilled (k : κ) (steps : List (Step ν π κ)) : Prop :=
  ∀ p ∈ (k, steps) :: Step.withinAll steps, ∀ r,
    visitedRows reading Observation.rowsOfDocumentation (Step.visits p.2) r →
      visitedRows reading Observation.rowsOfComment (Step.visits p.2) r

/-- What holds of a settled space. -/
structure Settled (k : κ) (steps : List (Step ν π κ)) : Prop where
  /-- `span_rows` and `sloc` subtract without underflow. -/
  ordered : (finalStats reading k steps).sloc.start ≤ (finalStats reading k steps).sloc.endLine
  excluded_le : (finalStats reading k steps).sloc.excludedRows.card ≤
    spanRows (finalStats reading k steps).sloc.start (finalStats reading k steps).sloc.endLine
  sloc_eq : (finalStats reading k steps).slocValue =
    (reading.spanOf k).card - (reading.onlyPrunedIn k steps).card
  ploc_le : (finalStats reading k steps).plocValue ≤ (finalStats reading k steps).slocValue
  cloc_le : (finalStats reading k steps).clocValue ≤ (finalStats reading k steps).slocValue
  dloc_le : (finalStats reading k steps).dlocValue ≤ (finalStats reading k steps).clocValue
  /-- Clamping keeps the rows of the child spaces. -/
  children : ∀ q ∈ Step.children steps,
    reading.codeIn q.1 q.2 ⊆ reading.codeIn k steps ∧
    reading.commentIn q.1 q.2 ⊆ reading.commentIn k steps ∧
    reading.documentationIn q.1 q.2 ⊆ reading.documentationIn k steps

theorem mem_gathered_observed (own : Observation → LineSet) (steps : List (Step ν π κ)) (r : ℕ) :
    r ∈ reading.gathered (reading.observed own) steps ↔
      visitedRows reading own (Step.visits steps) r ∨
        ∃ q ∈ Step.children steps, r ∈ reading.rowsIn (reading.observed own) q.1 q.2 := by
  unfold Reading.gathered
  induction steps with
  | nil => simp [visitedRows, Step.visits, Step.children]
  | cons step rest ih =>
    cases step with
    | visit v =>
      rw [Step.gatherAll_visit, Finset.sup_eq_union, Finset.mem_union, ih]
      simp only [visitedRows, Step.visits, Step.children, List.mem_cons, exists_eq_or_imp,
        or_assoc]
      rfl
    | prune p =>
      rw [Step.gatherAll_prune, Finset.sup_eq_union, Finset.mem_union, ih]
      exact or_iff_right (Finset.notMem_empty r)
    | child k steps =>
      rw [Step.gatherAll_child, Finset.sup_eq_union, Finset.mem_union, ih]
      simp only [visitedRows, Step.visits, Step.children, List.mem_cons, exists_eq_or_imp]
      exact or_left_comm

theorem documentationIn_subset_commentIn (k : κ) (steps : List (Step ν π κ)) :
    DocumentationBilled reading k steps →
      reading.documentationIn k steps ⊆ reading.commentIn k steps := by
  induction k, steps using Step.scope_induction with
  | scope k steps ih =>
    intro hbilled r hr
    obtain ⟨hr, hspan⟩ := Finset.mem_inter.mp hr
    refine Finset.mem_inter.mpr ⟨?_, hspan⟩
    rw [mem_gathered_observed] at hr ⊢
    rcases hr with hown | ⟨q, hq, hr⟩
    · exact .inl (hbilled (k, steps) (List.mem_cons_self ..) r hown)
    · have hwithin := Step.children_subset_withinAll hq
      refine .inr ⟨q, hq, ih q hwithin (fun p hp => hbilled p ?_) hr⟩
      rcases List.mem_cons.mp hp with rfl | hp
      · exact List.mem_cons_of_mem _ hwithin
      · exact List.mem_cons_of_mem _ (Step.withinAll_trans hwithin hp)

theorem rowsIn_child_subset (own : ν ⊕ π → LineSet) (k : κ) (steps : List (Step ν π κ))
    (q : κ × List (Step ν π κ)) (hq : q ∈ Step.children steps)
    (hspan : reading.spanOf q.1 ⊆ reading.spanOf k) :
    reading.rowsIn own q.1 q.2 ⊆ reading.rowsIn own k steps := by
  intro r hr
  have hgathered : reading.rowsIn own q.1 q.2 ⊆ reading.gathered own steps :=
    Step.restrict_le_gatherAll own reading.clamp hq
  exact Finset.mem_inter.mpr ⟨hgathered hr, hspan (Finset.mem_inter.mp hr).2⟩

theorem settled_of_nested (k : κ) (steps : List (Step ν π κ))
    (hspans : NestedSpans reading k steps) (hbilled : DocumentationBilled reading k steps) :
    Settled reading k steps := by
  obtain ⟨hordered, hinside⟩ := hspans (k, steps) (List.mem_cons_self ..)
  obtain ⟨hstart, hend⟩ := finalStats_ends reading k steps
  refine ⟨by rw [hstart, hend]; exact hordered,
    Stats.finalize_excluded_le (spaceStats reading k steps), ?_,
    Stats.finalize_ploc_le_sloc (spaceStats reading k steps),
    Stats.finalize_cloc_le_sloc (spaceStats reading k steps), ?_, fun q hq => ?_⟩
  · rw [Stats.slocValue, finalStats_excluded, hstart, hend, Reading.spanOf, Nat.card_Ico, spanRows]
  · rw [Stats.dlocValue, Stats.clocValue, finalStats_documentation, finalStats_comment]
    exact Finset.card_le_card (documentationIn_subset_commentIn reading k steps hbilled)
  · have hsub : reading.spanOf q.1 ⊆ reading.spanOf k :=
      Finset.Ico_subset_Ico (hinside q hq).1 (hinside q hq).2
    exact ⟨rowsIn_child_subset reading _ k steps q hq hsub,
      rowsIn_child_subset reading _ k steps q hq hsub,
      rowsIn_child_subset reading _ k steps q hq hsub⟩

theorem scope_nested {k : κ} {steps : List (Step ν π κ)} {P : κ × List (Step ν π κ) → Prop}
    (h : ∀ p ∈ (k, steps) :: Step.withinAll steps, P p) {q : κ × List (Step ν π κ)}
    (hq : q ∈ (k, steps) :: Step.withinAll steps) : ∀ p ∈ q :: Step.withinAll q.2, P p := by
  intro p hp
  rcases List.mem_cons.mp hq with rfl | hq
  · exact h p hp
  · refine h p (List.mem_cons_of_mem _ ?_)
    rcases List.mem_cons.mp hp with rfl | hp
    · exact hq
    · exact Step.withinAll_trans hq hp

/-! ### Order -/

/-- How an event acts on what a space carries. -/
def carry : Step ν π κ → Stats.Carried → Stats.Carried
  | .visit v, c => c.addLogicalLines ((reading.rows v).map Observation.logicalLines).sum
  | .prune _, c => c
  | .child k steps, c => c.merge (finalStats reading k steps).carried

theorem exec_carried (step : Step ν π κ) (s : Stats) :
    (Step.exec (locAlgebra reading) step s).carried = carry reading step s.carried := by
  cases step with
  | visit v => simp only [Step.exec]; exact s.observeAll_carried (reading.rows v)
  | prune p =>
    simp only [Step.exec]
    show (s.excludeSpan _ _).carried = s.carried
    unfold Stats.excludeSpan
    split_ifs <;> rfl
  | child k steps => simp only [Step.exec]; rfl

theorem carry_comm (a b : Step ν π κ) (c : Stats.Carried) :
    carry reading a (carry reading b c) = carry reading b (carry reading a c) := by
  cases a <;> cases b
  case child.child => exact Stats.Carried.merge_right_comm ..
  case visit.child => exact Stats.Carried.merge_addLogicalLines ..
  case child.visit => exact (Stats.Carried.merge_addLogicalLines ..).symm
  case visit.visit => simp only [carry, Stats.Carried.addLogicalLines, Nat.add_right_comm]
  all_goals rfl

/-- The report of a space does not depend on the order of its events. -/
theorem report_perm (k : κ) {steps steps' : List (Step ν π κ)} (h : steps.Perm steps') :
    (finalStats reading k steps).report = (finalStats reading k steps').report := by
  have hrows : ∀ own : ν ⊕ π → LineSet,
      reading.rowsIn own k steps = reading.rowsIn own k steps' := fun own => by
    rw [Reading.rowsIn, Reading.gathered, Step.gatherAll_perm own reading.clamp h]
    rfl
  have hcarried : (spaceStats reading k steps).carried = (spaceStats reading k steps').carried :=
    Step.execAll_perm (locAlgebra reading) (carry reading) (exec_carried reading)
      (carry_comm reading) h (openStats reading k)
  have hploc : (finalStats reading k steps).plocValue = (finalStats reading k steps').plocValue := by
    rw [Stats.plocValue, Stats.plocValue, finalStats_code, finalStats_code, Reading.codeIn, hrows]
    rfl
  have hcloc : (finalStats reading k steps).clocValue = (finalStats reading k steps').clocValue := by
    rw [Stats.clocValue, Stats.clocValue, finalStats_comment, finalStats_comment,
      Reading.commentIn, hrows]
    rfl
  have hdloc : (finalStats reading k steps).dlocValue = (finalStats reading k steps').dlocValue := by
    rw [Stats.dlocValue, Stats.dlocValue, finalStats_documentation, finalStats_documentation,
      Reading.documentationIn, hrows]
    rfl
  have hsloc : (finalStats reading k steps).slocValue = (finalStats reading k steps').slocValue := by
    rw [Stats.slocValue, Stats.slocValue, finalStats_excluded, finalStats_excluded,
      Reading.onlyPrunedIn, Reading.codeIn, Reading.commentIn, hrows, hrows, hrows,
      (finalStats_ends reading k steps).1, (finalStats_ends reading k steps).2,
      (finalStats_ends reading k steps').1, (finalStats_ends reading k steps').2]
    rfl
  have hfinal : (finalStats reading k steps).carried = (finalStats reading k steps').carried := by
    show (spaceStats reading k steps).carried.observe (finalStats reading k steps).slocValue
      (finalStats reading k steps).plocValue (finalStats reading k steps).clocValue
      (finalStats reading k steps).dlocValue = _
    rw [hsloc, hploc, hcloc, hdloc, hcarried]
    rfl
  rw [Stats.report, Stats.report, hsloc, hploc, hcloc, hdloc, hfinal]

/-- Adjacent child spaces may be settled in any order. -/
theorem finalStats_siblings (k : κ) (before after : List (Step ν π κ))
    {siblings siblings' : List (κ × List (Step ν π κ))} (h : siblings.Perm siblings') :
    finalStats reading k (before ++ siblings.map (fun q => .child q.1 q.2) ++ after) =
      finalStats reading k (before ++ siblings'.map (fun q => .child q.1 q.2) ++ after) := by
  have hmerge : ∀ (qs : List (κ × List (Step ν π κ))) (s : Stats),
      Step.execAll (locAlgebra reading) (qs.map fun q => .child q.1 q.2) s =
        qs.foldl (fun s q => s.merge (finalStats reading q.1 q.2)) s := by
    intro qs
    induction qs with
    | nil => intro s; simp
    | cons q qs ih =>
      intro s
      rw [List.map_cons, Step.execAll_child, ih]
      rfl
  have hcomm : RightCommutative
      (fun (s : Stats) (q : κ × List (Step ν π κ)) => s.merge (finalStats reading q.1 q.2)) :=
    ⟨fun s a b => Stats.merge_right_comm s _ _⟩
  rw [finalStats, finalStats, spaceStats, spaceStats, Step.execAll_append, Step.execAll_append,
    Step.execAll_append, Step.execAll_append, hmerge, hmerge, h.foldl_eq]

/-- The order of the events of a space, its child spaces among them, does not matter for
its report, and the order of adjacent child spaces does not matter at all. -/
structure OrderFree (k : κ) (steps : List (Step ν π κ)) : Prop where
  report : ∀ steps', steps.Perm steps' →
    (finalStats reading k steps').report = (finalStats reading k steps).report
  siblings : ∀ (before after : List (Step ν π κ)) (qs qs' : List (κ × List (Step ν π κ))),
    steps = before ++ qs.map (fun q => .child q.1 q.2) ++ after → qs.Perm qs' →
      finalStats reading k (before ++ qs'.map (fun q => .child q.1 q.2) ++ after) =
        finalStats reading k steps

theorem orderFree (k : κ) (steps : List (Step ν π κ)) : OrderFree reading k steps where
  report _ h := (report_perm reading k h).symm
  siblings before after _ _ hsteps h := by
    rw [hsteps]
    exact (finalStats_siblings reading k before after h).symm

/-- Every space of a tree with nested spans is settled, in whatever order its children are. -/
theorem settled_everywhere (k : κ) (steps : List (Step ν π κ))
    (hspans : NestedSpans reading k steps) (hbilled : DocumentationBilled reading k steps) :
    ∀ p ∈ (k, steps) :: Step.withinAll steps,
      Settled reading p.1 p.2 ∧ OrderFree reading p.1 p.2 := by
  intro p hp
  exact ⟨settled_of_nested reading p.1 p.2 (scope_nested hspans hp) (scope_nested hbilled hp),
    orderFree reading p.1 p.2⟩

end Settled

/-! ### A function with a doc comment and a pruned test -/

def listReading : Reading (List Observation) (ℕ × ℕ) (ℕ × ℕ) := ⟨id, id, id⟩

/-- A documented function, a test that shares its last row with code, and a stray row. -/
def documentedFunction : List (Step (List Observation) (ℕ × ℕ) (ℕ × ℕ)) :=
  [.visit [.comment 0 0 sameRow true, .code 9],
    .child (1, 3) [.visit [.code 1, .logicalLine], .visit [.code 2]], .prune (3, 6),
    .visit [.code 5]]

theorem settled_everywhere_documentedFunction :
    Settled listReading (0, 6) documentedFunction ∧
      OrderFree listReading (0, 6) documentedFunction := by
  refine settled_everywhere listReading (0, 6) documentedFunction ?_ (fun p hp r => ?_) _
    List.mem_cons_self
  · unfold NestedSpans
    decide +kernel
  · simp only [documentedFunction, Step.withinAll_visit, Step.withinAll_child, Step.withinAll_prune,
      Step.withinAll_nil, List.append_nil, List.mem_cons, List.not_mem_nil, or_false] at hp
    rcases hp with rfl | rfl
    · rintro ⟨rows, hrows, hr⟩
      have hfirst : rows = [.comment 0 0 sameRow true, .code 9] ∨ rows = [.code 5] := by
        simpa [Step.visits] using hrows
      rcases hfirst with rfl | rfl
      · exact ⟨_, hrows, hr⟩
      · exact absurd hr (Finset.notMem_empty r)
    · rintro ⟨rows, hrows, hr⟩
      have hfirst : rows = [.code 1, .logicalLine] ∨ rows = [.code 2] := by
        simpa [Step.visits] using hrows
      rcases hfirst with rfl | rfl <;> exact absurd hr (Finset.notMem_empty r)

/-- A comment and a function on the only row of a file. -/
def commentedRow : List (Step (List Observation) (ℕ × ℕ) (ℕ × ℕ)) :=
  [.visit [.comment 0 0 sameRow false], .child (0, 1) [.visit [.code 0]]]

/-- Two functions on rows 0 and 1 around a comment on row 0, and swapped. -/
def commentBetween : List (Step (List Observation) (ℕ × ℕ) (ℕ × ℕ)) :=
  [.child (0, 1) [.visit [.code 0]], .visit [.comment 0 0 sameRow false],
    .child (1, 2) [.visit [.code 1]]]

def commentBetweenSwapped : List (Step (List Observation) (ℕ × ℕ) (ℕ × ℕ)) :=
  [.child (1, 2) [.visit [.code 1]], .visit [.comment 0 0 sameRow false],
    .child (0, 1) [.visit [.code 0]]]

/-- `blank` would underflow on the row, and it sees which sibling came before the comment. -/
theorem blank_not_settled :
    (NestedSpans listReading (0, 1) commentedRow ∧
      (finalStats listReading (0, 1) commentedRow).slocValue <
        (finalStats listReading (0, 1) commentedRow).plocValue +
          (finalStats listReading (0, 1) commentedRow).cloc.onlyCommentLineStarts.card) ∧
      NestedSpans listReading (0, 3) commentBetween ∧
      (finalStats listReading (0, 3) commentBetween).blankValue = 1 ∧
      (finalStats listReading (0, 3) commentBetweenSwapped).blankValue = 0 := by
  unfold NestedSpans
  decide +kernel

end BigCodeAnalysis.Metrics.Loc
