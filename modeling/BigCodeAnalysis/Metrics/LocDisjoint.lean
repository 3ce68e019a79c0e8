import BigCodeAnalysis.Metrics.Loc

/-! Comment-only rows against code rows. A row is filed as comment-only when a comment is
seen on it before code of the same space is, and refiled when that code arrives. The rows
where this goes wrong are followed through observations and merges to the finished space. -/

namespace BigCodeAnalysis.Metrics.Loc

open Trees

namespace Stats

/-- A row filed both as comment-only and as code. -/
def Clash (s : Stats) (r : ℕ) : Prop := r ∈ s.cloc.onlyCommentLineStarts ∧ r ∈ s.ploc.lines

/-- Clamping keeps exactly the clashes inside the span. -/
theorem finalize_clash (s : Stats) (r : ℕ) : s.finalize.Clash r ↔ s.Clash r ∧ r ∈ s.span := by
  simp only [Clash, mem_finalize_code, mem_finalize_onlyComment]
  tauto

end Stats

/-- The observation files a row both ways: a comment runs on over a row that is code
already, or code is found on a row filed as comment-only that no comment just ended on. -/
def Observation.Collides (o : Observation) (s : Stats) (r : ℕ) : Prop :=
  match o with
  | .comment start last _ _ => start < r ∧ r ≤ last ∧ r ∈ s.ploc.lines
  | .code row =>
    r = row ∧ row ∈ s.cloc.onlyCommentLineStarts ∧ s.cloc.commentLineEnd ≠ some row
  | .codeRows first last => first ≤ r ∧ r ≤ last ∧ r ∈ s.cloc.onlyCommentLineStarts
  | .bareComment _ | .documentation _ _ | .logicalLine => False

/-- Merging the finished child files a row both ways: comment-only in one of the two and
code in the other. -/
def MergeCollides (parent child : Stats) (r : ℕ) : Prop :=
  (r ∈ child.cloc.onlyCommentLineStarts ∧ r ∈ parent.ploc.lines) ∨
    (r ∈ child.ploc.lines ∧ r ∈ parent.cloc.onlyCommentLineStarts)

namespace Stats

theorem addClocLines_clash (s : Stats) (start last r : ℕ) :
    (s.addClocLines start last).Clash r ↔
      s.Clash r ∨ (start < r ∧ r ≤ last ∧ r ∈ s.ploc.lines) := by
  unfold addClocLines
  dsimp only
  split_ifs with h₁ h₂
  · have : ¬ (start < r ∧ r ≤ last ∧ r ∈ s.ploc.lines) := by omega
    simp only [this, or_false]
    exact Iff.rfl
  · simp only [Clash, addOnlyCommentLines, addCodeCommentLine, LineSet.insertRange,
      Finset.mem_union, Finset.mem_Icc]
    have : start + 1 ≤ r ↔ start < r := Iff.rfl
    rw [this]
    tauto
  · have hstart : start ∉ s.ploc.lines := fun h => by
      rcases Nat.eq_zero_or_pos (last - start) with h0 | h0
      · exact h₁ ⟨h, h0⟩
      · exact h₂ ⟨h, h0⟩
    simp only [Clash, addOnlyCommentLines, LineSet.insertRange, Finset.mem_union, Finset.mem_Icc]
    constructor
    · rintro ⟨ho | ⟨hle, hlast⟩, hp⟩
      · exact .inl ⟨ho, hp⟩
      · have hne : start ≠ r := fun heq => hstart (heq ▸ hp)
        exact .inr ⟨by omega, hlast, hp⟩
    · rintro (⟨ho, hp⟩ | ⟨hlt, hlast, hp⟩)
      · exact ⟨.inl ho, hp⟩
      · exact ⟨.inr ⟨by omega, hlast⟩, hp⟩

theorem addCodeLine_clash (s : Stats) (row r : ℕ) :
    (s.addCodeLine row).Clash r ↔
      s.Clash r ∨ (r = row ∧ row ∈ s.cloc.onlyCommentLineStarts ∧
        s.cloc.commentLineEnd ≠ some row) := by
  unfold addCodeLine checkCommentEndsOnCodeLine
  dsimp only
  split_ifs with h
  · obtain ⟨hend, hcode⟩ := h
    simp only [Clash, addCodeCommentLine, Finset.mem_erase, Finset.mem_insert, hend, ne_eq,
      not_true_eq_false, and_false, or_false]
    constructor
    · rintro ⟨⟨hne, ho⟩, heq | hp⟩
      · exact absurd heq hne
      · exact ⟨ho, hp⟩
    · rintro ⟨ho, hp⟩
      exact ⟨⟨fun heq => hcode (heq ▸ hp), ho⟩, .inr hp⟩
  · simp only [Clash, Finset.mem_insert]
    by_cases hr : r = row
    · subst hr
      constructor
      · rintro ⟨ho, -⟩
        by_cases hend : s.cloc.commentLineEnd = some r
        · exact .inl ⟨ho, by by_contra hp; exact h ⟨hend, hp⟩⟩
        · exact .inr ⟨rfl, ho, hend⟩
      · rintro (⟨ho, -⟩ | ⟨-, ho, -⟩) <;> exact ⟨ho, .inl rfl⟩
    · simp [hr]

/-- What one observation adds to the clashes. -/
theorem observe_clash (s : Stats) (o : Observation) (r : ℕ) :
    (s.observe o).Clash r ↔ s.Clash r ∨ o.Collides s r := by
  cases o with
  | comment start last _ documentation =>
    have h := addClocLines_clash s start last r
    cases documentation <;> exact h
  | code row => exact addCodeLine_clash s row r
  | codeRows first last =>
    simp only [observe, addCodeRows, Clash, Observation.Collides, LineSet.insertRange,
      Finset.mem_union, Finset.mem_Icc]
    tauto
  | bareComment row =>
    simp only [observe, addBareComment, Observation.Collides, or_false]
    split_ifs with h
    · exact Iff.rfl
    · simp only [Clash, addOnlyCommentLines, LineSet.insertRange, Finset.mem_union,
        Finset.Icc_self, Finset.mem_singleton]
      constructor
      · rintro ⟨ho | rfl, hp⟩
        · exact ⟨ho, hp⟩
        · exact absurd hp h
      · rintro ⟨ho, hp⟩
        exact ⟨.inl ho, hp⟩
  | documentation first last => simp only [Observation.Collides, or_false]; exact Iff.rfl
  | logicalLine => simp only [Observation.Collides, or_false]; exact Iff.rfl

/-- What merging a finished child adds to the clashes. -/
theorem merge_clash (s child : Stats) (r : ℕ) :
    (s.merge child).Clash r ↔ s.Clash r ∨ child.Clash r ∨ MergeCollides s child r := by
  simp only [Clash, merge, MergeCollides, Finset.mem_union]
  tauto

end Stats

/-! ### Collisions of a timeline -/

/-- Some observation of the list files row `r` both ways when its turn comes. -/
def RowsCollide (r : ℕ) : List Observation → Stats → Prop
  | [], _ => False
  | o :: rows, s => o.Collides s r ∨ RowsCollide r rows (s.observe o)

theorem observeAll_clash (rows : List Observation) (s : Stats) (r : ℕ) :
    (s.observeAll rows).Clash r ↔ s.Clash r ∨ RowsCollide r rows s := by
  induction rows generalizing s with
  | nil => simp [Stats.observeAll, RowsCollide]
  | cons o rows ih =>
    have hstep : s.observeAll (o :: rows) = (s.observe o).observeAll rows := rfl
    rw [hstep, ih, Stats.observe_clash, RowsCollide, or_assoc]

section Timeline
variable {ν π κ : Type*} (reading : Reading ν π κ)

/-- The two ways a scope comes to file a row both as comment-only and as code. -/
def clashCause (r : ℕ) : Step.Cause ν π Stats where
  visit v s := RowsCollide r (reading.rows v) s
  prune _ _ := False
  leave s child := MergeCollides s child.finalize r

/-- An observation or a merge of the scope files a row of its span both ways. -/
def Collides (k : κ) (steps : List (Step ν π κ)) : Prop :=
  ∃ r ∈ (openStats reading k).span,
    Step.Occurs (locAlgebra reading) (clashCause reading r) steps (openStats reading k)

/-- Comment-only rows and code rows of a finished space are separate, and its blank rows
are the rows of the span without code and without a comment. -/
structure RowsSeparate (s : Stats) : Prop where
  disjoint : Disjoint s.cloc.onlyCommentLineStarts s.ploc.lines
  blank_eq : s.blankValue = s.slocValue - s.occupied.card
  blank_rows : s.blankValue = (s.span \ s.occupied).card

/-- When the finished child spaces are free of clashes, the clashes of a space are its own
collisions. -/
theorem spaceStats_clash (k : κ) (steps : List (Step ν π κ)) (r : ℕ)
    (finished : ∀ p ∈ Step.withinAll steps, ¬ (finalStats reading p.1 p.2).Clash r) :
    (spaceStats reading k steps).Clash r ↔
      Step.Occurs (locAlgebra reading) (clashCause reading r) steps (openStats reading k) := by
  have hopen : ¬ (openStats reading k).Clash r := by
    rintro ⟨ho, -⟩
    exact absurd ho (Finset.notMem_empty r)
  have hrun := Step.execAll_iff_occurs (locAlgebra reading) (clashCause reading r)
    (Q := (Stats.Clash · r)) (R := fun c => ¬ c.finalize.Clash r)
    (fun v s => observeAll_clash (reading.rows v) s r)
    (fun p s => by
      have hsets : ((locAlgebra reading).prune p s).Clash r ↔ s.Clash r := by
        show (s.excludeSpan _ _).Clash r ↔ s.Clash r
        unfold Stats.excludeSpan
        split_ifs <;> rfl
      simpa only [clashCause, or_false] using hsets)
    (fun s c hc => by
      show (s.merge c.finalize).Clash r ↔ s.Clash r ∨ MergeCollides s c.finalize r
      rw [Stats.merge_clash]
      simp only [hc, false_or])
    steps (fun p hp _ => finished p hp) (openStats reading k)
  rw [spaceStats, hrun]
  simp only [hopen, false_or]

theorem finalStats_clash (k : κ) (steps : List (Step ν π κ))
    (finished : ∀ p ∈ Step.withinAll steps, ∀ r, ¬ (finalStats reading p.1 p.2).Clash r) :
    (∃ r, (finalStats reading k steps).Clash r) ↔ Collides reading k steps := by
  have hrow : ∀ r, (finalStats reading k steps).Clash r ↔
      r ∈ (openStats reading k).span ∧
        Step.Occurs (locAlgebra reading) (clashCause reading r) steps (openStats reading k) := by
    intro r
    rw [finalStats, Stats.finalize_clash, spaceStats_span,
      spaceStats_clash reading k steps r fun p hp => finished p hp r, and_comm]
  simp only [hrow, Collides]

/-- Without a collision anywhere in a scope its finished space has no clash. -/
theorem no_clash_of_not_collides (k : κ) (steps : List (Step ν π κ)) :
    (∀ p ∈ (k, steps) :: Step.withinAll steps, ¬ Collides reading p.1 p.2) →
      ∀ r, ¬ (finalStats reading k steps).Clash r := by
  induction k, steps using Step.scope_induction with
  | scope k steps ih =>
    intro h r hr
    have hinside : ∀ p ∈ Step.withinAll steps, ∀ r, ¬ (finalStats reading p.1 p.2).Clash r := by
      intro p hp
      refine ih p hp fun q hq => h q (List.mem_cons_of_mem _ ?_)
      rcases List.mem_cons.mp hq with rfl | hq
      · exact hp
      · exact Step.withinAll_trans hp hq
    exact h (k, steps) (List.mem_cons_self ..)
      ((finalStats_clash reading k steps hinside).mp ⟨r, hr⟩)

/-! ### Rows filed separately -/

/-- A row with both code and a comment is a row of code. -/
def CodeCommentOnCode (s : Stats) : Prop := s.cloc.codeCommentLineStarts ⊆ s.ploc.lines

theorem codeCommentOnCode_observe (s : Stats) (o : Observation) (h : CodeCommentOnCode s) :
    CodeCommentOnCode (s.observe o) := by
  have hinsert : ∀ row, row ∈ s.ploc.lines →
      insert row s.cloc.codeCommentLineStarts ⊆ s.ploc.lines :=
    fun row hrow => Finset.insert_subset hrow h
  cases o with
  | comment start last _ documentation =>
    have hcloc : CodeCommentOnCode (s.addClocLines start last) := by
      unfold Stats.addClocLines
      dsimp only
      split_ifs with h₁ h₂
      · exact hinsert start h₁.1
      · exact hinsert start h₂.1
      · exact h
    cases documentation <;> exact hcloc
  | code row =>
    have hwide : s.cloc.codeCommentLineStarts ⊆ insert row s.ploc.lines :=
      h.trans (Finset.subset_insert _ _)
    show CodeCommentOnCode (s.addCodeLine row)
    unfold Stats.addCodeLine Stats.checkCommentEndsOnCodeLine
    dsimp only
    split_ifs
    · exact Finset.insert_subset (Finset.mem_insert_self _ _) hwide
    · exact hwide
  | codeRows first last => exact h.trans Finset.subset_union_left
  | bareComment row =>
    show CodeCommentOnCode (s.addBareComment row)
    unfold Stats.addBareComment
    split_ifs with hrow
    · exact hinsert row hrow
    · exact h
  | documentation first last => exact h
  | logicalLine => exact h

theorem codeCommentOnCode_finalize (s : Stats) (h : CodeCommentOnCode s) :
    CodeCommentOnCode s.finalize := by
  intro r hr
  obtain ⟨hboth, hspan⟩ := (s.mem_finalize_codeComment r).mp hr
  exact (s.mem_finalize_code r).mpr ⟨h hboth, hspan⟩

theorem codeCommentOnCode_spaceStats (k : κ) (steps : List (Step ν π κ)) :
    CodeCommentOnCode (spaceStats reading k steps) := by
  apply Step.execAll_invariant
  · intro v s h
    show CodeCommentOnCode (s.observeAll (reading.rows v))
    generalize reading.rows v = rows
    induction rows generalizing s with
    | nil => exact h
    | cons o rows ih => exact ih _ (codeCommentOnCode_observe s o h)
  · intro p s h
    show CodeCommentOnCode (s.excludeSpan _ _)
    unfold Stats.excludeSpan
    split_ifs <;> exact h
  · intro k s _
    exact Finset.empty_subset _
  · intro s c hs hc
    exact Finset.union_subset_union hs (codeCommentOnCode_finalize c hc)
  · exact Finset.empty_subset _

/-- Nothing is excluded where nothing is pruned. -/
theorem excludedRows_unpruned (reading : Reading ν Empty κ) (k : κ)
    (steps : List (Step ν Empty κ)) :
    (spaceStats reading k steps).sloc.excludedRows = ∅ := by
  apply Step.execAll_invariant (I := fun s : Stats => s.sloc.excludedRows = ∅)
  · intro v s h
    show (s.observeAll (reading.rows v)).sloc.excludedRows = ∅
    rw [Stats.observeAll_sloc, h]
  · exact fun p => p.elim
  · intro k s _
    rfl
  · intro s c hs hc
    have hchild : c.finalize.sloc.excludedRows = ∅ := by
      refine Finset.eq_empty_of_forall_notMem fun r hr => ?_
      have hmem := ((c.mem_finalize_excluded r).mp hr).1
      rw [hc] at hmem
      exact Finset.notMem_empty r hmem
    show s.sloc.excludedRows ∪ c.finalize.sloc.excludedRows = ∅
    rw [hs, hchild, Finset.union_empty]
  · rfl

/-- The rows of a finished unpruned space are separate exactly when none is filed twice. -/
theorem rowsSeparate_iff_no_clash (reading : Reading ν Empty κ) (k : κ)
    (steps : List (Step ν Empty κ)) :
    RowsSeparate (finalStats reading k steps) ↔
      ∀ r, ¬ (finalStats reading k steps).Clash r := by
  set s := finalStats reading k steps with hs
  constructor
  · rintro ⟨hdisjoint, -, -⟩ r ⟨ho, hp⟩
    exact Finset.disjoint_left.mp hdisjoint ho hp
  · intro h
    have hdisjoint : Disjoint s.cloc.onlyCommentLineStarts s.ploc.lines :=
      Finset.disjoint_left.mpr fun r ho hp => h r ⟨ho, hp⟩
    have hexcluded : s.sloc.excludedRows = ∅ := by
      refine Finset.eq_empty_of_forall_notMem fun r hr => ?_
      have hmem := (((spaceStats reading k steps).mem_finalize_excluded r).mp hr).1
      rw [excludedRows_unpruned] at hmem
      exact Finset.notMem_empty r hmem
    have hcode : s.cloc.codeCommentLineStarts ⊆ s.ploc.lines :=
      codeCommentOnCode_finalize _ (codeCommentOnCode_spaceStats reading k steps)
    have hoccupied : s.occupied = s.cloc.onlyCommentLineStarts ∪ s.ploc.lines := by
      rw [Stats.occupied, Stats.commentRows, Finset.union_left_comm,
        Finset.union_eq_left.mpr hcode]
    have hcard : s.occupied.card = s.cloc.onlyCommentLineStarts.card + s.ploc.lines.card := by
      rw [hoccupied, Finset.card_union_of_disjoint hdisjoint]
    have hsloc : s.slocValue = s.span.card := by
      rw [Stats.slocValue, hexcluded, Stats.span, Nat.card_Ico, Finset.card_empty, spanRows,
        Nat.sub_zero]
    have hsub : s.occupied ⊆ s.span := Stats.finalize_occupied_subset _
    have hblank : s.blankValue = s.slocValue - s.occupied.card := by
      rw [Stats.blankValue, Stats.plocValue, hcard]
      omega
    refine ⟨hdisjoint, hblank, ?_⟩
    rw [hblank, hsloc, Finset.card_sdiff_of_subset hsub]

/-- Every space of an unpruned tree keeps comment-only rows and code rows apart exactly
when no observation and no merge of any space files a row of its span both ways. -/
theorem rowsSeparate_iff_not_collides (reading : Reading ν Empty κ) (k : κ)
    (steps : List (Step ν Empty κ)) :
    (∀ p ∈ (k, steps) :: Step.withinAll steps, RowsSeparate (finalStats reading p.1 p.2)) ↔
      ∀ p ∈ (k, steps) :: Step.withinAll steps, ¬ Collides reading p.1 p.2 := by
  have hinside : ∀ p ∈ (k, steps) :: Step.withinAll steps, ∀ q ∈ Step.withinAll p.2,
      q ∈ (k, steps) :: Step.withinAll steps := by
    intro p hp q hq
    rcases List.mem_cons.mp hp with rfl | hp
    · exact List.mem_cons_of_mem _ hq
    · exact List.mem_cons_of_mem _ (Step.withinAll_trans hp hq)
  constructor
  · intro h p hp hcollides
    have hclash : ∀ q ∈ (k, steps) :: Step.withinAll steps,
        ∀ r, ¬ (finalStats reading q.1 q.2).Clash r :=
      fun q hq => (rowsSeparate_iff_no_clash reading q.1 q.2).mp (h q hq)
    obtain ⟨r, hr⟩ := (finalStats_clash reading p.1 p.2
      fun q hq => hclash q (hinside p hp q hq)).mpr hcollides
    exact hclash p hp r hr
  · intro h p hp
    refine (rowsSeparate_iff_no_clash reading p.1 p.2).mpr
      (no_clash_of_not_collides reading p.1 p.2 fun q hq => h q ?_)
    rcases List.mem_cons.mp hq with rfl | hq
    · exact hp
    · exact hinside p hp q hq

end Timeline

/-! ### A comment before a function -/

/-- `/* a */ int f() {` and a closing brace on the next row: the unit observes the comment,
the function its own rows. -/
def commentBeforeFunction : List (Step (List Observation) Empty (ℕ × ℕ)) :=
  [.visit [.comment 0 0 sameRow false], .child (0, 2) [.visit [.code 0], .visit [.code 1]]]

/-- The row of the comment and the function is counted both as comment-only and as code in
the unit. -/
theorem commentBeforeFunction_counted_twice :
    let s := finalStats ⟨id, Empty.elim, id⟩ (0, 2) commentBeforeFunction
    s.cloc.onlyCommentLineStarts = {0} ∧ s.ploc.lines = {0, 1} ∧ ¬ RowsSeparate s := by
  have honly : (finalStats ⟨id, Empty.elim, id⟩ (0, 2)
      commentBeforeFunction).cloc.onlyCommentLineStarts = {0} := by decide +kernel
  have hcode : (finalStats ⟨id, Empty.elim, id⟩ (0, 2)
      commentBeforeFunction).ploc.lines = {0, 1} := by decide +kernel
  refine ⟨honly, hcode, fun h => ?_⟩
  have hdisjoint := h.disjoint
  rw [honly, hcode] at hdisjoint
  exact absurd hdisjoint (by decide)

end BigCodeAnalysis.Metrics.Loc
