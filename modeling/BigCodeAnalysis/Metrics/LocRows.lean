import BigCodeAnalysis.Metrics.Loc
import BigCodeAnalysis.Trees.Gather

/-! The row sets of a finished space in closed form. Which rows carry code, comments and
documentation does not depend on the order of the observations, only on who made them:
each space contributes its own rows and what its inner spaces kept, clamped to its span. -/

namespace BigCodeAnalysis.Metrics.Loc

open Trees

namespace Observation

def rowsOfCode : Observation → LineSet
  | .code row => {row}
  | .codeRows first last => Finset.Icc first last
  | .comment .. | .bareComment _ | .documentation .. | .logicalLine => ∅

def rowsOfComment : Observation → LineSet
  | .comment start last _ _ => Finset.Icc start last
  | .bareComment row => {row}
  | .code _ | .codeRows .. | .documentation .. | .logicalLine => ∅

def rowsOfDocumentation : Observation → LineSet
  | .comment start last _ billed => if billed then Finset.Icc start last else ∅
  | .documentation first last => Finset.Icc first last
  | .code _ | .codeRows .. | .bareComment _ | .logicalLine => ∅

end Observation

/-- The rows a list of observations covers. -/
def covered (f : Observation → LineSet) : List Observation → LineSet
  | [] => ∅
  | o :: rows => f o ∪ covered f rows

theorem covered_empty (rows : List Observation) : covered (fun _ => ∅) rows = ∅ := by
  induction rows with
  | nil => rfl
  | cons o rows ih => rw [covered, ih, Finset.union_empty]

theorem covered_union (f g : Observation → LineSet) (rows : List Observation) :
    covered (fun o => f o ∪ g o) rows = covered f rows ∪ covered g rows := by
  induction rows with
  | nil => rfl
  | cons o rows ih => rw [covered, ih, Finset.union_union_union_comm]; rfl

namespace Stats

theorem observe_code (s : Stats) (o : Observation) :
    (s.observe o).ploc.lines = s.ploc.lines ∪ o.rowsOfCode := by
  cases o with
  | comment start last _ documentation =>
    have h : (s.addClocLines start last).ploc.lines = s.ploc.lines := by
      unfold addClocLines
      dsimp only
      split_ifs <;> rfl
    rw [Observation.rowsOfCode, Finset.union_empty]
    cases documentation <;> exact h
  | code row =>
    have h : (s.checkCommentEndsOnCodeLine row).ploc = s.ploc := by
      unfold checkCommentEndsOnCodeLine
      split_ifs <;> rfl
    show insert row (s.checkCommentEndsOnCodeLine row).ploc.lines = s.ploc.lines ∪ {row}
    rw [h, Finset.union_comm, ← Finset.insert_eq]
  | codeRows first last => rfl
  | bareComment row =>
    rw [Observation.rowsOfCode, Finset.union_empty]
    unfold observe addBareComment
    dsimp only
    split_ifs <;> rfl
  | documentation first last => exact (Finset.union_empty _).symm
  | logicalLine => exact (Finset.union_empty _).symm

theorem addClocLines_comment (s : Stats) (start last : ℕ) (ordered : start ≤ last) :
    (s.addClocLines start last).commentRows = s.commentRows ∪ Finset.Icc start last := by
  unfold addClocLines
  dsimp only
  ext r
  split_ifs with h₁ h₂
  · have hlast : last = start := by omega
    simp only [commentRows, addCodeCommentLine, Finset.mem_union, Finset.mem_insert, hlast,
      Finset.Icc_self, Finset.mem_singleton]
    tauto
  · simp only [commentRows, addOnlyCommentLines, addCodeCommentLine, LineSet.insertRange,
      Finset.mem_union, Finset.mem_insert, Finset.mem_Icc]
    have hsplit : start ≤ r ∧ r ≤ last ↔ r = start ∨ (start + 1 ≤ r ∧ r ≤ last) := by omega
    rw [hsplit]
    tauto
  · simp only [commentRows, addOnlyCommentLines, LineSet.insertRange, Finset.mem_union]
    tauto

/-- The row the last independent comment ends on is a comment row. -/
def EndsOnComment (s : Stats) : Prop := ∀ row, s.cloc.commentLineEnd = some row → row ∈ s.commentRows

/-- Refiling a row moves it from one comment set to the other. -/
theorem addCodeLine_comment (s : Stats) (row : ℕ) (hend : s.EndsOnComment) :
    (s.addCodeLine row).commentRows = s.commentRows := by
  unfold addCodeLine checkCommentEndsOnCodeLine
  dsimp only
  split_ifs with h
  · have hrow := hend row h.1
    ext r
    simp only [commentRows, addCodeCommentLine, Finset.mem_union, Finset.mem_erase,
      Finset.mem_insert] at hrow ⊢
    by_cases hr : r = row
    · subst hr
      simpa using hrow
    · simp [hr]
  · rfl

theorem observe_comment (s : Stats) (o : Observation) (hend : s.EndsOnComment) :
    (s.observe o).commentRows = s.commentRows ∪ o.rowsOfComment := by
  cases o with
  | comment start last ordered documentation =>
    have h := s.addClocLines_comment start last ordered
    cases documentation <;> exact h
  | code row =>
    rw [Observation.rowsOfComment, Finset.union_empty]
    exact s.addCodeLine_comment row hend
  | codeRows first last => exact (Finset.union_empty _).symm
  | bareComment row =>
    unfold observe addBareComment
    dsimp only
    split_ifs
    · show s.cloc.onlyCommentLineStarts ∪ insert row s.cloc.codeCommentLineStarts = _ ∪ {row}
      rw [Finset.insert_eq, Finset.union_comm {row}, ← Finset.union_assoc, commentRows]
    · show (s.cloc.onlyCommentLineStarts ∪ Finset.Icc row row) ∪ _ = _ ∪ {row}
      rw [Finset.Icc_self, Finset.union_right_comm, commentRows, addOnlyCommentLines]
  | documentation first last => exact (Finset.union_empty _).symm
  | logicalLine => exact (Finset.union_empty _).symm

theorem observe_endsOnComment (s : Stats) (o : Observation) (hend : s.EndsOnComment) :
    (s.observe o).EndsOnComment := by
  have hgrows := s.observe_comment o hend
  have hend' : (s.observe o).cloc.commentLineEnd = s.cloc.commentLineEnd ∨
      ∃ last ∈ o.rowsOfComment, (s.observe o).cloc.commentLineEnd = some last := by
    cases o with
    | comment start last ordered documentation =>
      have h : (s.addClocLines start last).cloc.commentLineEnd = s.cloc.commentLineEnd ∨
          (s.addClocLines start last).cloc.commentLineEnd = some last := by
        unfold addClocLines
        dsimp only
        split_ifs
        · exact .inl rfl
        · exact .inl rfl
        · exact .inr rfl
      have hlast : last ∈ Finset.Icc start last := Finset.mem_Icc.mpr ⟨ordered, le_rfl⟩
      cases documentation <;> exact h.imp id fun h => ⟨last, hlast, h⟩
    | code row =>
      left
      show (s.checkCommentEndsOnCodeLine row).cloc.commentLineEnd = _
      unfold checkCommentEndsOnCodeLine
      split_ifs <;> rfl
    | bareComment row =>
      left
      show (s.addBareComment row).cloc.commentLineEnd = _
      unfold addBareComment
      split_ifs <;> rfl
    | codeRows first last => exact .inl rfl
    | documentation first last => exact .inl rfl
    | logicalLine => exact .inl rfl
  intro row hrow
  rw [hgrows, Finset.mem_union]
  rcases hend' with h | ⟨last, hlast, h⟩
  · exact .inl (hend row (h ▸ hrow))
  · rw [h, Option.some.injEq] at hrow
    exact .inr (hrow ▸ hlast)

theorem observe_documentation (s : Stats) (o : Observation) :
    (s.observe o).dloc.lines = s.dloc.lines ∪ o.rowsOfDocumentation := by
  cases o with
  | comment start last _ documentation =>
    have h : (s.addClocLines start last).dloc = s.dloc := by
      unfold addClocLines
      dsimp only
      split_ifs <;> rfl
    cases documentation with
    | false =>
      show (s.addClocLines start last).dloc.lines = s.dloc.lines ∪ ∅
      rw [h, Finset.union_empty]
    | true =>
      show (s.addClocLines start last).dloc.lines ∪ Finset.Icc start last = _
      rw [h]
      rfl
  | code row =>
    rw [Observation.rowsOfDocumentation, Finset.union_empty]
    show (s.checkCommentEndsOnCodeLine row).dloc.lines = _
    unfold checkCommentEndsOnCodeLine
    split_ifs <;> rfl
  | bareComment row =>
    rw [Observation.rowsOfDocumentation, Finset.union_empty]
    show (s.addBareComment row).dloc.lines = _
    unfold addBareComment
    split_ifs <;> rfl
  | codeRows first last => exact (Finset.union_empty _).symm
  | documentation first last => rfl
  | logicalLine => exact (Finset.union_empty _).symm

theorem observeAll_endsOnComment (s : Stats) (rows : List Observation) (hend : s.EndsOnComment) :
    (s.observeAll rows).EndsOnComment := by
  induction rows generalizing s with
  | nil => exact hend
  | cons o rows ih => exact ih _ (s.observe_endsOnComment o hend)

/-- A set that every observation adds its own rows to. -/
theorem observeAll_covered (f : Stats → LineSet) (own : Observation → LineSet)
    (hstep : ∀ s o, s.EndsOnComment → f (s.observe o) = f s ∪ own o) (s : Stats)
    (rows : List Observation) (hend : s.EndsOnComment) :
    f (s.observeAll rows) = f s ∪ covered own rows := by
  induction rows generalizing s with
  | nil => exact (Finset.union_empty _).symm
  | cons o rows ih =>
    show f ((s.observe o).observeAll rows) = f s ∪ (own o ∪ covered own rows)
    rw [ih _ (s.observe_endsOnComment o hend), hstep s o hend, Finset.union_assoc]

theorem merge_commentRows (s child : Stats) :
    (s.merge child).commentRows = s.commentRows ∪ child.commentRows :=
  Finset.union_union_union_comm ..

theorem merge_occupied (s child : Stats) :
    (s.merge child).occupied = s.occupied ∪ child.occupied := by
  rw [occupied, merge_commentRows]
  exact Finset.union_union_union_comm ..

/-- Settling moves no row out of the union of excluded and occupied rows. -/
theorem finalize_excluded_union (s : Stats) :
    s.finalize.sloc.excludedRows ∪ s.finalize.occupied =
      (s.sloc.excludedRows ∪ s.occupied) ∩ s.span := by
  ext r
  rw [Finset.mem_union, mem_finalize_excluded, mem_finalize_occupied, Finset.mem_inter,
    Finset.mem_union]
  by_cases hr : r ∈ s.occupied
  · simp only [hr, not_true_eq_false, and_false, false_or, or_true, true_and]
  · simp only [hr, not_false_eq_true, and_true, false_and, or_false]

theorem excludeSpan_excludedRows (s : Stats) (startRow endLine : ℕ) :
    (s.excludeSpan startRow endLine).sloc.excludedRows =
      s.sloc.excludedRows ∪ Finset.Ico startRow endLine := by
  unfold excludeSpan
  split_ifs with h
  · rw [Finset.Ico_eq_empty (by omega), Finset.union_empty]
  · have hrange : Finset.Icc startRow (endLine - 1) = Finset.Ico startRow endLine := by
      ext r
      simp only [Finset.mem_Icc, Finset.mem_Ico]
      omega
    show s.sloc.excludedRows ∪ Finset.Icc startRow (endLine - 1) = _
    rw [hrange]

theorem excludeSpan_of_ne_sloc {α : Sort*} (f : Ploc → Cloc → Dloc → α) (s : Stats)
    (startRow endLine : ℕ) :
    f (s.excludeSpan startRow endLine).ploc (s.excludeSpan startRow endLine).cloc
      (s.excludeSpan startRow endLine).dloc = f s.ploc s.cloc s.dloc := by
  unfold excludeSpan
  split_ifs <;> rfl

end Stats

/-! ### The rows of a space -/

section Rows
variable {ν π κ : Type*} (reading : Reading ν π κ)

namespace Reading

/-- The rows a node or a pruned node contributes. -/
def contributed (own : Observation → LineSet) (cut : ℕ → ℕ → LineSet) : ν ⊕ π → LineSet
  | .inl v => covered own (reading.rows v)
  | .inr p => cut (reading.pruned p).1 (reading.pruned p).2

def observed (own : Observation → LineSet) : ν ⊕ π → LineSet :=
  reading.contributed own fun _ _ => ∅

def prunedSpan : ν ⊕ π → LineSet := reading.contributed (fun _ => ∅) Finset.Ico

def spanOf (k : κ) : LineSet := Finset.Ico (reading.span k).1 (reading.span k).2

/-- Clamp to the span of a space. -/
def clamp (k : κ) (rows : LineSet) : LineSet := rows ∩ reading.spanOf k

/-- The rows a space gathers: its own contributions and what the spaces inside keep. -/
def gathered (own : ν ⊕ π → LineSet) (steps : List (Step ν π κ)) : LineSet :=
  Step.gatherAll own reading.clamp steps

/-- The rows of a finished space. -/
def rowsIn (own : ν ⊕ π → LineSet) (k : κ) (steps : List (Step ν π κ)) : LineSet :=
  reading.clamp k (reading.gathered own steps)

def codeIn (k : κ) (steps : List (Step ν π κ)) : LineSet :=
  reading.rowsIn (reading.observed Observation.rowsOfCode) k steps

def commentIn (k : κ) (steps : List (Step ν π κ)) : LineSet :=
  reading.rowsIn (reading.observed Observation.rowsOfComment) k steps

def documentationIn (k : κ) (steps : List (Step ν π κ)) : LineSet :=
  reading.rowsIn (reading.observed Observation.rowsOfDocumentation) k steps

/-- The rows of the span that only pruned subtrees occupy. -/
def onlyPrunedIn (k : κ) (steps : List (Step ν π κ)) : LineSet :=
  (reading.rowsIn reading.prunedSpan k steps \ reading.codeIn k steps) \ reading.commentIn k steps

end Reading

theorem openStats_span (k : κ) : (openStats reading k).span = reading.spanOf k := rfl

theorem finalStats_ends (k : κ) (steps : List (Step ν π κ)) :
    (finalStats reading k steps).sloc.start = (reading.span k).1 ∧
      (finalStats reading k steps).sloc.endLine = (reading.span k).2 :=
  spaceStats_ends reading k steps

/-- A set that observations and prunes add rows to, and that a finished child hands up
clamped to its span. -/
theorem spaceStats_gathered (f : Stats → LineSet) (own : Observation → LineSet)
    (cut : ℕ → ℕ → LineSet) (observe : ∀ s o, s.EndsOnComment → f (s.observe o) = f s ∪ own o)
    (prune : ∀ (s : Stats) startRow endLine,
      f (s.excludeSpan startRow endLine) = f s ∪ cut startRow endLine)
    (opened : ∀ k, f (openStats reading k) = ∅)
    (merge : ∀ s child : Stats, f (s.merge child.finalize) = f s ∪ (f child ∩ child.span))
    (k : κ) (steps : List (Step ν π κ)) :
    f (spaceStats reading k steps) = reading.gathered (reading.contributed own cut) steps := by
  have hopen : ∀ k, (openStats reading k).EndsOnComment := fun k row hrow => by cases hrow
  have hrun := Step.execAll_gather (reading.contributed own cut) reading.clamp
    (locAlgebra reading) f (I := Stats.EndsOnComment)
    (fun v s hs => ⟨s.observeAll_endsOnComment _ hs,
      s.observeAll_covered f own observe (reading.rows v) hs⟩)
    (fun p s hs => by
      have hcomment : (s.excludeSpan (reading.pruned p).1 (reading.pruned p).2).EndsOnComment := by
        unfold Stats.excludeSpan
        split_ifs <;> exact hs
      exact ⟨hcomment, prune s _ _⟩)
    (fun k s => ⟨hopen k, opened k⟩)
    (fun k steps s hs => by
      refine ⟨fun row hrow => ?_, ?_⟩
      · have hmem := hs row hrow
        simp only [Stats.commentRows, Finset.mem_union] at hmem
        show row ∈ Stats.commentRows (Stats.merge _ _)
        simp only [Stats.commentRows, Stats.merge, Finset.mem_union]
        tauto
      · have hspan : (spaceStats reading k steps).span = reading.spanOf k :=
          (spaceStats_span reading k steps).trans (openStats_span reading k)
        have hmerge := merge s (spaceStats reading k steps)
        rw [hspan] at hmerge
        exact hmerge)
    steps (openStats reading k) (hopen k)
  rw [spaceStats, hrun, opened]
  exact Finset.empty_union _

theorem spaceStats_code (k : κ) (steps : List (Step ν π κ)) :
    (spaceStats reading k steps).ploc.lines =
      reading.gathered (reading.observed Observation.rowsOfCode) steps := by
  apply spaceStats_gathered reading (fun s => s.ploc.lines)
  · exact fun s o _ => s.observe_code o
  · intro s startRow endLine
    rw [Finset.union_empty]
    exact s.excludeSpan_of_ne_sloc (fun ploc _ _ => ploc.lines) startRow endLine
  · exact fun _ => rfl
  · intro s child
    ext r
    simp only [Stats.merge, Finset.mem_union, Stats.mem_finalize_code, Finset.mem_inter]

theorem spaceStats_comment (k : κ) (steps : List (Step ν π κ)) :
    (spaceStats reading k steps).commentRows =
      reading.gathered (reading.observed Observation.rowsOfComment) steps := by
  apply spaceStats_gathered reading Stats.commentRows
  · exact fun s o hend => s.observe_comment o hend
  · intro s startRow endLine
    rw [Finset.union_empty]
    exact s.excludeSpan_of_ne_sloc
      (fun _ cloc _ => cloc.onlyCommentLineStarts ∪ cloc.codeCommentLineStarts) startRow endLine
  · exact fun _ => rfl
  · intro s child
    ext r
    rw [Stats.merge_commentRows, Finset.mem_union, Finset.mem_union, Stats.mem_finalize_comment,
      Finset.mem_inter]

theorem spaceStats_documentation (k : κ) (steps : List (Step ν π κ)) :
    (spaceStats reading k steps).dloc.lines =
      reading.gathered (reading.observed Observation.rowsOfDocumentation) steps := by
  apply spaceStats_gathered reading (fun s => s.dloc.lines)
  · exact fun s o _ => s.observe_documentation o
  · intro s startRow endLine
    rw [Finset.union_empty]
    exact s.excludeSpan_of_ne_sloc (fun _ _ dloc => dloc.lines) startRow endLine
  · exact fun _ => rfl
  · intro s child
    ext r
    simp only [Stats.merge, Finset.mem_union, Stats.mem_finalize_documentation, Finset.mem_inter]

theorem gathered_union (own own' : ν ⊕ π → LineSet) (steps : List (Step ν π κ)) :
    reading.gathered (fun e => own e ∪ own' e) steps =
      reading.gathered own steps ∪ reading.gathered own' steps :=
  Step.gatherAll_sup own reading.clamp own' (fun _ a b => Finset.union_inter_distrib_right a b _)
    steps

/-- Excluded and occupied rows together are gathered like the other sets. -/
theorem spaceStats_excluded (k : κ) (steps : List (Step ν π κ)) :
    (spaceStats reading k steps).sloc.excludedRows ∪ (spaceStats reading k steps).occupied =
      reading.gathered reading.prunedSpan steps ∪ (spaceStats reading k steps).occupied := by
  have hrun : (spaceStats reading k steps).sloc.excludedRows ∪
      (spaceStats reading k steps).occupied = reading.gathered
        (reading.contributed (fun o => o.rowsOfCode ∪ o.rowsOfComment) Finset.Ico) steps := by
    apply spaceStats_gathered reading fun s => s.sloc.excludedRows ∪ s.occupied
    · intro s o hend
      rw [Stats.observe_sloc, Stats.occupied, s.observe_code, s.observe_comment o hend,
        Finset.union_union_union_comm, ← Finset.union_assoc, Stats.occupied]
    · intro s startRow endLine
      have hoccupied : (s.excludeSpan startRow endLine).occupied = s.occupied :=
        s.excludeSpan_of_ne_sloc (fun ploc cloc _ =>
          ploc.lines ∪ (cloc.onlyCommentLineStarts ∪ cloc.codeCommentLineStarts)) startRow endLine
      rw [s.excludeSpan_excludedRows, hoccupied, Finset.union_right_comm]
    · exact fun _ => rfl
    · intro s child
      rw [Stats.merge_occupied, ← child.finalize_excluded_union, ← Finset.union_union_union_comm]
      rfl
  have hsplit : reading.contributed (fun o => o.rowsOfCode ∪ o.rowsOfComment) Finset.Ico =
      fun e => reading.prunedSpan e ∪ (reading.observed Observation.rowsOfCode e ∪
        reading.observed Observation.rowsOfComment e) := by
    funext e
    cases e with
    | inl v =>
      show covered _ (reading.rows v) = covered _ (reading.rows v) ∪ _
      rw [covered_empty, covered_union, Finset.empty_union]
      rfl
    | inr p => exact (Finset.union_empty _).symm
  rw [hrun, hsplit, gathered_union, gathered_union, ← spaceStats_code reading k,
    ← spaceStats_comment reading k, Stats.occupied]

theorem finalStats_code (k : κ) (steps : List (Step ν π κ)) :
    (finalStats reading k steps).ploc.lines = reading.codeIn k steps := by
  ext r
  rw [finalStats, Stats.mem_finalize_code, spaceStats_code, spaceStats_span, openStats_span]
  exact Finset.mem_inter.symm

theorem finalStats_comment (k : κ) (steps : List (Step ν π κ)) :
    (finalStats reading k steps).commentRows = reading.commentIn k steps := by
  ext r
  rw [finalStats, Stats.mem_finalize_comment, spaceStats_comment, spaceStats_span, openStats_span]
  exact Finset.mem_inter.symm

theorem finalStats_documentation (k : κ) (steps : List (Step ν π κ)) :
    (finalStats reading k steps).dloc.lines = reading.documentationIn k steps := by
  ext r
  rw [finalStats, Stats.mem_finalize_documentation, spaceStats_documentation, spaceStats_span,
    openStats_span]
  exact Finset.mem_inter.symm

theorem finalStats_excluded (k : κ) (steps : List (Step ν π κ)) :
    (finalStats reading k steps).sloc.excludedRows = reading.onlyPrunedIn k steps := by
  set s := spaceStats reading k steps with hs
  have hunion : ∀ r, r ∈ s.sloc.excludedRows ∧ r ∉ s.occupied ↔
      r ∈ reading.gathered reading.prunedSpan steps ∧ r ∉ s.occupied := by
    intro r
    have hr := Finset.ext_iff.mp (spaceStats_excluded reading k steps) r
    rw [← hs, Finset.mem_union, Finset.mem_union] at hr
    by_cases hoccupied : r ∈ s.occupied
    · simp only [hoccupied, not_true_eq_false, and_false]
    · simpa only [hoccupied, or_false, not_false_eq_true, and_true] using hr
  have hspan : s.span = reading.spanOf k := spaceStats_span reading k steps
  ext r
  rw [finalStats, ← hs, Stats.mem_finalize_excluded, Reading.onlyPrunedIn, Finset.mem_sdiff,
    Finset.mem_sdiff, ← finalStats_code, ← finalStats_comment, finalStats, ← hs,
    Stats.mem_finalize_code, Stats.mem_finalize_comment, Reading.rowsIn, Reading.clamp,
    Finset.mem_inter, hspan]
  have hr := hunion r
  rw [Stats.occupied, Finset.mem_union, not_or] at hr
  by_cases hin : r ∈ reading.spanOf k
  · simp only [hin, true_and, and_true, Stats.occupied, Finset.mem_union, not_or, hr, and_assoc]
  · simp only [hin, false_and, and_false]

end Rows

end BigCodeAnalysis.Metrics.Loc
