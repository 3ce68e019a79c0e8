import BigCodeAnalysis.Comments.Removal
import Mathlib.Algebra.BigOperators.Group.List.Basic

/-! The walk collects the comments that a recursive descent finds with the ancestors of each node
at hand, the last one first, and in a well-formed tree they follow one another. The copy around
them is a recursion over the spans in source order. It says where a byte that stays is put, and
keeps its row where the spans count their line feeds. -/

namespace BigCodeAnalysis.Comments

open Sequences Trees

section

variable (checker : Checker) (code : Bytes)

mutual
/-- The removed comments of a tree in source order. -/
def removed (ancestors : Ancestors) : Node → List Node
  | .node a cs =>
    if checker.removes code ancestors (.node a cs) then [.node a cs]
    else removedForest (ancestors ++ [.node a cs]) cs

def removedForest (ancestors : Ancestors) : List Node → List Node
  | [] => []
  | t :: ts => removed ancestors t ++ removedForest ancestors ts
end

/-- A state of the walk at depth `k` below the ancestors, with `spans` collected. -/
def Collected (ancestors : Ancestors) (spans : List Span) (s : Ancestors × List Span) : Prop :=
  s.1.take ancestors.length = ancestors ∧ s.2 = spans

theorem descend_collects :
    (∀ (t : Node) ancestors spans s, Collected ancestors spans s →
      Collected ancestors (spans ++ ((removed checker code ancestors t).map span).reverse)
        (StackWalk.descend .rightmostOnTop (visit checker code) ancestors.length t s)) ∧
    ∀ (ts : List Node) ancestors spans s, Collected ancestors spans s →
      Collected ancestors (spans ++ ((removedForest checker code ancestors ts).map span).reverse)
        (StackWalk.descendForest .rightmostOnTop (visit checker code) ancestors.length ts s) := by
  refine Rose.tree_forest_induction ?node ?nil ?cons
  case node =>
    rintro a cs ih ancestors _ ⟨chain, spans⟩ ⟨hchain, rfl⟩
    dsimp only at hchain
    rw [StackWalk.descend, removed, visit]
    dsimp only
    rw [hchain]
    by_cases hremoves : checker.removes code ancestors (.node a cs) = true
    · rw [if_pos hremoves, if_pos hremoves]
      exact ⟨List.take_length, rfl⟩
    rw [if_neg hremoves, if_neg hremoves]
    have hleaf : (Rose.node a cs).children = cs := rfl
    by_cases hcs : cs = []
    · subst hcs
      rw [if_pos hleaf]
      exact ⟨List.take_length, by simp [StackWalk.descendForest, removedForest]⟩
    · rw [hleaf, if_neg hcs]
      have hbelow := ih (ancestors ++ [.node a cs]) spans (ancestors ++ [.node a cs], spans)
        ⟨List.take_length, rfl⟩
      rw [List.length_append, List.length_singleton] at hbelow
      obtain ⟨htake, hspans⟩ := hbelow
      refine ⟨?_, hspans⟩
      have hstart := congrArg (List.take ancestors.length) htake
      rwa [List.take_take, List.take_left, List.length_append, Nat.min_eq_left (by omega)] at hstart
  case nil =>
    intro ancestors spans s hs
    simpa [StackWalk.descendForest, removedForest] using hs
  case cons =>
    intro t ts iht ihts ancestors spans s hs
    have hrest := ihts ancestors spans s hs
    have hfirst := iht ancestors _ _ hrest
    rw [StackWalk.descendForest, removedForest]
    simpa using hfirst

/-- The walk collects the removed comments from the last to the first. -/
theorem collectSpans_eq (root : Node) :
    collectSpans checker code root = ((removed checker code [] root).map span).reverse := by
  have h := (descend_collects checker code).1 root [] [] ([], []) ⟨rfl, rfl⟩
  rw [collectSpans, StackWalk.run_eq_descend]
  exact h.2

/-! ### Well-formed trees -/

/-- The row of a byte: the line feeds before it. -/
def rowAt (code : Bytes) (i : ℕ) : ℕ := (code.take i).count lineFeed

/-- A node of a tree over `code`: its rows are those of its bytes, and its children lie in
it one behind the other. -/
structure NodeFits (code : Bytes) (node : Node) : Prop where
  start_le : node.label.startByte ≤ node.label.endByte
  startRow_eq : node.label.startRow = rowAt code node.label.startByte
  endRow_eq : node.label.endRow = rowAt code node.label.endByte
  nested : ∀ child ∈ node.children,
    node.label.startByte ≤ child.label.startByte ∧ child.label.endByte ≤ node.label.endByte
  inOrder : node.children.Pairwise fun a b => a.label.endByte ≤ b.label.startByte

structure Fits (code : Bytes) (root : Node) : Prop where
  endByte_le : root.label.endByte ≤ code.length
  nodes : ∀ node ∈ root.nodes, NodeFits code node

/-- The spans follow one another from position `i` on, up to `len`. -/
def InOrder (len : ℕ) : ℕ → List Span → Prop
  | i, [] => i ≤ len
  | i, s :: spans => i ≤ s.start ∧ s.start ≤ s.stop ∧ InOrder len s.stop spans

variable {checker code}

theorem InOrder.mono {len i j : ℕ} {spans : List Span} (h : InOrder len j spans) (hij : i ≤ j) :
    InOrder len i spans := by
  cases spans with
  | nil => exact Nat.le_trans hij h
  | cons s spans => exact ⟨Nat.le_trans hij h.1, h.2⟩

theorem removed_inOrder {len : ℕ} :
    (∀ (t : Node) ancestors i rest, (∀ n ∈ t.nodes, NodeFits code n) → i ≤ t.label.startByte →
      InOrder len t.label.endByte rest →
      InOrder len i ((removed checker code ancestors t).map span ++ rest)) ∧
    ∀ (ts : List Node) ancestors i hi rest, (∀ n ∈ Rose.forestNodes ts, NodeFits code n) →
      (∀ t ∈ ts, i ≤ t.label.startByte ∧ t.label.endByte ≤ hi) → i ≤ hi →
      ts.Pairwise (fun a b => a.label.endByte ≤ b.label.startByte) → InOrder len hi rest →
      InOrder len i ((removedForest checker code ancestors ts).map span ++ rest) := by
  refine Rose.tree_forest_induction ?node ?nil ?cons
  case node =>
    intro a cs ih ancestors i rest hfits hi hrest
    rw [Rose.nodes_eq] at hfits
    have hroot := hfits _ List.mem_cons_self
    have hstart := hroot.start_le
    rw [removed]
    split_ifs
    · exact ⟨hi, hstart, hrest⟩
    · refine ih _ i a.endByte rest (fun n hn => hfits n (List.mem_cons_of_mem _ hn)) ?_
        (Nat.le_trans hi hstart) hroot.inOrder hrest
      intro c hc
      have hnested := hroot.nested c hc
      exact ⟨Nat.le_trans hi hnested.1, hnested.2⟩
  case nil =>
    intro ancestors i hi rest _ _ hle _ hrest
    exact hrest.mono hle
  case cons =>
    intro t ts iht ihts ancestors i hi rest hfits hbounds hle hpair hrest
    obtain ⟨hbefore, hpair⟩ := List.pairwise_cons.mp hpair
    obtain ⟨hstart, hend⟩ := hbounds t List.mem_cons_self
    rw [removedForest, List.map_append, List.append_assoc]
    have hnodes : Rose.forestNodes (t :: ts) = t.nodes ++ Rose.forestNodes ts := by
      rw [Rose.forestNodes]
    rw [hnodes] at hfits
    refine iht ancestors i _ (fun n hn => hfits n (List.mem_append_left _ hn)) hstart ?_
    refine ihts ancestors _ hi rest (fun n hn => hfits n (List.mem_append_right _ hn)) ?_ hend
      hpair hrest
    intro c hc
    exact ⟨hbefore c hc, (hbounds c (List.mem_cons_of_mem _ hc)).2⟩

theorem removed_subset :
    (∀ (t : Node) ancestors, removed checker code ancestors t ⊆ t.nodes) ∧
    ∀ (ts : List Node) ancestors, removedForest checker code ancestors ts ⊆ Rose.forestNodes ts := by
  refine Rose.tree_forest_induction ?node ?nil ?cons
  case node =>
    intro a cs ih ancestors
    rw [removed, Rose.nodes_eq]
    split_ifs
    · simp
    · exact List.Subset.trans (ih _) (List.subset_cons_self _ _)
  case nil => simp [removedForest]
  case cons =>
    intro t ts iht ihts ancestors
    rw [removedForest, Rose.forestNodes]
    exact List.append_subset.mpr ⟨List.Subset.trans (iht _) (List.subset_append_left _ _),
      List.Subset.trans (ihts _) (List.subset_append_right _ _)⟩

/-- The spans of a well-formed tree follow one another, and each counts its line feeds. -/
theorem removed_spans (checker : Checker) {root : Node} (h : Fits code root) :
    InOrder code.length 0 ((removed checker code [] root).map span) ∧
    ∀ s ∈ (removed checker code [] root).map span,
      s.lines = rowAt code s.stop - rowAt code s.start := by
  constructor
  · rw [← List.append_nil (List.map span _)]
    exact removed_inOrder.1 root [] 0 [] h.nodes (Nat.zero_le _) h.endByte_le
  · intro s hs
    obtain ⟨node, hnode, rfl⟩ := List.mem_map.mp hs
    have hfits := h.nodes node (removed_subset.1 root [] hnode)
    rw [span, hfits.endRow_eq, hfits.startRow_eq]

end

/-! ### The copy around the spans -/

section

open Sequences

variable {code : Bytes} {ending : LineEnding}

/-- The line breaks in the place of a comment. -/
def breaks (ending : LineEnding) (s : Span) : Bytes :=
  (List.replicate s.lines ending.newline).flatten

/-- The carriage return a comment took from the line it ends. -/
def restored (code : Bytes) (s : Span) : Bytes :=
  if s.start < s.stop ∧ code[s.stop - 1]? = some carriageReturn ∧ code[s.stop]? = some lineFeed then
    [carriageReturn]
  else []

def fill (code : Bytes) (ending : LineEnding) (s : Span) : Bytes :=
  breaks ending s ++ restored code s

/-- The copy from position `i` on. -/
def copied (code : Bytes) (ending : LineEnding) : ℕ → List Span → Bytes
  | i, [] => code.drop i
  | i, s :: spans =>
    (code.take s.start).drop i ++ (fill code ending s ++ copied code ending s.stop spans)

/-- Where the copy from position `i` on puts the byte at `k`. -/
def outIndex (code : Bytes) (ending : LineEnding) : ℕ → List Span → ℕ → ℕ
  | i, [], k => k - i
  | i, s :: spans, k =>
    if k < s.start then k - i
    else s.start - i + ((fill code ending s).length + outIndex code ending s.stop spans k)

/-- The byte at `k` is outside the spans. -/
def Kept (spans : List Span) (k : ℕ) : Prop := ∀ s ∈ spans, k < s.start ∨ s.stop ≤ k

theorem InOrder.le {len i : ℕ} {spans : List Span} (h : InOrder len i spans) : i ≤ len := by
  induction spans generalizing i with
  | nil => exact h
  | cons s spans ih => exact Nat.le_trans (Nat.le_trans h.1 h.2.1) (ih h.2.2)

theorem endsOnCr_eq {s : Span} (hstop : s.stop ≤ code.length) :
    endsOnCr code s = some (decide (restored code s ≠ [])) := by
  unfold endsOnCr restored
  by_cases hlt : s.start < s.stop
  · have hin : s.stop - 1 < code.length := by omega
    rw [if_pos hlt, List.getElem?_eq_getElem hin]
    by_cases hcr : code[s.stop - 1] = carriageReturn <;>
      by_cases hlf : code[s.stop]? = some lineFeed <;> simp [hlt, hcr, hlf]
  · simp [hlt]

theorem replaySpan_eq {out : Bytes} {i : ℕ} {s : Span} (hstart : i ≤ s.start)
    (hspan : s.start ≤ s.stop) (hstop : s.stop ≤ code.length) :
    replaySpan code ending (out, i) s =
      some (out ++ (code.take s.start).drop i ++ fill code ending s, s.stop) := by
  have hnewlines : ∀ bytes : Bytes, (if s.lines ≠ 0 then ending.extendNewlines bytes s.lines
      else bytes) = bytes ++ breaks ending s := by
    intro bytes
    by_cases hlines : s.lines = 0
    · simp [hlines, breaks]
    · rw [if_pos hlines, ending.extendNewlines_eq, breaks]
  have hrestored : ∀ bytes : Bytes, (if decide (restored code s ≠ []) = true then
      bytes ++ [carriageReturn] else bytes) = bytes ++ restored code s := by
    intro bytes
    unfold restored
    split_ifs <;> simp_all
  have hkept := slice_eq_some hstart (Nat.le_trans hspan hstop)
  unfold replaySpan
  rw [endsOnCr_eq hstop]
  simp only [Option.bind_eq_bind, Option.bind_some, hkept, hnewlines, hrestored, fill]
  simp

theorem foldlM_replaySpan (ending : LineEnding) (spans : List Span) : ∀ i out, InOrder code.length i spans →
    ∃ bytes stop, spans.foldlM (replaySpan code ending) (out, i) = some (out ++ bytes, stop) ∧
      stop ≤ code.length ∧ bytes ++ code.drop stop = copied code ending i spans := by
  induction spans with
  | nil =>
    intro i out h
    exact ⟨[], i, by simp, h, rfl⟩
  | cons s spans ih =>
    rintro i out ⟨hstart, hspan, hrest⟩
    obtain ⟨bytes, stop, hfold, hstop, hcopied⟩ := ih s.stop
      (out ++ (code.take s.start).drop i ++ fill code ending s) hrest
    refine ⟨(code.take s.start).drop i ++ (fill code ending s ++ bytes), stop, ?_, hstop, ?_⟩
    · rw [List.foldlM_cons, replaySpan_eq hstart hspan hrest.le]
      simpa using hfold
    · rw [copied, ← hcopied]
      simp

/-- The program copies the text around the spans. -/
theorem removeFromCode_eq {spans : List Span} (h : InOrder code.length 0 spans.reverse) :
    removeFromCode code spans = some (copied code (.detect code) 0 spans.reverse) := by
  obtain ⟨bytes, stop, hfold, hstop, hcopied⟩ :=
    foldlM_replaySpan (.detect code) spans.reverse 0 [] h
  unfold removeFromCode
  rw [hfold, ← hcopied]
  by_cases hlt : stop < code.length
  · have hrest := slice_eq_some hstop (Nat.le_refl code.length)
    simp [hlt, hrest]
  · rw [List.drop_eq_nil_of_le (by omega)]
    simp [hlt]

/-! ### The bytes that stay -/

theorem length_kept {i j : ℕ} (hj : j ≤ code.length) : ((code.take j).drop i).length = j - i := by
  rw [List.length_drop, List.length_take_of_le hj]

theorem getElem?_copied (ending : LineEnding) {k : ℕ} (spans : List Span) :
    ∀ i, InOrder code.length i spans → i ≤ k → Kept spans k →
      (copied code ending i spans)[outIndex code ending i spans k]? = code[k]? := by
  induction spans with
  | nil =>
    intro i _ hik _
    rw [copied, outIndex, List.getElem?_drop, Nat.add_sub_cancel' hik]
  | cons s spans ih =>
    rintro i ⟨hstart, hspan, hrest⟩ hik hkept
    have hlen := length_kept (i := i) (Nat.le_trans hspan hrest.le)
    rw [copied, outIndex]
    by_cases hbefore : k < s.start
    · rw [if_pos hbefore, List.getElem?_append_left (by omega), List.getElem?_drop,
        Nat.add_sub_cancel' hik, List.getElem?_take_of_lt hbefore]
    · have hafter := (hkept s List.mem_cons_self).resolve_left hbefore
      rw [if_neg hbefore, List.getElem?_append_right (by omega), hlen, Nat.add_sub_cancel_left,
        List.getElem?_append_right (by omega), Nat.add_sub_cancel_left]
      exact ih s.stop hrest hafter fun s' hs' => hkept s' (List.mem_cons_of_mem _ hs')

theorem outIndex_lt (ending : LineEnding) {k k' : ℕ} (hlt : k < k') (spans : List Span) :
    ∀ i, InOrder code.length i spans → i ≤ k → Kept spans k → Kept spans k' →
      outIndex code ending i spans k < outIndex code ending i spans k' := by
  induction spans with
  | nil =>
    intro i _ hik _ _
    rw [outIndex, outIndex]
    omega
  | cons s spans ih =>
    rintro i ⟨hstart, hspan, hrest⟩ hik hkept hkept'
    have hnext := ih s.stop hrest
    have htail : ∀ {m}, Kept (s :: spans) m → Kept spans m := fun h s' hs' =>
      h s' (List.mem_cons_of_mem _ hs')
    rw [outIndex, outIndex]
    by_cases hbefore : k < s.start
    · rw [if_pos hbefore]
      split_ifs <;> omega
    · have hafter := (hkept s List.mem_cons_self).resolve_left hbefore
      rw [if_neg hbefore, if_neg (by omega)]
      have hless := hnext hafter (htail hkept) (htail hkept')
      omega

/-! ### Rows -/

theorem rowAt_add (code : Bytes) {i j : ℕ} (h : i ≤ j) :
    ((code.take j).drop i).count lineFeed + rowAt code i = rowAt code j := by
  have hsplit := List.take_append_drop i (code.take j)
  rw [List.take_take, Nat.min_eq_left h] at hsplit
  have hcount := congrArg (List.count lineFeed) hsplit
  rw [List.count_append] at hcount
  rw [rowAt, rowAt]
  omega

theorem count_breaks (ending : LineEnding) (s : Span) :
    (breaks ending s).count lineFeed = s.lines := by
  rw [breaks, List.count_flatten, List.map_replicate, List.sum_replicate]
  cases ending <;> simp [LineEnding.newline, carriageReturn, lineFeed]

theorem count_fill (ending : LineEnding) (s : Span) :
    (fill code ending s).count lineFeed = s.lines := by
  have hrestored : (restored code s).count lineFeed = 0 := by
    unfold restored
    split_ifs <;> simp [carriageReturn, lineFeed]
  rw [fill, List.count_append, count_breaks, hrestored, Nat.add_zero]

/-- The spans count the line feeds they cover. -/
def CountsRows (code : Bytes) (spans : List Span) : Prop :=
  ∀ s ∈ spans, s.lines = rowAt code s.stop - rowAt code s.start

theorem count_copied (ending : LineEnding) (spans : List Span) :
    ∀ i, InOrder code.length i spans → CountsRows code spans →
      (copied code ending i spans).count lineFeed + rowAt code i = code.count lineFeed := by
  induction spans with
  | nil =>
    intro i h _
    have hall := rowAt_add code h
    rwa [List.take_length, rowAt, rowAt, List.take_length] at hall
  | cons s spans ih =>
    rintro i ⟨hstart, hspan, hrest⟩ hrows
    have hbefore := rowAt_add code hstart
    have hinside := rowAt_add code hspan
    have hafter := ih s.stop hrest fun s' hs' => hrows s' (List.mem_cons_of_mem _ hs')
    have hlines := hrows s List.mem_cons_self
    rw [copied, List.count_append, List.count_append, count_fill]
    omega

theorem rowAt_copied (ending : LineEnding) {k : ℕ} (spans : List Span) :
    ∀ i, InOrder code.length i spans → CountsRows code spans → i ≤ k → Kept spans k →
      rowAt (copied code ending i spans) (outIndex code ending i spans k) + rowAt code i =
        rowAt code k := by
  induction spans with
  | nil =>
    intro i _ _ hik _
    have hall := rowAt_add code hik
    rwa [List.drop_take] at hall
  | cons s spans ih =>
    rintro i ⟨hstart, hspan, hrest⟩ hrows hik hkept
    have hlen := length_kept (i := i) (Nat.le_trans hspan hrest.le)
    rw [copied, outIndex]
    by_cases hbefore : k < s.start
    · have hrow := rowAt_add code hik
      rw [List.drop_take] at hrow
      rw [if_pos hbefore, rowAt, List.take_append_of_le_length (by omega), List.drop_take,
        List.take_take, Nat.min_eq_left (by omega)]
      exact hrow
    · have hafter := (hkept s List.mem_cons_self).resolve_left hbefore
      have hfirst := rowAt_add code hstart
      have hinside := rowAt_add code hspan
      have hnext := ih s.stop hrest (fun s' hs' => hrows s' (List.mem_cons_of_mem _ hs')) hafter
        fun s' hs' => hkept s' (List.mem_cons_of_mem _ hs')
      have hlines := hrows s List.mem_cons_self
      rw [if_neg hbefore, rowAt, ← hlen, List.take_length_add_append, List.take_length_add_append,
        List.count_append, List.count_append, count_fill]
      rw [rowAt] at hnext
      omega

end

end BigCodeAnalysis.Comments
