import BigCodeAnalysis.Comments.RemovalWalk

/-! Removing comments keeps what is left on its row. A removed span gives way to one line end for
each row that it crosses, of the kind that ends the first line of the text, and the bytes outside
of the spans are copied in order, so what stands behind a span keeps its row. A text that has one
kind of line ends keeps that kind; this is carried along by the byte before each span. -/

namespace BigCodeAnalysis.Comments

open Sequences Trees

variable {code : Bytes} {ending : LineEnding}

/-- Every line feed is preceded by a carriage return. -/
def CrLfOnly (bytes : Bytes) : Prop :=
  ∀ i : ℕ, bytes[i]? = some lineFeed → 0 < i ∧ bytes[i - 1]? = some carriageReturn

/-- The same behind a byte, `none` at the start of the text. -/
def CrLfAfter : Option UInt8 → Bytes → Prop
  | _, [] => True
  | before, c :: bytes =>
    (c = lineFeed → before = some carriageReturn) ∧ CrLfAfter (some c) bytes

theorem crLfAfter_iff (bytes : Bytes) : ∀ before, CrLfAfter before bytes ↔
    ∀ i : ℕ, bytes[i]? = some lineFeed →
      (if i = 0 then before else bytes[i - 1]?) = some carriageReturn := by
  induction bytes with
  | nil => simp [CrLfAfter]
  | cons c bytes ih =>
    intro before
    rw [CrLfAfter, ih]
    constructor
    · rintro ⟨hfirst, hrest⟩ i hi
      cases i with
      | zero => exact hfirst (by simpa using hi)
      | succ i =>
        have hnext := hrest i (by simpa using hi)
        cases i with
        | zero => simpa using hnext
        | succ i => simpa using hnext
    · intro h
      refine ⟨fun hc => by simpa using h 0 (by simp [hc]), ?_⟩
      intro i hi
      have hnext := h (i + 1) (by simpa using hi)
      cases i with
      | zero => simpa using hnext
      | succ i => simpa using hnext

theorem crLfOnly_iff (bytes : Bytes) : CrLfOnly bytes ↔ CrLfAfter none bytes := by
  rw [crLfAfter_iff]
  refine forall_congr' fun i => imp_congr_right fun _ => ?_
  cases i <;> simp

theorem crLfAfter_append (xs ys : Bytes) : ∀ before, CrLfAfter before (xs ++ ys) ↔
    CrLfAfter before xs ∧ CrLfAfter (xs.getLast?.or before) ys := by
  induction xs with
  | nil => simp [CrLfAfter]
  | cons x xs ih =>
    intro before
    have hlast : (x :: xs).getLast?.or before = xs.getLast?.or (some x) := by
      cases xs with
      | nil => rfl
      | cons x' xs => simp [List.getLast?_eq_some_getLast]
    rw [List.cons_append, CrLfAfter, CrLfAfter, ih, hlast, and_assoc]

theorem crLfAfter_slice (h : CrLfOnly code) {i j : ℕ} {before : Option UInt8}
    (hbefore : code[i]? = some lineFeed → before = some carriageReturn) :
    CrLfAfter before ((code.take j).drop i) := by
  have hget : ∀ {m : ℕ} {c : UInt8}, ((code.take j).drop i)[m]? = some c →
      i + m < j ∧ code[i + m]? = some c := by
    intro m c hm
    rw [List.getElem?_drop, List.getElem?_take] at hm
    split_ifs at hm with hj
    exact ⟨hj, hm⟩
  rw [crLfAfter_iff]
  intro m hm
  obtain ⟨hj, hm⟩ := hget hm
  by_cases hzero : m = 0
  · subst hzero
    rw [if_pos rfl]
    exact hbefore hm
  · obtain ⟨-, hcr⟩ := h (i + m) hm
    have hpos : i + m - 1 = i + (m - 1) := by omega
    rw [if_neg hzero, List.getElem?_drop, List.getElem?_take_of_lt (by omega), ← hpos]
    exact hcr

theorem crLfAfter_breaks (before : Option UInt8) (s : Span) :
    CrLfAfter before (breaks .crlf s) := by
  unfold breaks
  generalize s.lines = lines
  induction lines generalizing before with
  | zero => trivial
  | succ lines ih =>
    rw [List.replicate_succ, List.flatten_cons, LineEnding.newline]
    exact ⟨fun h => absurd h (by decide), fun _ => rfl, ih _⟩

/-- What stands before the text behind a span, if that text begins with a line feed. -/
theorem before_stop (ending : LineEnding) (h : CrLfOnly code) {i : ℕ} {s : Span} (hstart : i ≤ s.start)
    (hspan : s.start ≤ s.stop) (hstop : s.stop ≤ code.length)
    (hrows : s.lines = rowAt code s.stop - rowAt code s.start) {before : Option UInt8}
    (hbefore : code[i]? = some lineFeed → before = some carriageReturn)
    (hlf : code[s.stop]? = some lineFeed) :
    ((code.take s.start).drop i ++ fill code ending s).getLast?.or before =
      some carriageReturn := by
  obtain ⟨hpos, hcr⟩ := h s.stop hlf
  by_cases hlt : s.start < s.stop
  · have hrestored : restored code s = [carriageReturn] := if_pos ⟨hlt, hcr, hlf⟩
    rw [fill, hrestored, ← List.append_assoc, List.getLast?_concat]
    rfl
  · -- an empty span writes nothing, so the byte before it is the one that was there
    have heq : s.stop = s.start := by omega
    have hlines : s.lines = 0 := by rw [hrows, heq, Nat.sub_self]
    have hfill : fill code ending s = [] := by
      rw [fill, breaks, hlines, restored, if_neg fun hand => hlt hand.1]
      rfl
    rw [hfill, List.append_nil]
    rw [heq] at hcr hlf hstop
    by_cases hi : i < s.start
    · have hlast : ((code.take s.start).drop i).getLast? = some carriageReturn := by
        rw [List.getLast?_drop, if_neg (by rw [List.length_take_of_le hstop]; omega),
          List.getLast?_take, if_neg (by omega), hcr]
        rfl
      rw [hlast]
      rfl
    · have hsame : i = s.start := by omega
      rw [hsame] at hbefore ⊢
      rw [List.drop_eq_nil_of_le (List.length_take_le _ _)]
      exact hbefore hlf

theorem crLfAfter_copied (h : CrLfOnly code) (hending : lineFeed ∈ code → ending = .crlf)
    (spans : List Span) : ∀ i before, InOrder code.length i spans → CountsRows code spans →
      (code[i]? = some lineFeed → before = some carriageReturn) →
      CrLfAfter before (copied code ending i spans) := by
  induction spans with
  | nil =>
    intro i before _ _ hbefore
    have hall := crLfAfter_slice h (j := code.length) hbefore
    rwa [List.take_length] at hall
  | cons s spans ih =>
    rintro i before ⟨hstart, hspan, hrest⟩ hrows hbefore
    have hlines := hrows s List.mem_cons_self
    have hbreaks : ∀ prev, CrLfAfter prev (breaks ending s) := by
      intro prev
      by_cases hlf : lineFeed ∈ code
      · rw [hending hlf]
        exact crLfAfter_breaks prev s
      · have hzero : s.lines = 0 := by
          rw [hlines, rowAt, List.count_eq_zero_of_not_mem fun hmem => hlf (List.mem_of_mem_take hmem),
            Nat.zero_sub]
        rw [breaks, hzero]
        trivial
    have hrestored : ∀ prev, CrLfAfter prev (restored code s) := by
      intro prev
      unfold restored
      split_ifs
      · exact ⟨fun hcr => absurd hcr (by decide), trivial⟩
      · trivial
    have hnext := ih s.stop _ hrest (fun s' hs' => hrows s' (List.mem_cons_of_mem _ hs'))
      (before_stop ending h hstart hspan hrest.le hlines hbefore)
    rw [copied, ← List.append_assoc, crLfAfter_append, crLfAfter_append, fill, crLfAfter_append]
    exact ⟨⟨crLfAfter_slice h hbefore, hbreaks _, hrestored _⟩, hnext⟩

theorem detect_crlf (h : CrLfOnly code) (hlf : lineFeed ∈ code) :
    LineEnding.detect code = .crlf := by
  unfold LineEnding.detect
  cases hfind : code.findIdx? (· = lineFeed) with
  | none =>
    rw [List.findIdx?_eq_none_iff] at hfind
    simpa using hfind lineFeed hlf
  | some nl =>
    obtain ⟨hlt, hbyte, -⟩ := List.findIdx?_eq_some_iff_getElem.mp hfind
    have hget : code[nl]? = some lineFeed := by
      rw [List.getElem?_eq_getElem hlt]
      simpa using hbyte
    exact if_pos (h nl hget)

theorem detect_lf (h : carriageReturn ∉ code) : LineEnding.detect code = .lf := by
  unfold LineEnding.detect
  cases code.findIdx? (· = lineFeed) with
  | none => rfl
  | some nl => exact if_neg fun hcr => h (List.mem_of_getElem? hcr.2)

theorem carriageReturn_notMem_copied (h : carriageReturn ∉ code) (spans : List Span) :
    ∀ i, carriageReturn ∉ copied code .lf i spans := by
  induction spans with
  | nil =>
    intro i hmem
    exact h (List.mem_of_mem_drop hmem)
  | cons s spans ih =>
    intro i hmem
    have hbreaks : carriageReturn ∉ breaks .lf s := by
      simp [breaks, LineEnding.newline, carriageReturn, lineFeed]
    have hrestored : restored code s = [] := if_neg fun hcr => h (List.mem_of_getElem? hcr.2.1)
    rw [copied, List.mem_append, List.mem_append, fill, hrestored, List.append_nil] at hmem
    rcases hmem with hmem | hmem | hmem
    · exact h (List.mem_of_mem_take (List.mem_of_mem_drop hmem))
    · exact hbreaks hmem
    · exact ih s.stop hmem

/-! ### The removal -/

/-- What removing comments is to keep of a text: the bytes outside the comments, in order
and on their rows, the number of rows, and the line endings where they are of one kind. -/
structure KeepsRows (code : Bytes) (outside : ℕ → Prop) (out : Bytes) : Prop where
  bytes : ∃ place : ℕ → ℕ, (∀ i j, outside i → outside j → i < j → place i < place j) ∧
    ∀ i, outside i → out[place i]? = code[i]? ∧ rowAt out (place i) = rowAt code i
  lineBreaks : out.count lineFeed = code.count lineFeed
  crlf : CrLfOnly code → CrLfOnly out
  noCarriageReturn : carriageReturn ∉ code → carriageReturn ∉ out

/-- The byte at `i` is outside every removed comment. -/
def Outside (comments : List Node) (i : ℕ) : Prop :=
  ∀ comment ∈ comments, i < comment.label.startByte ∨ comment.label.endByte ≤ i

theorem rmComments_keepsRows (checker : Checker) (root : Node) (h : Fits code root) :
    ∃ result, rmComments checker code root = some result ∧
      (result = none ↔ removed checker code [] root = []) ∧
      ∀ out, result = some out →
        KeepsRows code (Outside (removed checker code [] root)) out := by
  obtain ⟨horder, hrows⟩ := removed_spans checker h
  have hcollect := collectSpans_eq checker code root
  generalize removed checker code [] root = comments at *
  unfold rmComments
  rw [hcollect]
  by_cases hnone : comments = []
  · subst hnone
    exact ⟨none, rfl, by simp, by simp⟩
  · have hspans : (comments.map span).reverse ≠ [] := by simpa using hnone
    have hreverse : (comments.map span).reverse.reverse = comments.map span := List.reverse_reverse _
    have horder' : InOrder code.length 0 (comments.map span).reverse.reverse := by rwa [hreverse]
    have hremove := removeFromCode_eq horder'
    rw [hreverse] at hremove
    have hkept : ∀ i, Outside comments i → Kept (comments.map span) i := by
      intro i hi s hs
      obtain ⟨comment, hcomment, rfl⟩ := List.mem_map.mp hs
      exact hi comment hcomment
    refine ⟨some (copied code (.detect code) 0 (comments.map span)), ?_, by simp [hnone], ?_⟩
    · rw [if_pos hspans, hremove]
      rfl
    · rintro out ⟨rfl⟩
      constructor
      · refine ⟨outIndex code (.detect code) 0 (comments.map span), ?_, ?_⟩
        · intro i j hi hj hlt
          exact outIndex_lt _ hlt _ 0 horder (Nat.zero_le _) (hkept i hi) (hkept j hj)
        · intro i hi
          have hrow := rowAt_copied (.detect code) _ 0 horder hrows (Nat.zero_le i) (hkept i hi)
          exact ⟨getElem?_copied _ _ 0 horder (Nat.zero_le _) (hkept i hi), by simpa [rowAt] using hrow⟩
      · simpa [rowAt] using count_copied (.detect code) _ 0 horder hrows
      · intro hcrlf
        rw [crLfOnly_iff]
        refine crLfAfter_copied hcrlf (detect_crlf hcrlf) _ 0 none horder hrows fun hlf => ?_
        exact absurd (hcrlf 0 hlf).1 (Nat.lt_irrefl 0)
      · intro hcr
        rw [detect_lf hcr]
        exact carriageReturn_notMem_copied hcr _ 0

/-- `a//` and a block comment over two lines, with CRLF line endings. -/
def twoComments : Bytes × Node :=
  ([97, 47, 47, 13, 10, 47, 42, 13, 10, 42, 47],
    .node ⟨0, 0, 11, 0, 2⟩ [.node ⟨1, 1, 4, 0, 0⟩ [], .node ⟨1, 5, 11, 1, 2⟩ []])

/-- Every node of kind 1 is a comment that goes. -/
def kindOneGoes : Checker := ⟨fun node => node.label.kindId = 1, fun _ _ _ => false⟩

theorem rmComments_keepsRows_two :
    ∃ result, rmComments kindOneGoes twoComments.1 twoComments.2 = some result ∧
      (result = none ↔ removed kindOneGoes twoComments.1 [] twoComments.2 = []) ∧
      ∀ out, result = some out → KeepsRows twoComments.1
        (Outside (removed kindOneGoes twoComments.1 [] twoComments.2)) out := by
  refine rmComments_keepsRows _ _ ⟨by decide, ?_⟩
  intro node hnode
  simp only [twoComments, Rose.nodes_eq, Rose.children_node, Rose.forestNodes, List.append_nil,
    List.cons_append, List.nil_append, List.mem_cons, List.not_mem_nil, or_false] at hnode
  rcases hnode with rfl | rfl | rfl <;> constructor <;> decide

end BigCodeAnalysis.Comments
