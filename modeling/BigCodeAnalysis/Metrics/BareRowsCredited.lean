import BigCodeAnalysis.Metrics.BareRowGaps

/-! The rows a walk credits. The gaps of a node lie between its children, so what one scan credits
is in order and outside the children, and what the scans below credit is inside them. By induction
on the tree no row is credited twice. The credited rows are those in the gaps with nothing but
white space and line continuations, and a file that does not pass the filter has none. -/

namespace BigCodeAnalysis.Metrics.BareRows

open Comments (Bytes lineFeed carriageReturn Node NodeFits Fits rowAt)
open Sequences Trees

variable {code : Bytes}

/-! ### The gaps of a node -/

/-- Children one behind the other between two bytes of a file. -/
structure Laid (code : Bytes) (start stop : ℕ) (cs : List Node) : Prop where
  start_le : start ≤ stop
  stop_le : stop ≤ code.length
  within : ∀ child ∈ cs, start ≤ child.label.startByte ∧ child.label.endByte ≤ stop
  inOrder : cs.Pairwise fun a b => a.label.endByte ≤ b.label.startByte
  fits : ∀ child ∈ cs, NodeFits code child

theorem Laid.tail {start stop : ℕ} {child : Node} {cs : List Node}
    (h : Laid code start stop (child :: cs)) : Laid code child.label.endByte stop cs where
  start_le := (h.within child List.mem_cons_self).2
  stop_le := h.stop_le
  within c hc :=
    ⟨(List.pairwise_cons.mp h.inOrder).1 c hc, (h.within c (List.mem_cons_of_mem _ hc)).2⟩
  inOrder := (List.pairwise_cons.mp h.inOrder).2
  fits c hc := h.fits c (List.mem_cons_of_mem _ hc)

/-- A gap of a node over a file, between two bytes and apart from the children. -/
structure Gap.Sound (code : Bytes) (start stop : ℕ) (cs : List Node) (gap : Gap) : Prop where
  start_le : start ≤ gap.start
  le_stop : gap.stop ≤ stop
  row_eq : gap.row = rowAt code gap.start
  apart : ∀ child ∈ cs, gap.stop ≤ child.label.startByte ∨ child.label.endByte ≤ gap.start

theorem gapsFrom_sound {stop : ℕ} (cs : List Node) : ∀ {start : ℕ}, Laid code start stop cs →
    (∀ gap ∈ gapsFrom stop start (rowAt code start) cs, gap.Sound code start stop cs) ∧
    (gapsFrom stop start (rowAt code start) cs).Pairwise (·.stop ≤ ·.start) := by
  induction cs with
  | nil =>
    intro start h
    refine ⟨fun gap hgap => ?_, List.pairwise_singleton _ _⟩
    obtain rfl := List.mem_singleton.mp hgap
    exact ⟨Nat.le_refl _, Nat.le_refl _, rfl, nofun⟩
  | cons child cs ih =>
    intro start h
    obtain ⟨hsound, hpairs⟩ := ih h.tail
    have hchild := h.fits child List.mem_cons_self
    obtain ⟨hstart, hstop⟩ := h.within child List.mem_cons_self
    have hspan := hchild.start_le
    rw [gapsFrom, hchild.endRow_eq]
    constructor
    · refine List.forall_mem_cons.mpr ⟨⟨Nat.le_refl _, by dsimp only; omega, rfl, fun c hc => ?_⟩,
        fun gap hgap => ?_⟩
      · rcases List.mem_cons.mp hc with rfl | hc
        · exact .inl (Nat.le_refl _)
        · have hafter := (List.pairwise_cons.mp h.inOrder).1 c hc
          exact .inl (by dsimp only; omega)
      · have hgap := hsound gap hgap
        have hfrom := hgap.start_le
        exact ⟨by omega, hgap.le_stop, hgap.row_eq,
          List.forall_mem_cons.mpr ⟨.inr hfrom, hgap.apart⟩⟩
    · refine List.pairwise_cons.mpr ⟨fun gap hgap => ?_, hpairs⟩
      have hfrom := (hsound gap hgap).start_le
      dsimp only
      omega

/-! ### What one scan credits -/

/-- A credit names a row of the file by its number and by its first byte. -/
def Credit.Sound (code : Bytes) (c : Credit) : Prop :=
  ∃ before, before <+: code ∧ BeginsRow lineFeed before ∧ c.rowStart = before.length ∧
    c.row = before.count lineFeed

theorem Credit.Sound.rowStart_eq {c c' : Credit} (h : c.Sound code) (h' : c'.Sound code)
    (hrow : c.row = c'.row) : c.rowStart = c'.rowStart := by
  obtain ⟨before, hle, hbegins, hstart, hcount⟩ := h
  obtain ⟨before', hle', hbegins', hstart', hcount'⟩ := h'
  have hsame := hbegins.eq_of_count hbegins' hle hle' (by rw [← hcount, ← hcount', hrow])
  rw [hstart, hstart', hsame]

/-- A credit lies in its gap. -/
theorem Gap.Sound.credit {start stop : ℕ} {cs : List Node} {gap : Gap} {c : Credit}
    (h : gap.Sound code start stop cs) (hc : c ∈ scanGap code gap) :
    c.Sound code ∧ gap.start ≤ c.rowStart ∧ c.rowStart < gap.stop := by
  obtain ⟨-, before, text, after, rfl, hrow, hbare, ⟨hwithin, hend⟩, hcredit, hnumber⟩ :=
    (mem_scanGap _ gap c).mp hc
  have hstart : c.rowStart = before.length := congrArg Credit.rowStart hcredit
  have hnumber' := h.row_eq
  refine ⟨⟨before, ⟨text ++ after, (List.append_assoc ..).symm⟩, hrow.begins, hstart, by omega⟩,
    by omega, ?_⟩
  have hne : text.length ≠ 0 := fun hnil =>
    not_bare_nil (List.length_eq_zero_iff.mp hnil ▸ hbare)
  unfold rowEnd at hend
  omega

/-- The bytes of some tree of a forest. -/
def Inside (ts : List Node) (i : ℕ) : Prop :=
  ∃ t ∈ ts, t.label.startByte ≤ i ∧ i < t.label.endByte

/-- The credits of gaps around `cs` are in order and outside the children. -/
theorem credits_gapsFrom {start stop : ℕ} {cs : List Node} (h : Laid code start stop cs) :
    ((gapsFrom stop start (rowAt code start) cs).flatMap (scanGap code)).Pairwise
      (·.rowStart < ·.rowStart) ∧
    ∀ c ∈ (gapsFrom stop start (rowAt code start) cs).flatMap (scanGap code),
      c.Sound code ∧ start ≤ c.rowStart ∧ c.rowStart < stop ∧ ¬ Inside cs c.rowStart := by
  obtain ⟨hsound, hpairs⟩ := gapsFrom_sound cs h
  constructor
  · refine List.pairwise_flatMap.mpr ⟨fun gap _ => scanGap_ascending code gap, ?_⟩
    refine hpairs.imp_of_mem fun {gap gap'} hgap hgap' hle c hc c' hc' => ?_
    have hbelow := ((hsound gap hgap).credit hc).2
    have habove := ((hsound gap' hgap').credit hc').2
    omega
  · intro c hc
    obtain ⟨gap, hgap, hc⟩ := List.mem_flatMap.mp hc
    have hgap := hsound gap hgap
    obtain ⟨hcredit, hfirst, hlast⟩ := hgap.credit hc
    have hfrom := hgap.start_le
    have hto := hgap.le_stop
    refine ⟨hcredit, by omega, by omega, ?_⟩
    rintro ⟨child, hchild, hin⟩
    have hapart := hgap.apart child hchild
    omega

/-! ### What a walk credits -/

theorem laid_inner {node : Node} (h : NodeFits code node)
    (hcs : ∀ child ∈ node.children, NodeFits code child)
    (hstop : node.label.endByte ≤ code.length) :
    Laid code node.label.startByte node.label.endByte node.children :=
  ⟨h.start_le, hstop, h.nested, h.inOrder, hcs⟩

/-- The root's scan covers the file around its children. -/
theorem laid_root {root : Node} (h : Fits code root) : Laid code 0 code.length root.children := by
  have hself : NodeFits code root := h.nodes root (by simp [Rose.nodes_eq])
  refine ⟨Nat.zero_le _, Nat.le_refl _, fun child hchild => ⟨Nat.zero_le _, ?_⟩, hself.inOrder,
    fun child hchild => h.nodes child ?_⟩
  · exact Nat.le_trans (hself.nested child hchild).2 h.endByte_le
  · rw [Rose.nodes_eq]
    exact List.mem_cons_of_mem _ (Rose.mem_forestNodes hchild)

theorem scan_eq_root (root : Node) : scan code true root =
    (gapsFrom code.length 0 (rowAt code 0) root.children).flatMap (scanGap code) := by
  unfold scan gaps rowAt
  rfl

theorem scan_eq_inner {node : Node} (h : NodeFits code node) : scan code false node =
    (gapsFrom node.label.endByte node.label.startByte (rowAt code node.label.startByte)
      node.children).flatMap (scanGap code) := by
  unfold scan gaps
  rw [if_neg Bool.false_ne_true, h.startRow_eq]

/-- What the scans of a forest credit. -/
def creditedIn (code : Bytes) (ts : List Node) : List Credit :=
  (Rose.forestNodes ts).flatMap fun node => credited code (false, node)

theorem credited_sublist (visit : Bool × Node) :
    (credited code visit).Sublist (scan code visit.1 visit.2) := by
  unfold credited
  split_ifs
  · exact .refl _
  · exact List.nil_sublist _

/-- The credits of a forest are all different and inside its trees. -/
theorem creditedIn_spec (ts : List Node) : (∀ node ∈ Rose.forestNodes ts, NodeFits code node) →
    (∀ t ∈ ts, t.label.endByte ≤ code.length) →
    (ts.Pairwise fun a b => a.label.endByte ≤ b.label.startByte) →
    ((creditedIn code ts).map Credit.rowStart).Nodup ∧
      ∀ c ∈ creditedIn code ts, c.Sound code ∧ Inside ts c.rowStart := by
  induction ts using Rose.forest_induction with
  | nil =>
    intro _ _ _
    exact ⟨List.nodup_nil, nofun⟩
  | cons a cs ts ihcs ihts =>
    intro hfits hstop horder
    have hnodes : Rose.forestNodes (.node a cs :: ts) =
        .node a cs :: (Rose.forestNodes cs ++ Rose.forestNodes ts) := by
      rw [Rose.forestNodes, Rose.nodes_eq, List.cons_append, Rose.children_node]
    have hcredits : creditedIn code (.node a cs :: ts) =
        credited code (false, .node a cs) ++ (creditedIn code cs ++ creditedIn code ts) := by
      rw [creditedIn, hnodes, List.flatMap_cons, List.flatMap_append]
      rfl
    rw [hnodes] at hfits
    have hnode : NodeFits code (.node a cs) := hfits _ List.mem_cons_self
    have hend := hstop _ List.mem_cons_self
    obtain ⟨hbefore, horder'⟩ := List.pairwise_cons.mp horder
    obtain ⟨hnodup, hinside⟩ := ihcs
      (fun node h => hfits node (List.mem_cons_of_mem _ (List.mem_append_left _ h)))
      (fun child h => Nat.le_trans (hnode.nested child h).2 hend) hnode.inOrder
    obtain ⟨hnodup', hinside'⟩ := ihts
      (fun node h => hfits node (List.mem_cons_of_mem _ (List.mem_append_right _ h)))
      (fun t h => hstop t (List.mem_cons_of_mem _ h)) horder'
    have hlaid := laid_inner hnode (fun child h => hfits child (List.mem_cons_of_mem _
      (List.mem_append_left _ (Rose.mem_forestNodes h)))) hend
    obtain ⟨hascending, hown⟩ := credits_gapsFrom hlaid
    rw [← scan_eq_inner hnode] at hascending hown
    have hsub : (credited code (false, .node a cs)).Sublist (scan code false (.node a cs)) :=
      credited_sublist _
    have hinner : ∀ i, Inside cs i → Inside [.node a cs] i := by
      rintro i ⟨child, hchild, hfirst, hlast⟩
      obtain ⟨hstart, hlt⟩ := hnode.nested child hchild
      exact ⟨_, List.mem_cons_self, Nat.le_trans hstart hfirst, Nat.lt_of_lt_of_le hlast hlt⟩
    have hfirst : ∀ c ∈ credited code (false, .node a cs) ++ creditedIn code cs,
        c.Sound code ∧ Inside [.node a cs] c.rowStart := by
      intro c hc
      rcases List.mem_append.mp hc with hc | hc
      · obtain ⟨hsound, hstart, hlt, -⟩ := hown c (hsub.subset hc)
        exact ⟨hsound, _, List.mem_cons_self, hstart, hlt⟩
      · exact ⟨(hinside c hc).1, hinner _ (hinside c hc).2⟩
    rw [hcredits, ← List.append_assoc]
    constructor
    · rw [List.map_append, List.map_append]
      refine List.nodup_append.mpr ⟨List.nodup_append.mpr ⟨?_, hnodup, ?_⟩, hnodup', ?_⟩
      · exact (List.pairwise_map.mpr (hascending.sublist hsub)).imp Nat.ne_of_lt
      · rintro _ hi _ hi' rfl
        obtain ⟨c, hc, rfl⟩ := List.mem_map.mp hi
        obtain ⟨c', hc', hsame⟩ := List.mem_map.mp hi'
        exact (hown c (hsub.subset hc)).2.2.2 (hsame ▸ (hinside c' hc').2)
      · rintro _ hi _ hi' rfl
        rw [← List.map_append] at hi
        obtain ⟨c, hc, rfl⟩ := List.mem_map.mp hi
        obtain ⟨c', hc', hsame⟩ := List.mem_map.mp hi'
        obtain ⟨t, ht, -, hlt⟩ := (hfirst c hc).2
        obtain ⟨u, hu, hstart, -⟩ := (hinside' c' hc').2
        obtain rfl := List.mem_singleton.mp ht
        have hle := hbefore u hu
        omega
    · intro c hc
      rcases List.mem_append.mp hc with hc | hc
      · obtain ⟨hsound, t, ht, hin⟩ := hfirst c hc
        obtain rfl := List.mem_singleton.mp ht
        exact ⟨hsound, _, List.mem_cons_self, hin⟩
      · obtain ⟨hsound, t, ht, hin⟩ := hinside' c hc
        exact ⟨hsound, t, List.mem_cons_of_mem _ ht, hin⟩

/-- The credits of a walk, one scan behind the other. -/
def credits (code : Bytes) (root : Node) : List Credit :=
  credited code (true, root) ++ creditedIn code root.children

theorem creditedRows_eq (root : Node) :
    creditedRows code root = (credits code root).map Credit.row := by
  rw [creditedRows, ← List.map_flatMap, visits, List.flatMap_cons, List.flatMap_map]
  rfl

theorem credits_spec {root : Node} (h : Fits code root) :
    ((credits code root).map Credit.rowStart).Nodup ∧ ∀ c ∈ credits code root, c.Sound code := by
  have hself : NodeFits code root := h.nodes root (by simp [Rose.nodes_eq])
  obtain ⟨hnodup, hinside⟩ := @creditedIn_spec code root.children
    (fun node hnode => h.nodes node (by rw [Rose.nodes_eq]; exact List.mem_cons_of_mem _ hnode))
    (fun t ht => Nat.le_trans (hself.nested t ht).2 h.endByte_le) hself.inOrder
  obtain ⟨hascending, hown⟩ := credits_gapsFrom (laid_root h)
  rw [← scan_eq_root] at hascending hown
  have hsub : (credited code (true, root)).Sublist (scan code true root) := credited_sublist _
  unfold credits
  constructor
  · rw [List.map_append]
    refine List.nodup_append.mpr ⟨?_, hnodup, ?_⟩
    · exact (List.pairwise_map.mpr (hascending.sublist hsub)).imp Nat.ne_of_lt
    · rintro _ hi _ hi' rfl
      obtain ⟨c, hc, rfl⟩ := List.mem_map.mp hi
      obtain ⟨c', hc', hsame⟩ := List.mem_map.mp hi'
      exact (hown c (hsub.subset hc)).2.2.2 (hsame ▸ (hinside c' hc').2)
  · intro c hc
    rcases List.mem_append.mp hc with hc | hc
    · exact (hown c (hsub.subset hc)).1
    · exact (hinside c hc).1

/-- No row is credited twice in a walk. -/
theorem creditedRows_nodup {root : Node} (h : Fits code root) : (creditedRows code root).Nodup := by
  obtain ⟨hnodup, hsound⟩ := credits_spec h
  rw [creditedRows_eq]
  refine hnodup.of_map.map_on fun c hc c' hc' hrow => ?_
  exact List.inj_on_of_nodup_map hnodup hc hc' ((hsound c hc).rowStart_eq (hsound c' hc') hrow)

theorem forest_endByte_le {stop : ℕ} (ts : List Node) :
    (∀ node ∈ Rose.forestNodes ts, NodeFits code node) → (∀ t ∈ ts, t.label.endByte ≤ stop) →
    ∀ node ∈ Rose.forestNodes ts, node.label.endByte ≤ stop := by
  induction ts using Rose.forest_induction with
  | nil =>
    intro _ _ node hnode
    rw [Rose.forestNodes] at hnode
    cases hnode
  | cons a cs ts ihcs ihts =>
    intro hfits hstop node hnode
    rw [Rose.forestNodes, Rose.nodes_eq, List.cons_append, Rose.children_node] at hfits hnode
    have hend := hstop _ List.mem_cons_self
    rcases List.mem_cons.mp hnode with rfl | hnode
    · exact hend
    · rcases List.mem_append.mp hnode with hnode | hnode
      · exact ihcs (fun n h => hfits n (List.mem_cons_of_mem _ (List.mem_append_left _ h)))
          (fun c h => Nat.le_trans ((hfits _ List.mem_cons_self).nested c h).2 hend) node hnode
      · exact ihts (fun n h => hfits n (List.mem_cons_of_mem _ (List.mem_append_right _ h)))
          (fun t h => hstop t (List.mem_cons_of_mem _ h)) node hnode

/-- The gaps of a visited node start on the rows of their bytes and end within the file. -/
theorem visit_gap {root : Node} (h : Fits code root) {visit : Bool × Node}
    (hvisit : visit ∈ visits root) {gap : Gap} (hgap : gap ∈ gaps code visit.1 visit.2) :
    gap.row = rowAt code gap.start ∧ gap.stop ≤ code.length := by
  rcases List.mem_cons.mp hvisit with rfl | hvisit
  · have hsound := (gapsFrom_sound _ (laid_root h)).1 gap (by
      rwa [gaps, if_pos rfl] at hgap)
    exact ⟨hsound.row_eq, hsound.le_stop⟩
  · obtain ⟨node, hnode, rfl⟩ := List.mem_map.mp hvisit
    have hfits : ∀ n ∈ Rose.forestNodes root.children, NodeFits code n := fun n hn =>
      h.nodes n (by rw [Rose.nodes_eq]; exact List.mem_cons_of_mem _ hn)
    have hself : NodeFits code root := h.nodes root (by simp [Rose.nodes_eq])
    have hend := forest_endByte_le root.children hfits
      (fun t ht => Nat.le_trans (hself.nested t ht).2 h.endByte_le) node hnode
    have hlaid := laid_inner (hfits node hnode) (fun child hchild =>
      hfits child (Rose.mem_forestNodes_of_child hnode hchild)) hend
    have hsound := (gapsFrom_sound _ hlaid).1 gap (by
      rwa [gaps, if_neg Bool.false_ne_true, (hfits node hnode).startRow_eq] at hgap)
    exact ⟨hsound.row_eq, Nat.le_trans hsound.le_stop hend⟩

/-- The rows of a walk are the bare rows in the gaps that its scans cover. -/
theorem mem_creditedRows {root : Node} (h : Fits code root) (row : ℕ) :
    row ∈ creditedRows code root ↔ ∃ before text after, code = before ++ text ++ after ∧
      IsRow lineFeed before text after ∧ before.count lineFeed = row ∧ Bare text ∧
      ∃ visit ∈ visits root, isScanned visit.1 visit.2 = true ∧
        ∃ gap ∈ gaps code visit.1 visit.2, gap.Holds before text after := by
  constructor
  · intro hrow
    obtain ⟨visit, hvisit, hrow⟩ := List.mem_flatMap.mp hrow
    obtain ⟨c, hc, rfl⟩ := List.mem_map.mp hrow
    unfold credited at hc
    split_ifs at hc with hscanned
    · obtain ⟨gap, hgap, hc⟩ := List.mem_flatMap.mp hc
      obtain ⟨-, before, text, after, hcode, hisRow, hbare, hholds, -, hnumber⟩ :=
        (mem_scanGap code gap c).mp hc
      have hgapRow := (visit_gap h hvisit hgap).1
      exact ⟨before, text, after, hcode, hisRow, by omega, hbare, visit, hvisit, hscanned, gap,
        hgap, hholds⟩
    · cases hc
  · rintro ⟨before, text, after, hcode, hisRow, rfl, hbare, visit, hvisit, hscanned, gap, hgap,
      hholds⟩
    obtain ⟨hgapRow, hstop⟩ := visit_gap h hvisit hgap
    have hcredit : (⟨before.count lineFeed, before.length, gap.start, gap.next⟩ : Credit) ∈
        scanGap code gap :=
      (mem_scanGap code gap _).mpr
        ⟨hstop, before, text, after, hcode, hisRow, hbare, hholds, rfl, by dsimp only; omega⟩
    have hvisited : (⟨before.count lineFeed, before.length, gap.start, gap.next⟩ : Credit) ∈
        credited code visit := by
      unfold credited
      rw [if_pos hscanned]
      exact List.mem_flatMap.mpr ⟨gap, hgap, hcredit⟩
    exact List.mem_flatMap.mpr ⟨visit, hvisit, List.mem_map.mpr ⟨_, hvisited, rfl⟩⟩

theorem scan_eq_nil (h : mayHoldBareRows code = false) (isRoot : Bool) (node : Node) :
    scan code isRoot node = [] :=
  List.flatMap_eq_nil_iff.mpr fun _ _ => scanGap_eq_nil h

/-- A file that does not pass the filter has nothing to credit. In any other one the scans of a
walk credit the bare rows in their gaps, each of them once, and a node with children is scanned
for every row strictly between its first and its last one. -/
theorem creditBareContinuationRows_spec (code : Bytes) :
    (mayHoldBareRows code = false → ∀ classify possible isRoot node stats,
      scan code isRoot node = [] ∧
        creditBareContinuationRows classify code possible isRoot node stats = stats) ∧
    ∀ root : Node, Fits code root →
      (creditedRows code root).Nodup ∧
      (∀ row, row ∈ creditedRows code root ↔ ∃ before text after, code = before ++ text ++ after ∧
        IsRow lineFeed before text after ∧ before.count lineFeed = row ∧ Bare text ∧
        ∃ visit ∈ visits root, isScanned visit.1 visit.2 = true ∧
          ∃ gap ∈ gaps code visit.1 visit.2, gap.Holds before text after) ∧
      ∀ visit ∈ visits root, ∀ row, visit.2.children ≠ [] →
        visit.2.label.startRow < row → row < visit.2.label.endRow →
        isScanned visit.1 visit.2 = true := by
  refine ⟨fun h classify possible isRoot node stats => ⟨scan_eq_nil h isRoot node, ?_⟩,
    fun root h => ⟨creditedRows_nodup h, mem_creditedRows h, fun visit _ row hne hstart hend => ?_⟩⟩
  · unfold creditBareContinuationRows
    rw [scan_eq_nil h isRoot node, List.foldl_nil, ite_self, ite_self]
  · have hlength : visit.2.children.length ≠ 0 := fun hnil => hne (List.length_eq_zero_iff.mp hnil)
    have hrows : ¬ visit.2.label.endRow < visit.2.label.startRow + rowsAroundAGapRow := by
      rw [rowsAroundAGapRow]
      omega
    simp [isScanned, hlength, hrows]

/-- A command of two words on three rows, the row in the middle a bare one. -/
def commandTree : Node :=
  .node ⟨1, 0, 6, 0, 2⟩ [.node ⟨2, 0, 6, 0, 2⟩ [.node ⟨3, 0, 1, 0, 0⟩ [],
    .node ⟨3, 5, 6, 2, 2⟩ []]]

theorem commandTree_fits : Fits [97, 92, 10, 92, 10, 98] commandTree := by
  refine ⟨by decide, ?_⟩
  have hnodes : commandTree.nodes = [commandTree, .node ⟨2, 0, 6, 0, 2⟩ [.node ⟨3, 0, 1, 0, 0⟩ [],
      .node ⟨3, 5, 6, 2, 2⟩ []], .node ⟨3, 0, 1, 0, 0⟩ [], .node ⟨3, 5, 6, 2, 2⟩ []] := by
    simp [commandTree, Rose.nodes, Rose.forestNodes]
  rw [hnodes]
  simp only [List.forall_mem_cons]
  refine ⟨⟨by decide, rfl, rfl, ?_, ?_⟩, ⟨by decide, rfl, rfl, ?_, ?_⟩,
    ⟨by decide, rfl, rfl, ?_, ?_⟩, ⟨by decide, rfl, rfl, ?_, ?_⟩, nofun⟩ <;>
    simp [commandTree]

theorem creditBareContinuationRows_command :
    1 ∈ creditedRows [97, 92, 10, 92, 10, 98] commandTree := by
  refine (((creditBareContinuationRows_spec [97, 92, 10, 92, 10, 98]).2 commandTree
    commandTree_fits).2.1 1).mpr
    ⟨[97, 92, 10], [92], [10, 98], rfl, ⟨.inr rfl, by decide, .inr rfl⟩, rfl,
      ⟨[], [], nofun, .inl rfl, rfl⟩, (false, .node ⟨2, 0, 6, 0, 2⟩ [.node ⟨3, 0, 1, 0, 0⟩ [],
        .node ⟨3, 5, 6, 2, 2⟩ []]), ?_, rfl, ⟨1, 0, 5, some (.node ⟨3, 5, 6, 2, 2⟩ [])⟩, ?_, ?_⟩
  · simp [visits, commandTree, Rose.nodes, Rose.forestNodes]
  · simp [gaps, gapsFrom]
  · exact ⟨by decide, by decide⟩

/-- A missing token at the start of a bare row leaves its node too short to be scanned, although
the row lies between two of its children. -/
theorem creditedRows_missing_token :
    ∃ (code : Bytes) (root node a b : Node), Fits code root ∧ node ∈ root.nodes ∧
      node.children = [a, b] ∧ IsRow lineFeed [] [92] [10, 120] ∧ code = [] ++ [92] ++ [10, 120] ∧
      Bare [92] ∧ a.label.endByte ≤ 0 ∧ rowEnd [] [92] [10, 120] ≤ b.label.startByte ∧
      mayHoldBareRows code = true ∧ creditedRows code root = [] := by
  refine ⟨[92, 10, 120], .node ⟨1, 0, 3, 0, 1⟩ [.node ⟨2, 0, 3, 0, 1⟩ [.node ⟨3, 0, 0, 0, 0⟩ [],
    .node ⟨3, 2, 3, 1, 1⟩ []]], .node ⟨2, 0, 3, 0, 1⟩ [.node ⟨3, 0, 0, 0, 0⟩ [],
    .node ⟨3, 2, 3, 1, 1⟩ []], .node ⟨3, 0, 0, 0, 0⟩ [], .node ⟨3, 2, 3, 1, 1⟩ [], ?_, ?_, rfl,
    ⟨.inl rfl, by decide, .inr rfl⟩, rfl, ⟨[], [], nofun, .inl rfl, rfl⟩, Nat.le_refl 0, by decide,
    by decide, ?_⟩
  · refine ⟨by decide, ?_⟩
    simp only [Rose.nodes, Rose.forestNodes, List.append_nil, List.cons_append, List.nil_append,
      List.forall_mem_cons]
    refine ⟨⟨by decide, rfl, rfl, ?_, ?_⟩, ⟨by decide, rfl, rfl, ?_, ?_⟩,
      ⟨by decide, rfl, rfl, ?_, ?_⟩, ⟨by decide, rfl, rfl, ?_, ?_⟩, nofun⟩ <;>
      simp
  · simp [Rose.nodes, Rose.forestNodes]
  · simp only [creditedRows, visits, Rose.children_node, Rose.nodes, Rose.forestNodes]
    rfl

end BigCodeAnalysis.Metrics.BareRows
