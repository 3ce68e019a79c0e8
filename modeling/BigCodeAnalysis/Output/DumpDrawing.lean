import BigCodeAnalysis.Output.Dump
import BigCodeAnalysis.Trees.RootPath

/-! The drawing of a tree read off the tree: each node with its true ancestors, a bar below each
ancestor that has a later sibling and blanks below each last child, and the line of the node
behind them. The loop draws it. It shares one buffer of glyphs among all pending nodes and cuts it
back for each, and the invariant is that what a pending node needs of the buffer stays there until
it is popped. -/

namespace BigCodeAnalysis.Output.Dump

open Trees

/-! ### A line -/

/-- A place in the source as it is printed, counted from one. -/
def rowAndColumn (place : ℕ × ℕ) : String :=
  "(" ++ toString (place.1 + 1) ++ ", " ++ toString (place.2 + 1) ++ ") "

/-- An ellipsis between two pieces of red text. -/
def ellipsis : List Write := [.color .white, .bytes (utf8 "…"), .intense .red]

/-- The text of a node behind a colon, in pieces with an ellipsis between any two, and a space
behind text that is UTF-8. -/
def textOf (pieces : List (List UInt8)) : List Write :=
  [.color .white, .bytes (utf8 ": "), .intense .red] ++
    ((pieces.map fun bs => [Write.bytes bs]).intersperse ellipsis).flatten ++
    if pieces.all isUtf8 then [.bytes (utf8 " ")] else []

/-- A line: what is drawn in front, the node's kind with its number in braces, where the node
starts and ends, and its text if that is on one row. -/
def lineOf (front : List UInt8) (node : Node) (pieces : List (List UInt8)) : List Write :=
  [.color .blue, .bytes front,
    .intense .yellow, .bytes (utf8 ("\x7b" ++ node.kind ++ ":" ++ toString node.kindId ++ "\x7d ")),
    .color .white, .bytes (utf8 "from "),
    .color .green, .bytes (utf8 (rowAndColumn node.startPosition)),
    .color .white, .bytes (utf8 "to "),
    .color .green, .bytes (utf8 (rowAndColumn node.endPosition))] ++
    (if node.startPosition.1 = node.endPosition.1 then textOf pieces else []) ++
    [.bytes (utf8 "\n")]

theorem flatMap_zipIdx_eq (pieces : List (List UInt8)) (nth : ℕ) (h : 0 < nth) :
    ((pieces.zipIdx nth).flatMap fun p =>
        (if 0 < p.2 then writeSnippetSeparator elided else []) ++ [Write.bytes p.1]) =
      pieces.flatMap fun bs => ellipsis ++ [Write.bytes bs] := by
  induction pieces generalizing nth with
  | nil => rfl
  | cons bs pieces ih =>
    rw [List.zipIdx_cons, List.flatMap_cons, List.flatMap_cons, ih (nth + 1) (by omega), if_pos h]
    rfl

theorem flatten_intersperse_eq (bs : List UInt8) (pieces : List (List UInt8)) :
    ((([Write.bytes bs]) :: pieces.map fun bs => [Write.bytes bs]).intersperse ellipsis).flatten =
      Write.bytes bs :: pieces.flatMap fun bs => ellipsis ++ [Write.bytes bs] := by
  induction pieces generalizing bs with
  | nil => rfl
  | cons next pieces ih =>
    rw [List.map_cons, List.intersperse_cons_cons, List.flatten_cons, List.flatten_cons, ih next,
      List.flatMap_cons]
    rfl

theorem writeSnippet_eq (pieces : List (List UInt8)) : writeSnippet pieces = textOf pieces := by
  cases pieces with
  | nil => rfl
  | cons bs pieces =>
    rw [writeSnippet, textOf, List.map_cons, flatten_intersperse_eq, List.zipIdx_cons,
      List.flatMap_cons, flatMap_zipIdx_eq pieces 1 Nat.one_pos]
    rfl

/-- The pieces the renderer writes make the line. -/
theorem writeNodeLine_eq (node : Node) (pref own : List UInt8) (pieces : List (List UInt8)) :
    writeNodeLine node pref own pieces = lineOf (pref ++ own) node pieces := by
  rw [writeNodeLine, lineOf, writeSnippet_eq]
  by_cases hrow : node.startPosition.1 = node.endPosition.1
  · have hprints : printsSnippet node = true := decide_eq_true hrow
    rw [if_pos hrow, if_pos hprints]
    rfl
  · have hprints : ¬ printsSnippet node = true := fun h => hrow (of_decide_eq_true h)
    rw [if_neg hrow, if_neg hprints]
    rfl

/-! ### The drawing -/

/-- A node and how it hangs on its parent. -/
structure Placed where
  node : Node
  connector : Connector

namespace Placed

/-- What stands in front of a node: nothing at the tree's root, an arc at a last child, a branch
at a child that has a later sibling. -/
def own (p : Placed) : List UInt8 :=
  utf8 (if p.connector = .flush then "" else if p.connector = .last then "╰─ " else "├─ ")

/-- What stands below a node, in front of all that is in it: nothing below the tree's root,
blanks below a last child, a bar below a child that has a later sibling. -/
def below (p : Placed) : List UInt8 :=
  utf8 (if p.connector = .flush then "" else if p.connector = .last then "   " else "│  ")

theorem glyphs_eq (p : Placed) : p.connector.glyphs = (p.below, p.own) := by
  obtain ⟨node, connector⟩ := p
  cases connector <;> rfl

end Placed

/-- Every child has a later sibling but the last. -/
def seated : List Node → List Placed
  | [] => []
  | t :: ts => ⟨t, if ts.isEmpty then .last else .inner⟩ :: seated ts

mutual
/-- The nodes of a tree in pre-order, each under its ancestors, the root's first. -/
def placed (above : List Placed) (c : Connector) : Node → List (List Placed × Placed)
  | .node a cs => (above, ⟨.node a cs, c⟩) :: placedOf (above ++ [⟨.node a cs, c⟩]) cs

def placedOf (above : List Placed) : List Node → List (List Placed × Placed)
  | [] => []
  | t :: ts => placed above (if ts.isEmpty then .last else .inner) t ++ placedOf above ts
end

/-- The glyphs below the ancestors. -/
def indent (above : List Placed) : List UInt8 := above.flatMap Placed.below

/-- The line of a node, if it is within the levels and the rows asked for. -/
def drawn (lines : LineFilter) (levels : ℕ) (entry : List Placed × Placed) : List Write :=
  if entry.1.length < levels ∧ lines.lineInRange (entry.2.node.startRow + 1) then
    lineOf (indent entry.1 ++ entry.2.own) entry.2.node [entry.2.node.text]
  else []

/-- A depth counts down to zero, through all of its values if it is negative. -/
def levels (depth : Int32) : ℕ := depth.toBitVec.toNat

theorem indent_append (above : List Placed) (p : Placed) :
    indent (above ++ [p]) = indent above ++ p.connector.glyphs.1 := by
  simp [indent, Placed.glyphs_eq]

theorem placed_eq (above : List Placed) (p : Placed) :
    placed above p.connector p.node =
      (above, p) :: placedOf (above ++ [p]) p.node.children := by
  obtain ⟨⟨a, cs⟩, c⟩ := p
  rfl

theorem placedOf_eq_flatMap (above : List Placed) (ts : List Node) :
    placedOf above ts = (seated ts).flatMap fun p => placed above p.connector p.node := by
  induction ts with
  | nil => rfl
  | cons t ts ih =>
    rw [placedOf, ih]
    rfl

theorem seated_map_node (ts : List Node) : (seated ts).map Placed.node = ts := by
  induction ts with
  | nil => rfl
  | cons t ts ih =>
    rw [seated, List.map_cons, ih]

theorem seated_append_singleton (ts : List Node) (t : Node) :
    seated (ts ++ [t]) = ts.map (⟨·, .inner⟩) ++ [⟨t, .last⟩] := by
  induction ts with
  | nil => rfl
  | cons u ts ih =>
    rw [List.cons_append, seated, ih]
    simp

/-- The frames of the children, the first on top. -/
theorem pushChildren_eq (stack : List Frame) (children : List Node) (prefixLen : ℕ)
    (depth : Int32) :
    pushChildren stack children prefixLen depth =
      (seated children).map (fun p => ⟨p.node, prefixLen, p.connector, depth⟩) ++ stack := by
  rw [pushChildren]
  rcases List.eq_nil_or_concat children with rfl | ⟨ts, t, rfl⟩
  · rfl
  · rw [List.concat_eq_append, seated_append_singleton]
    simp [Function.comp_def]

/-! ### The loop -/

/-- Pending frames with their ancestors: the buffer starts with the glyphs of each of them,
those of an upper frame being no shorter. -/
structure Fits (total : ℕ) (pref : List UInt8) (pending : List (Frame × List Placed)) :
    Prop where
  prefixLen : ∀ p ∈ pending, p.1.prefixLen = (indent p.2).length
  starts : ∀ p ∈ pending, indent p.2 <+: pref
  shrinks : pending.Pairwise fun p q => q.1.prefixLen ≤ p.1.prefixLen
  depth : ∀ p ∈ pending, levels p.1.depth + p.2.length = total

theorem Fits.tail {total : ℕ} {pref : List UInt8} {p : Frame × List Placed}
    {pending : List (Frame × List Placed)} (h : Fits total pref (p :: pending)) :
    Fits total pref pending where
  prefixLen q hq := h.prefixLen q (List.mem_cons_of_mem _ hq)
  starts q hq := h.starts q (List.mem_cons_of_mem _ hq)
  shrinks := (List.pairwise_cons.mp h.shrinks).2
  depth q hq := h.depth q (List.mem_cons_of_mem _ hq)

/-- Cutting the buffer back to the upper frame's glyphs cuts off none of the lower frames'. -/
theorem Fits.truncate {total : ℕ} {pref : List UInt8} {p : Frame × List Placed}
    {pending : List (Frame × List Placed)} (h : Fits total pref (p :: pending))
    (more : List UInt8) : Fits total (pref.take p.1.prefixLen ++ more) pending where
  prefixLen := h.tail.prefixLen
  starts q hq := by
    have hle := (List.pairwise_cons.mp h.shrinks).1 q hq
    have hcut : indent q.2 <+: pref.take p.1.prefixLen := by
      rw [List.prefix_take_iff]
      exact ⟨h.tail.starts q hq, by rw [← h.tail.prefixLen q hq]; exact hle⟩
    exact hcut.trans (List.prefix_append _ _)
  shrinks := h.tail.shrinks
  depth := h.tail.depth

theorem Fits.take_eq {total : ℕ} {pref : List UInt8} {p : Frame × List Placed}
    {pending : List (Frame × List Placed)} (h : Fits total pref (p :: pending)) :
    pref.take p.1.prefixLen = indent p.2 := by
  rw [h.prefixLen p List.mem_cons_self]
  exact (List.prefix_iff_eq_take.mp (h.starts p List.mem_cons_self)).symm

theorem toBitVec_ne_zero {depth : Int32} (h : depth ≠ 0) : depth.toBitVec ≠ 0#32 :=
  fun hzero => h (Int32.toBitVec_inj.mp hzero)

theorem levels_sub_one {depth : Int32} (h : depth ≠ 0) :
    levels (depth - 1) + 1 = levels depth := by
  have hbits := toBitVec_ne_zero h
  have hone : (1 : Int32).toBitVec = 1#32 := rfl
  rw [levels, levels, Int32.toBitVec_sub, hone]
  bv_omega

/-- Entries of a tree lie no higher than its root. -/
theorem length_le_of_mem_placed :
    (∀ (t : Node) (above : List Placed) (c : Connector), ∀ e ∈ placed above c t,
      above.length ≤ e.1.length) ∧
    ∀ (ts : List Node) (above : List Placed), ∀ e ∈ placedOf above ts,
      above.length ≤ e.1.length := by
  refine Rose.tree_forest_induction (fun a cs ih above c e he => ?_) (fun above e he => ?_)
    (fun t ts iht ihts above e he => ?_)
  · rcases List.mem_cons.mp he with rfl | hbelow
    · exact Nat.le_refl _
    · have hle := ih _ e hbelow
      rw [List.length_append] at hle
      omega
  · cases he
  · rcases List.mem_append.mp he with ht | hts
    · exact iht _ _ e ht
    · exact ihts _ e hts

theorem drawn_eq_nil {lines : LineFilter} {total : ℕ} {p : Frame × List Placed}
    (hdepth : levels p.1.depth + p.2.length = total) (h : p.1.depth = 0) :
    (placed p.2 p.1.connector p.1.node).flatMap (drawn lines total) = [] := by
  rw [List.flatMap_eq_nil_iff]
  intro e he
  have hle := length_le_of_mem_placed.1 _ _ _ e he
  have hzero : levels p.1.depth = 0 := by
    rw [h]
    rfl
  rw [drawn, if_neg (by omega)]

/-- Frames of the children of the node on top. -/
def childFrames (p : Frame × List Placed) : List (Frame × List Placed) :=
  (seated p.1.node.children).map fun child =>
    (⟨child.node, (indent p.2 ++ p.1.connector.glyphs.1).length, child.connector, p.1.depth - 1⟩,
      p.2 ++ [⟨p.1.node, p.1.connector⟩])

theorem Fits.push {total : ℕ} {pref : List UInt8} {p : Frame × List Placed}
    {pending : List (Frame × List Placed)} (h : Fits total pref (p :: pending))
    (hdepth : p.1.depth ≠ 0) :
    Fits total (indent p.2 ++ p.1.connector.glyphs.1) (childFrames p ++ pending) := by
  have hrest : Fits total (indent p.2 ++ p.1.connector.glyphs.1) pending := by
    rw [← h.take_eq]
    exact h.truncate _
  have hindent : indent (p.2 ++ [⟨p.1.node, p.1.connector⟩]) =
      indent p.2 ++ p.1.connector.glyphs.1 := indent_append _ _
  constructor
  · intro q hq
    rcases List.mem_append.mp hq with hq | hq
    · obtain ⟨child, -, rfl⟩ := List.mem_map.mp hq
      rw [hindent]
    · exact hrest.prefixLen q hq
  · intro q hq
    rcases List.mem_append.mp hq with hq | hq
    · obtain ⟨child, -, rfl⟩ := List.mem_map.mp hq
      rw [hindent]
    · exact hrest.starts q hq
  · rw [List.pairwise_append]
    refine ⟨?_, hrest.shrinks, ?_⟩
    · rw [childFrames, List.pairwise_map]
      exact List.pairwise_of_forall fun _ _ => Nat.le_refl _
    · intro q hq r hr
      obtain ⟨child, -, rfl⟩ := List.mem_map.mp hq
      rw [hrest.prefixLen r hr]
      exact (hrest.starts r hr).length_le
  · intro q hq
    rcases List.mem_append.mp hq with hq | hq
    · obtain ⟨child, -, rfl⟩ := List.mem_map.mp hq
      have hlevel := h.depth p List.mem_cons_self
      have hstep := levels_sub_one hdepth
      dsimp only
      rw [List.length_append, List.length_singleton]
      omega
    · exact hrest.depth q hq

theorem map_childFrames (p : Frame × List Placed) (pending : List (Frame × List Placed)) :
    (childFrames p ++ pending).map Prod.fst =
      pushChildren (pending.map Prod.fst) p.1.node.children
        (indent p.2 ++ p.1.connector.glyphs.1).length (p.1.depth - 1) := by
  rw [pushChildren_eq, List.map_append, childFrames, List.map_map]
  rfl

theorem forestSize_childFrames (p : Frame × List Placed) (pending : List (Frame × List Placed)) :
    Rose.forestSize ((childFrames p ++ pending).map fun q => q.1.node) =
      Rose.forestSize p.1.node.children + Rose.forestSize (pending.map fun q => q.1.node) := by
  rw [List.map_append, Rose.forestSize_append, childFrames, List.map_map]
  congr 2
  exact seated_map_node _

theorem flatMap_childFrames {β : Type*} (f : List Placed × Placed → List β)
    (p : Frame × List Placed) :
    (childFrames p).flatMap (fun q => (placed q.2 q.1.connector q.1.node).flatMap f) =
      (placedOf (p.2 ++ [⟨p.1.node, p.1.connector⟩]) p.1.node.children).flatMap f := by
  rw [childFrames, List.flatMap_map, placedOf_eq_flatMap, List.flatMap_assoc]

/-- The loop draws each pending subtree after what is out already. -/
theorem dumpLoop_eq (lines : LineFilter) {total : ℕ} (fuel : ℕ)
    (pending : List (Frame × List Placed)) (pref : List UInt8) (out : List Write)
    (hfuel : Rose.forestSize (pending.map fun p => p.1.node) ≤ fuel)
    (h : Fits total pref pending) :
    dumpLoop lines fuel (pending.map Prod.fst) pref out =
      out ++ pending.flatMap fun p =>
        (placed p.2 p.1.connector p.1.node).flatMap (drawn lines total) := by
  induction fuel generalizing pending pref out with
  | zero =>
    cases pending with
    | nil => simp [dumpLoop]
    | cons p pending =>
      rw [List.map_cons, Rose.forestSize_cons, Rose.size_eq] at hfuel
      omega
  | succ fuel ih =>
    cases pending with
    | nil => simp [dumpLoop]
    | cons p pending =>
      rw [List.map_cons, Rose.forestSize_cons, Rose.size_eq] at hfuel
      rw [List.map_cons, dumpLoop, List.flatMap_cons]
      by_cases hdepth : p.1.depth = 0
      · rw [if_pos hdepth, ih _ _ _ (by omega) h.tail,
          drawn_eq_nil (h.depth p List.mem_cons_self) hdepth, List.nil_append]
      · have hlevel := h.depth p List.mem_cons_self
        have hstep := levels_sub_one hdepth
        have hplaced : placed p.2 p.1.connector p.1.node =
            (p.2, ⟨p.1.node, p.1.connector⟩) ::
              placedOf (p.2 ++ [⟨p.1.node, p.1.connector⟩]) p.1.node.children :=
          placed_eq p.2 ⟨p.1.node, p.1.connector⟩
        have hself : (if lines.lineInRange (p.1.node.startRow + 1) then
              out ++ writeNodeLine p.1.node (indent p.2) p.1.connector.glyphs.2 [p.1.node.text]
            else out) = out ++ drawn lines total (p.2, ⟨p.1.node, p.1.connector⟩) := by
          have hline : writeNodeLine p.1.node (indent p.2) p.1.connector.glyphs.2 [p.1.node.text] =
              lineOf (indent p.2 ++ Placed.own ⟨p.1.node, p.1.connector⟩) p.1.node
                [p.1.node.text] := by
            rw [writeNodeLine_eq, Placed.glyphs_eq ⟨p.1.node, p.1.connector⟩]
          rw [drawn, hline]
          by_cases hrow : lines.lineInRange (p.1.node.startRow + 1) = true
          · rw [if_pos hrow, if_pos ⟨by dsimp only; omega, hrow⟩]
          · rw [if_neg hrow, if_neg fun hboth => hrow hboth.2, List.append_nil]
        rw [if_neg hdepth]
        dsimp only
        rw [h.take_eq, hself, hplaced, List.flatMap_cons, List.append_assoc, ← List.append_assoc]
        by_cases hleaf : p.1.node.children.length = 0
        · have hcut := h.truncate []
          rw [h.take_eq, List.append_nil] at hcut
          rw [if_pos hleaf, ih _ _ _ (by omega) hcut, List.length_eq_zero_iff.mp hleaf]
          rfl
        · have hsize := forestSize_childFrames p pending
          rw [if_neg hleaf, ← map_childFrames, ih _ _ _ (by omega) (h.push hdepth),
            List.flatMap_append, flatMap_childFrames]

/-! ### The whole drawing -/

/-- A child in its parent's list of children, the last one marked. -/
def Hangs (parent child : Placed) : Prop :=
  ∃ earlier later, parent.node.children = earlier ++ child.node :: later ∧
    child.connector = if later.isEmpty then .last else .inner

theorem exists_split_of_mem_seated {ts : List Node} {p : Placed} (h : p ∈ seated ts) :
    ∃ earlier later, ts = earlier ++ p.node :: later ∧
      p.connector = if later.isEmpty then .last else .inner := by
  induction ts with
  | nil => cases h
  | cons t ts ih =>
    rcases List.mem_cons.mp h with rfl | htail
    · exact ⟨[], ts, rfl, rfl⟩
    · obtain ⟨earlier, later, rfl, hlast⟩ := ih htail
      exact ⟨t :: earlier, later, rfl, hlast⟩

/-- Entries of a tree that hangs at the end of a chain carry that chain on. -/
def CarriesOn (t : Node) : Prop :=
  ∀ (above : List Placed) (c : Connector), List.IsChain Hangs (above ++ [⟨t, c⟩]) →
    ∀ e ∈ placed above c t,
      (above ++ [⟨t, c⟩]) <+: (e.1 ++ [e.2]) ∧ (e.1 ++ [e.2]).IsChain Hangs

theorem carriesOn (t : Node) : CarriesOn t := by
  refine (Rose.tree_forest_induction (P := CarriesOn) (Q := fun ts => ∀ t ∈ ts, CarriesOn t)
    (fun a cs ih above c hchain e he => ?_) (fun t ht => absurd ht List.not_mem_nil)
    (fun t ts iht ihts u hu => ?_)).1 t
  · rcases List.mem_cons.mp he with rfl | hbelow
    · exact ⟨List.prefix_refl _, hchain⟩
    · rw [placedOf_eq_flatMap, List.mem_flatMap] at hbelow
      obtain ⟨p, hp, hmem⟩ := hbelow
      have hnode : p.node ∈ cs := by
        rw [← seated_map_node cs]
        exact List.mem_map_of_mem hp
      have hstep : List.IsChain Hangs (above ++ [⟨.node a cs, c⟩] ++ [p]) := by
        refine hchain.append (List.isChain_singleton p) fun x hx y hy => ?_
        rw [List.getLast?_concat, Option.mem_some_iff] at hx
        rw [List.head?_cons, Option.mem_some_iff] at hy
        subst hx hy
        exact exists_split_of_mem_seated hp
      obtain ⟨hinitial, hall⟩ := ih p.node hnode _ p.connector hstep e hmem
      exact ⟨(List.prefix_append _ _).trans hinitial, hall⟩
  · rcases List.mem_cons.mp hu with rfl | hu
    · exact iht
    · exact ihts u hu

theorem placed_map_node :
    (∀ (t : Node) (above : List Placed) (c : Connector),
      (placed above c t).map (fun e => e.2.node) = t.nodes) ∧
    ∀ (ts : List Node) (above : List Placed),
      (placedOf above ts).map (fun e => e.2.node) = Rose.forestNodes ts := by
  refine Rose.tree_forest_induction (fun a cs ih above c => ?_) (fun above => rfl)
    (fun t ts iht ihts above => ?_)
  · rw [placed, List.map_cons, ih, Rose.nodes]
  · rw [placedOf, List.map_append, iht, ihts, Rose.forestNodes]

/-- The depth limit in levels: a limit below zero leaves out nothing that is not `2 ^ 31` levels
down. -/
theorem lt_levels_iff {depth : Int32} {level : ℕ} (h : level < 2 ^ 31) :
    level < levels depth ↔ depth.toInt < 0 ∨ (level : ℤ) < depth.toInt := by
  rw [levels, ← Int32.toInt_toBitVec, BitVec.toInt_eq_toNat_cond]
  split <;> omega

/-- The dump is the drawing: a line for each node once and in pre-order, under the way down to it
from the root, each row of glyphs read off that way. -/
theorem dumpTreeHelper_eq_drawing (lines : LineFilter) (root : Node) (parent : Option Node)
    (depth : Int32) :
    dumpTreeHelper lines root parent depth =
        (placed [] (startConnector parent) root).flatMap (drawn lines (levels depth)) ∧
      (placed [] (startConnector parent) root).map (fun e => e.2.node) = root.nodes ∧
      (∀ e ∈ placed [] (startConnector parent) root,
        (e.1 ++ [e.2]).head? = some ⟨root, startConnector parent⟩ ∧
          (e.1 ++ [e.2]).IsChain Hangs) ∧
      ∀ level < 2 ^ 31,
        level < levels depth ↔ depth.toInt < 0 ∨ (level : ℤ) < depth.toInt := by
  refine ⟨?_, placed_map_node.1 _ _ _, fun e he => ?_, fun level => lt_levels_iff⟩
  · have hfits : Fits (levels depth) [] [(⟨root, 0, startConnector parent, depth⟩, [])] := by
      constructor <;> simp [indent]
    have hloop := dumpLoop_eq lines root.size _ [] []
      (Nat.le_of_eq (by simp [Rose.forestSize_cons])) hfits
    rw [dumpTreeHelper]
    simpa using hloop
  · obtain ⟨hinitial, hchain⟩ := carriesOn root [] _ (List.isChain_singleton _) e he
    obtain ⟨rest, hrest⟩ := hinitial
    refine ⟨?_, hchain⟩
    rw [← hrest]
    rfl

end BigCodeAnalysis.Output.Dump
