import BigCodeAnalysis.Spaces.FoldCacheExact
import BigCodeAnalysis.Spaces.SiblingCache

/-! The recorded children answer as a scan of the parent does. A slot holds all children of the
node whose id it has, and the binary search ends at the place of the node among them, past any
zero-width siblings that start at the same byte. -/

namespace BigCodeAnalysis.Spaces

open Trees Sequences

variable {tree : SyntaxTree}

/-- The elements at the first indices, one after the other. -/
theorem filterMap_range_getElem? {α : Type*} (l : List α) (n : ℕ) :
    ((List.range n).filterMap fun i => l[i]?) = l.take n := by
  induction n with
  | zero => rfl
  | succ n ih =>
    rw [List.range_succ, List.filterMap_append, ih, List.take_add_one]
    cases hget : l[n]? <;> simp [hget]

/-! ### The place of a node -/

/-- A list of children cut at a node that no other one shares the id of. -/
structure Cut (children : List Node) (node : Node) (before after : List Node) : Prop where
  eq : children = before ++ node :: after
  fresh : ∀ c ∈ before, c.id ≠ node.id

namespace Cut

variable {children before after : List Node} {node : Node}

theorem scan_eq (h : Cut children node before after) :
    children.findIdx? (fun c : Node => c.id = node.id) = some before.length := by
  rw [h.eq, List.findIdx?_eq_some_iff_getElem]
  refine ⟨by simp, by simp, fun j hj => ?_⟩
  rw [List.getElem_append_left hj]
  simpa using h.fresh _ (List.getElem_mem hj)

theorem takeWhile_eq (h : Cut children node before after) :
    children.takeWhile (fun c : Node => c.id ≠ node.id) = before := by
  rw [h.eq, List.takeWhile_append_of_pos (by simpa using h.fresh), List.takeWhile_cons_of_neg (by simp),
    List.append_nil]

theorem dropWhile_eq (h : Cut children node before after) :
    children.dropWhile (fun c : Node => c.id ≠ node.id) = node :: after := by
  rw [h.eq, List.dropWhile_append_of_pos (by simpa using h.fresh),
    List.dropWhile_cons_of_neg (by simp)]

theorem take_length (h : Cut children node before after) : children.take before.length = before := by
  rw [h.eq, List.take_left]

theorem drop_length (h : Cut children node before after) :
    children.drop (before.length + 1) = after := by
  rw [h.eq]
  simp

/-- The search ends among the children that start where the node does. -/
theorem positionByStart_eq (h : Cut children node before after)
    (hsorted : children.Pairwise fun a b : Node => a.startByte ≤ b.startByte) :
    positionByStart children node = some before.length := by
  have hpart : Partitioned (fun c : Node => decide (c.startByte < node.startByte)) children :=
    Partitioned.of_sorted hsorted fun a b hab hb =>
      decide_eq_true (Nat.lt_of_le_of_lt hab (of_decide_eq_true hb))
  rw [h.eq, List.pairwise_append, List.pairwise_cons] at hsorted
  obtain ⟨-, ⟨hafter, -⟩, hbefore⟩ := hsorted
  have hnone : (node :: after).countP (fun c : Node => decide (c.startByte < node.startByte)) = 0 := by
    rw [List.countP_eq_zero]
    intro c hc
    rcases List.mem_cons.mp hc with rfl | hc
    · simp
    · have hle := hafter c hc
      simp only [decide_eq_true_eq]
      omega
  have hborder := partitionPoint_eq hpart
  have hsplit := hpart.split.2
  have hcount := List.countP_le_length (p := fun c : Node => decide (c.startByte < node.startByte))
    (l := before)
  have hsum : children.countP (fun c : Node => decide (c.startByte < node.startByte)) =
      before.countP fun c : Node => decide (c.startByte < node.startByte) := by
    rw [h.eq, List.countP_append, hnone, Nat.add_zero]
  rw [hsum] at hborder hsplit
  generalize hn : before.countP (fun c : Node => decide (c.startByte < node.startByte)) = n at *
  have hdrop : children.drop n = before.drop n ++ node :: after := by
    rw [h.eq, List.drop_append_of_le_length hcount]
  have hsame : ∀ c ∈ before.drop n, decide (c.startByte = node.startByte) = true := by
    intro c hc
    have hle := hbefore c (List.mem_of_mem_drop hc) node List.mem_cons_self
    have hge : c ∈ children.drop n := hdrop ▸ List.mem_append_left _ hc
    rw [hsplit, List.mem_filter] at hge
    have hnot := hge.2
    simp only [Bool.not_eq_true', decide_eq_false_iff_not] at hnot
    rw [decide_eq_true_iff]
    omega
  have hwindow : Cut ((children.drop n).takeWhile fun c : Node => c.startByte = node.startByte)
      node (before.drop n) (after.takeWhile fun c : Node => c.startByte = node.startByte) := by
    refine ⟨?_, fun c hc => h.fresh c (List.mem_of_mem_drop hc)⟩
    rw [hdrop, List.takeWhile_append_of_pos hsame, List.takeWhile_cons_of_pos (by simp)]
  rw [positionByStart, hborder, hwindow.scan_eq, Option.map_some, List.length_drop]
  congr 1
  omega

/-- The cursor ends at the node whatever the seek lands on. -/
theorem seatOnChild_eq {parent : Node} (h : Cut parent.children node before after)
    (hdistinct : (parent.children.map Node.id).Nodup) (seek : Node → ℕ → Option ℕ) :
    seatOnChild seek parent node = some before.length := by
  rw [seatOnChild, h.scan_eq]
  split
  · next index _ =>
    split
    · next hseat =>
      obtain ⟨c, hc, hid⟩ := (Option.any_eq_true _ _).mp hseat
      have hat : (parent.children.map Node.id)[before.length]? =
          (parent.children.map Node.id)[index]? := by
        have hnode : parent.children[before.length]? = some node := by simp [h.eq]
        rw [List.getElem?_map, List.getElem?_map, hc, hnode, Option.map_some, Option.map_some,
          of_decide_eq_true hid]
      have hlen : before.length < (parent.children.map Node.id).length := by
        rw [h.eq]
        simp
      rw [(List.getElem?_inj hlen hdistinct).mp hat]
    · rfl
  · rfl

theorem scanPrevious_eq (h : Cut children node before after) (previous : Option Node) :
    scanPrevious node children previous = some (before.getLast?.or previous) := by
  obtain ⟨rfl, hfresh⟩ := h
  induction before generalizing previous with
  | nil => simp [scanPrevious]
  | cons c before ih =>
    rw [List.cons_append, scanPrevious, if_neg (hfresh c List.mem_cons_self),
      ih _ (fun d hd => hfresh d (List.mem_cons_of_mem _ hd)), List.getLast?_cons]
    cases before.getLast? <;> rfl

end Cut

/-- A node among its parent's children. -/
theorem Located.exists_cut (self : Located tree) {parent : Node}
    (hparent : self.chain.getLast? = some parent) :
    (parent.children.map Node.id).Nodup ∧
      ∃ before after, Cut parent.children self.node before after := by
  obtain ⟨above, habove⟩ := List.getLast?_eq_some_iff.mp hparent
  have hpath := self.isPath
  rw [habove, List.append_assoc] at hpath
  obtain ⟨hup, hmem, -⟩ := isPath_append_iff.mp hpath
  have hdistinct := hup.nodup_children tree.distinct
  obtain ⟨before, after, hcut⟩ := List.append_of_mem hmem
  refine ⟨hdistinct, before, after, hcut, fun c hc hid => ?_⟩
  rw [hcut, List.map_append, List.nodup_append] at hdistinct
  exact hdistinct.2.2 _ (List.mem_map_of_mem hc) _ (List.mem_map_of_mem List.mem_cons_self) hid

/-! ### Truthful slots -/

/-- Every slot holds the children of the node it names, or is unused. -/
def Truthful (tree : SyntaxTree) (cache : SiblingCache) : Prop :=
  ∀ slot ∈ cache, slot.1 = 0 ∨ ∃ n : Node, n ∈ tree.root.nodes ∧ n.id = slot.1 ∧ slot.2 = n.children

theorem Truthful.record {cache : SiblingCache} (h : Truthful tree cache) {node : Node}
    (hnode : node ∈ tree.root.nodes) (depth : ℕ) :
    Truthful tree (cache.record node depth node.children) := by
  rw [SiblingCache.record]
  split
  · exact h
  · intro slot hslot
    rcases List.mem_or_eq_of_mem_set hslot with hold | rfl
    · split at hold
      · rcases List.mem_append.mp hold with hold | hold
        · exact h slot hold
        · rw [(List.mem_replicate.mp hold).2]
          exact Or.inl rfl
      · exact h slot hold
    · exact Or.inr ⟨node, hnode, rfl, rfl⟩

theorem Truthful.children_eq {cache : SiblingCache} (h : Truthful tree cache) {parent : Node}
    (hparent : parent ∈ tree.root.nodes) {depth : ℕ} {children : List Node}
    (hfound : cache.children parent depth = some children) : children = parent.children := by
  rw [SiblingCache.children, Option.map_eq_some_iff] at hfound
  obtain ⟨slot, hslot, rfl⟩ := hfound
  obtain ⟨hget, hid⟩ := Option.filter_eq_some_iff.mp hslot
  have hid := of_decide_eq_true hid
  rcases h slot (List.mem_of_getElem? hget) with hzero | ⟨n, hn, hnid, hchildren⟩
  · exact absurd (hid.symm.trans hzero) (tree.nonzero parent hparent)
  · obtain rfl : n = parent :=
      List.inj_on_of_nodup_map tree.distinct hn hparent (hnid.trans hid)
    exact hchildren

/-! ### Answers -/

namespace Located

variable (self : Located tree)

/-- The children of the parent are in the order they start in. -/
def Ordered : Prop :=
  ∀ parent : Node, self.chain.getLast? = some parent →
    parent.children.Pairwise fun a b : Node => a.startByte ≤ b.startByte

def scannedAfter : List Node :=
  self.chain.getLast?.elim [] fun parent => scanAfter parent self.node

def scannedBefore : List Node :=
  self.chain.getLast?.elim [] fun parent => scanBefore parent self.node

variable {self}

/-- Where a parent is, the lookup ends at the node in the parent's children, or at the
parent. -/
theorem lookup_eq {cache : SiblingCache} (h : Truthful tree cache) (hordered : self.Ordered)
    {parent : Node} (hparent : self.chain.getLast? = some parent) {before after : List Node}
    (hcut : Cut parent.children self.node before after) :
    lookup cache self.chain self.node = .wide parent.children (some before.length) ∨
      lookup cache self.chain self.node = .narrow (some parent) := by
  have hmem : parent ∈ tree.root.nodes := by
    obtain ⟨above, habove⟩ := List.getLast?_eq_some_iff.mp hparent
    have hpath := self.isPath
    rw [habove, List.append_assoc] at hpath
    exact (isPath_append_iff.mp hpath).1.last_mem_nodes
  rw [lookup, hparent]
  dsimp only
  split
  · next children hfound =>
    rw [h.children_eq hmem hfound, hcut.positionByStart_eq (hordered parent hparent)]
    exact Or.inl rfl
  · exact Or.inr rfl

theorem siblingsAfter_eq {cache : SiblingCache} (h : Truthful tree cache)
    (hordered : self.Ordered) (seek : Node → ℕ → Option ℕ) :
    siblingsAfter seek cache self.chain self.node = self.scannedAfter := by
  rw [siblingsAfter, scannedAfter]
  cases hparent : self.chain.getLast? with
  | none =>
    rw [lookup, hparent]
    rfl
  | some parent =>
    obtain ⟨hdistinct, before, after, hcut⟩ := self.exists_cut hparent
    have hscan : scanAfter parent self.node = after := by
      rw [scanAfter, hcut.dropWhile_eq]
      rfl
    rw [Option.elim_some, hscan]
    rcases lookup_eq h hordered hparent hcut with hlookup | hlookup <;> rw [hlookup] <;> dsimp only
    · exact hcut.drop_length
    · rw [childrenAfter, hcut.seatOnChild_eq hdistinct]
      exact hcut.drop_length

theorem siblingsBefore_eq {cache : SiblingCache} (h : Truthful tree cache)
    (hordered : self.Ordered) (seek : Node → ℕ → Option ℕ) :
    siblingsBefore seek cache self.chain self.node = self.scannedBefore := by
  rw [siblingsBefore, scannedBefore]
  cases hparent : self.chain.getLast? with
  | none =>
    rw [lookup, hparent]
    rfl
  | some parent =>
    obtain ⟨hdistinct, before, after, hcut⟩ := self.exists_cut hparent
    rw [Option.elim_some, scanBefore, hcut.takeWhile_eq]
    rcases lookup_eq h hordered hparent hcut with hlookup | hlookup <;> rw [hlookup] <;> dsimp only
    · rw [hcut.take_length]
    · rw [childrenBefore, hcut.seatOnChild_eq hdistinct, Option.getD_some,
        List.filterMap_reverse, filterMap_range_getElem?, hcut.take_length]

theorem previousSibling_eq {cache : SiblingCache} (h : Truthful tree cache)
    (hordered : self.Ordered) (nodePreviousSibling : Node → Option Node) :
    previousSibling nodePreviousSibling cache self.chain self.node =
      self.scannedBefore.head? := by
  rw [previousSibling, scannedBefore]
  cases hparent : self.chain.getLast? with
  | none => rfl
  | some parent =>
    obtain ⟨hdistinct, before, after, hcut⟩ := self.exists_cut hparent
    rw [Option.elim_some, scanBefore, hcut.takeWhile_eq, List.head?_reverse]
    dsimp only
    rcases lookup_eq h hordered hparent hcut with hlookup | hlookup <;> rw [hlookup] <;> dsimp only
    · rw [hcut.take_length]
    · rw [hcut.scanPrevious_eq, Option.getD_some, Option.or_none]

end Located

/-! ### The walk -/

theorem children_record_of_ne {cache : SiblingCache} {node parent : Node} {depth d : ℕ}
    (hparent : parent.id ≠ 0) (hd : d ≠ depth) (children : List Node) :
    (cache.record node depth children).children parent d = cache.children parent d := by
  rw [SiblingCache.record]
  split
  · rfl
  · rw [SiblingCache.children, SiblingCache.children, List.getElem?_set_ne (Ne.symm hd)]
    split
    · by_cases hlt : d < cache.length
      · rw [List.getElem?_append_left hlt]
      · rw [List.getElem?_append_right (by omega), List.getElem?_eq_none (l := cache) (by omega),
          List.getElem?_replicate]
        split
        · simp [hparent.symm]
        · rfl
    · rfl

theorem children_record_self {cache : SiblingCache} {node : Node} (depth : ℕ)
    (children : List Node) (hwide : wideParent < node.children.length) :
    (cache.record node depth children).children node depth = some children := by
  rw [SiblingCache.record, if_neg (by omega), SiblingCache.children, List.getElem?_set_self]
  · simp
  · split
    · simp
      omega
    · omega

/-- Every wide node of a chain is recorded at its depth. -/
def Recorded (chain : Ancestors) (cache : SiblingCache) : Prop :=
  ∀ (depth : ℕ) (ancestor : Node), chain[depth]? = some ancestor →
    wideParent < ancestor.children.length →
      cache.children ancestor depth = some ancestor.children

theorem Recorded.snoc {chain : Ancestors} {cache : SiblingCache} (h : Recorded chain cache)
    (hchain : ∀ a ∈ chain, a ∈ tree.root.nodes) (node : Node) :
    Recorded (chain ++ [node]) (cache.record node chain.length node.children) := by
  intro depth ancestor hget hwide
  by_cases hlt : depth < chain.length
  · rw [List.getElem?_append_left hlt] at hget
    have hid := tree.nonzero ancestor (hchain ancestor (List.mem_of_getElem? hget))
    rw [children_record_of_ne hid (by omega)]
    exact h depth ancestor hget hwide
  · rw [List.getElem?_append_right (by omega), List.getElem?_singleton] at hget
    split at hget
    · obtain rfl := Option.some_inj.mp hget
      obtain rfl : depth = chain.length := by omega
      exact children_record_self _ _ hwide
    · cases hget

theorem seedSiblings_spec {chain : Ancestors} (hchain : ∀ a ∈ chain, a ∈ tree.root.nodes) :
    Truthful tree (seedSiblings chain) ∧ Recorded chain (seedSiblings chain) := by
  induction chain using List.reverseRecOn with
  | nil => exact ⟨fun slot hslot => absurd hslot List.not_mem_nil, fun depth ancestor h => by
      simp at h⟩
  | append_singleton chain a ih =>
    have hinit : ∀ b ∈ chain, b ∈ tree.root.nodes := fun b hb => hchain b (by simp [hb])
    obtain ⟨htruthful, hrecorded⟩ := ih hinit
    have hstep : seedSiblings (chain ++ [a]) =
        (seedSiblings chain).record a chain.length a.children := by
      rw [seedSiblings, List.zipIdx_append, List.foldl_append]
      simp [seedSiblings]
    rw [hstep]
    exact ⟨htruthful.record (hchain a (by simp)) _, hrecorded.snoc hinit a⟩

/-- What a node is visited with: its true ancestors, the children of the wide ones, and slots
that answer every question about any node of the tree as a scan of its parent does. -/
structure SiblingAsk.Exact (tree : SyntaxTree) (gotoFirstChildForByte : Node → ℕ → Option ℕ)
    (nodePreviousSibling : Node → Option Node) (ask : SiblingAsk) : Prop where
  located : IsPath tree.root (ask.chain ++ [ask.node])
  recorded : Recorded ask.chain ask.siblings
  agrees : ∀ self : Located tree, self.Ordered →
    siblingsAfter gotoFirstChildForByte ask.siblings self.chain self.node = self.scannedAfter ∧
    siblingsBefore gotoFirstChildForByte ask.siblings self.chain self.node = self.scannedBefore ∧
    previousSibling nodePreviousSibling ask.siblings self.chain self.node =
      self.scannedBefore.head?

variable {τ : Type*}

/-- The state in which a node under `up` is visited. -/
structure Ready (tree : SyntaxTree) (up : List Node) (depth : ℕ) (s : SiblingWalk τ) : Prop where
  depth_eq : depth = up.length
  chain : s.chain.take up.length = up.reverse
  truthful : Truthful tree s.siblings
  recorded : Recorded up.reverse s.siblings

theorem mem_nodes_of_mem_up {up : List Node} {t : Node}
    (hpath : IsPath tree.root (up.reverse ++ [t])) : ∀ a ∈ up.reverse, a ∈ tree.root.nodes := by
  intro a ha
  obtain ⟨i, hi, rfl⟩ := List.mem_iff_getElem.mp ha
  have htake := hpath.take (Nat.succ_pos i)
  rw [List.take_append_of_le_length hi, List.take_succ_eq_append_getElem hi] at htake
  exact htake.last_mem_nodes

theorem Ready.leave {up : List Node} {t : Node} {depth k : ℕ} {s : SiblingWalk τ}
    (hdepth : depth = up.length) (h : Ready tree (t :: up) k s) : Ready tree up depth s where
  depth_eq := hdepth
  chain := by
    have hcut := congrArg (List.take up.length) h.chain
    rw [List.take_take, List.length_cons, Nat.min_eq_left (by omega), List.reverse_cons] at hcut
    rw [hcut, List.take_left' (by simp)]
  truthful := h.truthful
  recorded := by
    intro d ancestor hget hwide
    refine h.recorded d ancestor ?_ hwide
    obtain ⟨hlt, -⟩ := List.getElem?_eq_some_iff.mp hget
    rw [List.reverse_cons, List.getElem?_append_left hlt, hget]

/-- A visit hands over the true ancestors, and records the node before its children come. -/
theorem pathInvariant (tree : SyntaxTree) (gotoFirstChildForByte : Node → ℕ → Option ℕ)
    (nodePreviousSibling : Node → Option Node)
    (act : τ → Ancestors → SiblingCache → Node → τ × Bool) :
    StackWalk.PathInvariant tree.root (siblingVisit act) siblingLog (Ready tree)
      (SiblingAsk.Exact tree gotoFirstChildForByte nodePreviousSibling) where
  logged := by
    rintro up t k s hpath ⟨rfl, hchain, htruthful, hrecorded⟩ e he
    obtain rfl := List.mem_singleton.mp he
    refine ⟨by rwa [hchain], by rwa [hchain], fun self hordered => ⟨?_, ?_, ?_⟩⟩
    · exact Located.siblingsAfter_eq htruthful hordered _
    · exact Located.siblingsBefore_eq htruthful hordered _
    · exact Located.previousSibling_eq htruthful hordered _
  skips := by
    rintro up t k s hpath ⟨rfl, hchain, htruthful, hrecorded⟩ hskip
    rw [siblingVisit] at hskip ⊢
    dsimp only at hskip ⊢
    split at hskip
    · next hpruned =>
      rw [if_pos hpruned]
      exact ⟨rfl, by rw [hchain, List.take_of_length_le (by simp)], htruthful, hrecorded⟩
    · cases hskip
  enters := by
    rintro up t k s k' hpath ⟨rfl, hchain, htruthful, hrecorded⟩ henter
    rw [siblingVisit] at henter ⊢
    dsimp only at henter ⊢
    split at henter
    · cases henter
    · next hkept =>
      rw [if_neg hkept]
      obtain rfl := Option.some_inj.mp henter
      have hup := mem_nodes_of_mem_up hpath
      have hslots := hrecorded.snoc hup t
      rw [List.length_reverse] at hslots
      refine ⟨rfl, ?_, htruthful.record hpath.last_mem_nodes _, ?_⟩
      · rw [hchain, List.reverse_cons, List.take_of_length_le (by simp)]
      · rw [List.reverse_cons]
        exact hslots
  leaves := fun h _ hbelow => Ready.leave h.depth_eq hbelow

/-- In a walk from any node, whatever it does and skips on the way, the slots answer every
question as a scan of the parent's children does, and hold the wide ancestors of the node
visited. -/
theorem siblingAsks_exact (gotoFirstChildForByte : Node → ℕ → Option ℕ)
    (nodePreviousSibling : Node → Option Node)
    (act : τ → Ancestors → SiblingCache → Node → τ × Bool) (start : Located tree) (rest : τ) :
    (siblingAsks act start rest).Forall
      (SiblingAsk.Exact tree gotoFirstChildForByte nodePreviousSibling) := by
  have hpath : IsPath tree.root (start.chain.reverse.reverse ++ [start.node]) := by
    rw [List.reverse_reverse]
    exact start.isPath
  have hup := mem_nodes_of_mem_up hpath
  rw [List.reverse_reverse] at hup
  obtain ⟨htruthful, hrecorded⟩ := seedSiblings_spec hup
  rw [List.forall_iff_forall_mem]
  refine (pathInvariant tree gotoFirstChildForByte nodePreviousSibling act).trace hpath ⟨?_, ?_,
    htruthful, ?_⟩
  · rw [List.length_reverse]
  · rw [List.length_reverse, List.reverse_reverse]
    exact List.take_length
  · rw [List.reverse_reverse]
    exact hrecorded

end BigCodeAnalysis.Spaces
