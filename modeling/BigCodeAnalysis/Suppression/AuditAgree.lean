import BigCodeAnalysis.Spaces.SpaceTree
import BigCodeAnalysis.Suppression.Audit

/-! The audit compared with the enforcement. Both attributions are read off the ancestor chain of
the comment: the audit looks for the nearest named function, the walk for the nearest opener of a
function space. On the walk's side the invariant is that between two nodes the open frames are
those of the chain, name and kind; on the audit's side every position is met once. The two agree
exactly when the two nearest ancestors have one name. -/

namespace BigCodeAnalysis.Suppression

open Trees Trees.StackWalk Spaces

variable {R : Type*}

/-! ### Attribution by the ancestor chain -/

section Chains
variable (lang : Language)

/-- The nodes of a chain with their own ancestors, innermost first. -/
def upward (above : Ancestors) : Ancestors → List (Ancestors × Node)
  | [] => []
  | node :: below => upward (above ++ [node]) below ++ [(above, node)]

theorem upward_concat (above ancestors : Ancestors) (node : Node) :
    upward above (ancestors ++ [node]) = (above ++ ancestors, node) :: upward above ancestors := by
  induction ancestors generalizing above with
  | nil => simp [upward]
  | cons a ancestors ih => simp [upward, ih]

/-- The name of the nearest ancestor that is a function with a name. -/
def enclosingName (ancestors : Ancestors) : Option String :=
  (upward [] ancestors).findSome? fun p =>
    if lang.isFuncWithCode p.1 p.2 then lang.getFuncName p.1 p.2 else none

/-- The nearest node of a chain that opens a function space. -/
def functionOpener (ancestors : Ancestors) : Option (Ancestors × Node) :=
  (upward [] ancestors).find? fun p =>
    lang.promotesToFuncSpaceWithCode p.1 p.2 &&
      lang.getSpaceKindWithCode p.1 p.2 = .function

/-- The name of the space a node opens. -/
def openedName (p : Ancestors × Node) : Option String :=
  (openedLabel lang ⟨p.1, p.2, ⟨true, false⟩⟩).name

theorem childEnclosing_eq (ancestors : Ancestors) (node : Node) :
    childEnclosing lang ancestors node (enclosingName lang ancestors) =
      enclosingName lang (ancestors ++ [node]) := by
  unfold childEnclosing enclosingName
  rw [upward_concat, List.nil_append, List.findSome?_cons]
  split_ifs
  · cases lang.getFuncName ancestors node <;> rfl
  · rfl

mutual
def positions (ancestors : Ancestors) : Node → List (Ancestors × Node)
  | .node a cs => (ancestors, .node a cs) :: positionsForest (ancestors ++ [.node a cs]) cs

/-- The nodes of a forest with their ancestors, in pre-order. -/
def positionsForest (ancestors : Ancestors) : List Node → List (Ancestors × Node)
  | [] => []
  | t :: ts => positions ancestors t ++ positionsForest ancestors ts
end

end Chains

/-! ### The audit -/

section Audit
variable (lang : Language)

/-- What the audit lists at a position. -/
def listedAt (p : Ancestors × Node) : List Listed :=
  ((markerAt lang p.2 (enclosingName lang p.1)).map (Listed.mk p.1 p.2)).toList

theorem auditVisit_markers (s : AuditState) (node : Node) (tag : AuditTag) :
    (auditVisit lang s node tag).1.markers =
      s.markers ++ (auditLog lang s node tag).map Listed.marker := by
  simp only [auditVisit, auditLog]
  cases markerAt lang node tag.enclosing <;> rfl

theorem descend_markers :
    (∀ (t : Node) (tag : AuditTag) (s : AuditState),
      (descend .rightmostOnTop (auditVisit lang) tag t s).markers = s.markers ++
        (descendTrace .rightmostOnTop (auditVisit lang) (auditLog lang) tag t s).map
          Listed.marker) ∧
    ∀ (ts : List Node) (tag : AuditTag) (s : AuditState),
      (descendForest .rightmostOnTop (auditVisit lang) tag ts s).markers = s.markers ++
        (descendForestTrace .rightmostOnTop (auditVisit lang) (auditLog lang) tag ts s).map
          Listed.marker := by
  refine Rose.tree_forest_induction (fun a cs ih tag s => ?_)
    (fun tag s => by simp [descendForest, descendForestTrace]) (fun t ts iht ihts tag s => ?_)
  · have hmarkers := auditVisit_markers lang s (.node a cs) tag
    simp only [descend, descendTrace, List.map_append]
    rcases hvisit : auditVisit lang s (.node a cs) tag with ⟨s', _ | tag'⟩
    · simp only [hvisit] at hmarkers ⊢
      simp [hmarkers]
    · simp only [hvisit] at hmarkers ⊢
      rw [ih, hmarkers, List.append_assoc]
  · simp only [descendForest, descendForestTrace, List.map_append]
    rw [iht, ihts, List.append_assoc]

/-- The audit's result is its trace, sorted by line. -/
theorem suppressionMarkers_eq (root : Node) :
    suppressionMarkers lang root =
      ((auditTrace lang root).map Listed.marker).mergeSort (fun a b => a.line ≤ b.line) := by
  unfold suppressionMarkers auditTrace
  rw [run_eq_descend, trace_eq_descendTrace, (descend_markers lang).1, List.nil_append]

/-- The audit meets every position of the tree once and lists what its chain says. -/
theorem descendTrace_listed :
    (∀ (t : Node) (ancestors : Ancestors) (s : AuditState),
      s.chain.take ancestors.length = ancestors →
        (descend .rightmostOnTop (auditVisit lang)
          ⟨enclosingName lang ancestors, ancestors.length⟩ t s).chain.take ancestors.length =
            ancestors ∧
        (descendTrace .rightmostOnTop (auditVisit lang) (auditLog lang)
          ⟨enclosingName lang ancestors, ancestors.length⟩ t s).Perm
            ((positions ancestors t).flatMap (listedAt lang))) ∧
    ∀ (ts : List Node) (ancestors : Ancestors) (s : AuditState),
      s.chain.take ancestors.length = ancestors →
        (descendForest .rightmostOnTop (auditVisit lang)
          ⟨enclosingName lang ancestors, ancestors.length⟩ ts s).chain.take ancestors.length =
            ancestors ∧
        (descendForestTrace .rightmostOnTop (auditVisit lang) (auditLog lang)
          ⟨enclosingName lang ancestors, ancestors.length⟩ ts s).Perm
            ((positionsForest ancestors ts).flatMap (listedAt lang)) := by
  refine Rose.tree_forest_induction (fun a cs ih ancestors s hchain => ?_)
    (fun ancestors s hchain => ?_) (fun t ts iht ihts ancestors s hchain => ?_)
  · have hvisit : auditVisit lang s (.node a cs)
        ⟨enclosingName lang ancestors, ancestors.length⟩ =
        (⟨ancestors ++ [.node a cs], s.markers ++
          (markerAt lang (.node a cs) (enclosingName lang ancestors)).toList⟩,
          some ⟨enclosingName lang (ancestors ++ [Rose.node a cs]),
            (ancestors ++ [Rose.node a cs]).length⟩) := by
      simp only [auditVisit, hchain, childEnclosing_eq, List.length_append, List.length_singleton]
    obtain ⟨hchain', hperm⟩ := ih (ancestors ++ [Rose.node a cs])
      ⟨ancestors ++ [Rose.node a cs], s.markers ++
        (markerAt lang (.node a cs) (enclosingName lang ancestors)).toList⟩ List.take_length
    simp only [descend, descendTrace, hvisit, positions, List.flatMap_cons]
    refine ⟨?_, ?_⟩
    · have := congrArg (List.take ancestors.length) hchain'
      simpa [List.take_take] using this
    · have hhead : auditLog lang s (.node a cs)
          ⟨enclosingName lang ancestors, ancestors.length⟩ =
          listedAt lang (ancestors, Rose.node a cs) := by
        simp only [auditLog, listedAt, hchain]
      rw [hhead]
      exact hperm.append_left _
  · simpa [descendForest, descendForestTrace, positionsForest] using hchain
  · obtain ⟨hchain', hperm'⟩ := ihts ancestors s hchain
    obtain ⟨hchain'', hperm⟩ := iht ancestors _ hchain'
    simp only [descendForest, descendForestTrace, positionsForest, List.flatMap_append]
    exact ⟨hchain'', (hperm'.append hperm).trans List.perm_append_comm⟩

theorem auditTrace_perm (root : Node) :
    (auditTrace lang root).Perm ((positions [] root).flatMap (listedAt lang)) := by
  unfold auditTrace
  rw [trace_eq_descendTrace]
  exact ((descendTrace_listed lang).1 root [] ⟨[], []⟩ rfl).2

end Audit

/-! ### The enforcement -/

section Enforcement
variable (lang : Language) (suite : MetricSuite R) (options : MetricsOptions)

mutual
def retained : Marked → List Visited
  | .node (.pruned _) _ => []
  | .node (.kept v) cs => v :: retainedForest cs

/-- The nodes the metrics walk visits, in pre-order. -/
def retainedForest : List Marked → List Visited
  | [] => []
  | m :: ms => retained m ++ retainedForest ms
end

mutual
def prunedRoots : Marked → List Node
  | .node (.pruned node) _ => [node]
  | .node (.kept _) cs => prunedRootsForest cs

/-- The roots of the subtrees the metrics walk skips. -/
def prunedRootsForest : List Marked → List Node
  | [] => []
  | m :: ms => prunedRoots m ++ prunedRootsForest ms
end

/-- What matching a directive reads of a frame: its kind and its name. -/
def frameKey (s : State R) : SpaceKind × Option String := (s.space.kind, s.space.name)

/-- The keys of the frames a chain has open, innermost first. -/
def openKeys (ancestors : Ancestors) : List (SpaceKind × Option String) :=
  (upward [] ancestors).filterMap fun p =>
    if lang.promotesToFuncSpaceWithCode p.1 p.2 then
      some (lang.getSpaceKindWithCode p.1 p.2, openedName lang p)
    else none

/-- The keys on the stack at a node: those of its chain, and the synthetic unit's. -/
def stackKeys (root : Node) (ancestors : Ancestors) : List (SpaceKind × Option String) :=
  openKeys lang ancestors ++
    if lang.getSpaceKindWithCode [] root ≠ .unit then [(.unit, none)] else []

theorem openKeys_concat (ancestors : Ancestors) (node : Node) :
    openKeys lang (ancestors ++ [node]) =
      (if lang.promotesToFuncSpaceWithCode ancestors node then
        [(lang.getSpaceKindWithCode ancestors node, openedName lang (ancestors, node))]
      else []) ++ openKeys lang ancestors := by
  unfold openKeys
  rw [upward_concat, List.nil_append, List.filterMap_cons]
  split_ifs <;> rfl

theorem finalize_keys {n : ℕ} {stateStack : List (State R)} (h : n < stateStack.length) :
    (finalize suite options n stateStack).map frameKey = (stateStack.map frameKey).drop n := by
  induction n generalizing stateStack with
  | zero => rfl
  | succ n ih =>
    match stateStack with
    | [] | [_] => simp at h
    | state :: parent :: below =>
      simp only [finalize]
      rw [ih (by simpa using h)]
      rfl

theorem applyCommentSuppression_keys (stateStack : List (State R)) (node : Node) :
    (applyCommentSuppression lang stateStack node).map frameKey = stateStack.map frameKey := by
  unfold applyCommentSuppression
  split
  · rfl
  · exact applySuppression_map (fun _ _ => rfl) stateStack _

/-- The stack between two nodes: closing what is deeper than `level` leaves the frames of
the chain. -/
structure KeysSettled (root : Node) (level : ℕ) (ancestors : Ancestors) (s : WalkState R) :
    Prop where
  level_le : level ≤ s.lastLevel
  chain : s.chain.take ancestors.length = ancestors
  length : s.stateStack.length = s.lastLevel - level + (stackKeys lang root ancestors).length
  keys : (s.stateStack.map frameKey).drop (s.lastLevel - level) = stackKeys lang root ancestors

/-- The walk at a node of level `level`. -/
structure KeysAt (root : Node) (level : ℕ) (ancestors : Ancestors) (s : WalkState R) : Prop where
  level_eq : s.lastLevel = level
  chain : s.chain = ancestors
  keys : s.stateStack.map frameKey = stackKeys lang root ancestors

variable {lang suite options}

theorem KeysSettled.closeDeeper {root : Node} {level : ℕ} {ancestors : Ancestors}
    {s : WalkState R} (h : KeysSettled lang root level ancestors s)
    (hopen : s.lastLevel = level ∨ stackKeys lang root ancestors ≠ []) :
    KeysAt lang root level ancestors
      (closeDeeper suite options level { s with chain := s.chain.take ancestors.length }) := by
  have hkeys := h.keys
  unfold Spaces.closeDeeper
  dsimp only
  split_ifs with hlt
  · have hlen : s.lastLevel - level < s.stateStack.length := by
      have hpos := List.length_pos_iff.mpr (hopen.resolve_left (by omega))
      have := h.length
      omega
    exact ⟨rfl, h.chain, by rw [← hkeys, finalize_keys suite options hlen]⟩
  · have heq : s.lastLevel = level := le_antisymm (not_lt.mp hlt) h.level_le
    exact ⟨heq, h.chain, by simpa [heq] using hkeys⟩

theorem KeysAt.settled {root : Node} {level : ℕ} {ancestors : Ancestors} {s : WalkState R}
    (h : KeysAt lang root level ancestors s) : KeysSettled lang root level ancestors s where
  level_le := h.level_eq.ge
  chain := by rw [← h.chain]; exact List.take_length
  length := by
    have := congrArg List.length h.keys
    rw [List.length_map] at this
    rw [this, h.level_eq, Nat.sub_self, Nat.zero_add]
  keys := by rw [h.level_eq, Nat.sub_self, List.drop_zero, h.keys]

/-- Opening a space pushes its key. -/
theorem KeysAt.openNode {root : Node} {level : ℕ} {ancestors : Ancestors} {s : WalkState R}
    (h : KeysAt lang root level ancestors s) (node : Node) :
    (openNode lang suite options s node level).1.map frameKey =
        stackKeys lang root (ancestors ++ [node]) ∧
      (openNode lang suite options s node level).2.1 =
        (openNode lang suite options s node level).2.2 ∧
      level ≤ (openNode lang suite options s node level).2.2 := by
  unfold Spaces.openNode stackKeys
  rw [openKeys_concat, h.chain]
  cases hpromotes : lang.promotesToFuncSpaceWithCode ancestors node with
  | true =>
    have hlabel := (openedState_space lang suite options ⟨ancestors, node, ⟨true, false⟩⟩).1
    have hkey : frameKey (openedState lang suite options ancestors node) =
        (lang.getSpaceKindWithCode ancestors node, openedName lang (ancestors, node)) :=
      Prod.ext (congrArg SpaceLabel.kind hlabel) (congrArg SpaceLabel.name hlabel)
    refine ⟨?_, rfl, by simp [openFuncSpace]⟩
    simp only [if_true, openFuncSpace, List.map_cons, hkey, h.keys, stackKeys, List.cons_append,
      List.nil_append]
  | false => exact ⟨by simpa [stackKeys] using h.keys, h.level_eq, le_refl _⟩

variable (lang suite options)

theorem visitNode_skipped_keys {root : Node} {level : ℕ} {ancestors : Ancestors}
    {s : WalkState R} (h : KeysAt lang root level ancestors s) (node : Node) (walk : Walk)
    {verdict : SubtreeSkip}
    (hskip : skipVerdict lang options ancestors node s.runVerdict = (true, verdict)) :
    ∃ s', visitNode lang suite options s node walk = (s', none) ∧ s'.runVerdict = verdict ∧
      KeysSettled lang root level ancestors s' := by
  have hkeys : (pruneNode suite options s.stateStack node s.nestingMap).1.map frameKey =
      s.stateStack.map frameKey := by
    simp only [pruneNode]
    split_ifs
    · cases s.stateStack <;> rfl
    · rfl
  unfold visitNode
  rw [h.chain, hskip]
  exact ⟨_, rfl, rfl, KeysAt.settled ⟨h.level_eq, rfl, hkeys.trans h.keys⟩⟩

theorem visitNode_kept_keys {root : Node} {level : ℕ} {ancestors : Ancestors} {s : WalkState R}
    (h : KeysAt lang root level ancestors s) (node : Node) (depth : ℕ) (inComment : Bool)
    {verdict : SubtreeSkip}
    (hskip : skipVerdict lang options ancestors node s.runVerdict = (false, verdict)) :
    ∃ s', visitNode lang suite options s node ⟨level, depth, inComment⟩ =
        (s', some ⟨(openNode lang suite options s node level).2.2, depth + 1,
          inComment || lang.isComment node⟩) ∧
      s'.runVerdict = verdict ∧
      KeysSettled lang root (openNode lang suite options s node level).2.2
        (ancestors ++ [node]) s' := by
  obtain ⟨hkeys, hlast, -⟩ := @KeysAt.openNode _ _ suite options _ _ _ _ h node
  unfold visitNode
  rw [h.chain, hskip]
  rcases hopened : openNode lang suite options s node level with ⟨stateStack, lastLevel, newLevel⟩
  rw [hopened] at hkeys hlast
  dsimp only at hkeys hlast ⊢
  have hsuppressed := (applyCommentSuppression_keys lang stateStack node).trans hkeys
  refine ⟨_, rfl, rfl, ?_⟩
  generalize applyCommentSuppression lang stateStack node = suppressed at hsuppressed ⊢
  cases suppressed with
  | nil => exact KeysAt.settled ⟨hlast, rfl, hsuppressed⟩
  | cons top below => exact KeysAt.settled ⟨hlast, rfl, hsuppressed⟩

variable {lang suite options}

/-- Coming back from the children of a node closes the space it opened. -/
theorem KeysSettled.leave {root : Node} {level : ℕ} {ancestors : Ancestors} {node : Node}
    {s₀ s : WalkState R} (h₀ : KeysAt lang root level ancestors s₀)
    (h : KeysSettled lang root (openNode lang suite options s₀ node level).2.2
      (ancestors ++ [node]) s) : KeysSettled lang root level ancestors s := by
  have hchain : s.chain.take ancestors.length = ancestors := by
    have := congrArg (List.take ancestors.length) h.chain
    simpa [List.take_take] using this
  have hkeys : stackKeys lang root (ancestors ++ [node]) =
      (if lang.promotesToFuncSpaceWithCode ancestors node then
        [(lang.getSpaceKindWithCode ancestors node, openedName lang (ancestors, node))]
      else []) ++ stackKeys lang root ancestors := by
    unfold stackKeys
    rw [openKeys_concat, List.append_assoc]
  unfold Spaces.openNode at h
  rw [h₀.chain] at h
  cases hpromotes : lang.promotesToFuncSpaceWithCode ancestors node with
  | true =>
    simp only [hpromotes, if_true, openFuncSpace] at h hkeys
    have hle := h.level_le
    have hdrop := congrArg (List.drop 1) h.keys
    have hlen := h.length
    rw [hkeys] at hdrop hlen
    rw [List.drop_drop] at hdrop
    refine ⟨by omega, hchain, ?_, ?_⟩
    · simp only [List.cons_append, List.nil_append, List.length_cons] at hlen
      omega
    · rw [show s.lastLevel - level = 1 + (s.lastLevel - (level + 1)) by omega]
      simpa [Nat.add_comm] using hdrop
  | false =>
    simp only [hpromotes, Bool.false_eq_true, if_false, List.nil_append] at h hkeys
    exact ⟨h.level_le, hchain, by rw [← hkeys]; exact h.length, by rw [← hkeys]; exact h.keys⟩

variable (lang suite options)

/-- The directive a visited node applies, and the frame it is merged into. -/
def appliedAt (v : Visited) : List Applied :=
  ((lang.suppressionOf v.node).map fun suppression =>
    { ancestors := v.ancestors
      node := v.node
      suppression := suppression
      silenced := (functionOpener lang (v.ancestors ++ [v.node])).map (openedName lang) }).toList

theorem functionFrame_keys (stateStack : List (State R)) :
    (functionFrame stateStack).map (fun frame => frame.space.name) =
      ((stateStack.map frameKey).find? fun key => key.1 = .function).map Prod.snd := by
  induction stateStack with
  | nil => rfl
  | cons s below ih =>
    unfold functionFrame at ih ⊢
    simp only [List.find?_cons, List.map_cons, frameKey]
    cases hkind : decide (s.space.kind = .function) with
    | true => rfl
    | false => exact ih

/-- The topmost function frame of a chain is the one its nearest function opener opened. -/
theorem find_stackKeys (root : Node) (ancestors : Ancestors) :
    ((stackKeys lang root ancestors).find? fun key => key.1 = .function).map Prod.snd =
      (functionOpener lang ancestors).map (openedName lang) := by
  have hbase : (if lang.getSpaceKindWithCode [] root ≠ .unit then
      [((.unit, none) : SpaceKind × Option String)] else []).find?
        (fun key => key.1 = .function) = none := by split_ifs <;> rfl
  unfold stackKeys openKeys functionOpener
  rw [List.find?_append, hbase, Option.or_none]
  induction upward [] ancestors with
  | nil => rfl
  | cons p ps ih =>
    rw [List.filterMap_cons, List.find?_cons]
    cases hpromotes : lang.promotesToFuncSpaceWithCode p.1 p.2 with
    | false => simpa using ih
    | true =>
      simp only [if_true, List.find?_cons, Bool.true_and]
      cases hkind : decide (lang.getSpaceKindWithCode p.1 p.2 = .function) with
      | true => rfl
      | false => exact ih

/-- What the walk logs at a node: nothing where it prunes, else the directive with the
nearest function opener. -/
theorem enforcementLog_eq {root : Node} {level : ℕ} {ancestors : Ancestors} {s : WalkState R}
    (h : KeysSettled lang root level ancestors s)
    (hopen : s.lastLevel = level ∨ stackKeys lang root ancestors ≠ []) (node : Node)
    (facts : NodeFacts) (inComment : Bool) :
    enforcementLog lang suite options s node ⟨level, ancestors.length, inComment⟩ =
      if (skipVerdict lang options ancestors node s.runVerdict).1 then []
      else appliedAt lang ⟨ancestors, node, facts⟩ := by
  have hat := @KeysSettled.closeDeeper _ _ suite options _ _ _ _ h hopen
  have hverdict : (closeDeeper suite options level
      { s with chain := s.chain.take ancestors.length }).runVerdict = s.runVerdict := by
    unfold closeDeeper; split_ifs <;> rfl
  unfold enforcementLog
  dsimp only
  rw [hat.chain, hverdict]
  split_ifs
  · rfl
  · unfold appliedAt
    rw [functionFrame_keys, (hat.openNode node).1, find_stackKeys]

theorem stackKeys_concat_ne_nil {root : Node} {ancestors : Ancestors}
    (h : stackKeys lang root ancestors ≠ []) (node : Node) :
    stackKeys lang root (ancestors ++ [node]) ≠ [] := by
  unfold stackKeys at h ⊢
  rw [openKeys_concat, List.append_assoc]
  exact List.append_ne_nil_of_right_ne_nil _ h

/-- The walk applies the directives of the retained nodes, in pre-order, each to the
nearest function opener of its chain. -/
theorem descendTrace_applied (root : Node) :
    (∀ (t : Node) (level : ℕ) (ancestors : Ancestors) (inComment : Bool) (s : WalkState R),
      KeysSettled lang root level ancestors s →
      (s.lastLevel = level ∨ stackKeys lang root ancestors ≠ []) →
      stackKeys lang root (ancestors ++ [t]) ≠ [] →
        (descend .leftmostOnTop (metricsVisit lang suite options)
          ⟨level, ancestors.length, inComment⟩ t s).runVerdict =
            (markNode lang options ancestors inComment t s.runVerdict).2 ∧
        KeysSettled lang root level ancestors (descend .leftmostOnTop
          (metricsVisit lang suite options) ⟨level, ancestors.length, inComment⟩ t s) ∧
        descendTrace .leftmostOnTop (metricsVisit lang suite options)
          (enforcementLog lang suite options) ⟨level, ancestors.length, inComment⟩ t s =
            (retained (markNode lang options ancestors inComment t s.runVerdict).1).flatMap
              (appliedAt lang)) ∧
    ∀ (ts : List Node) (level : ℕ) (ancestors : Ancestors) (inComment : Bool) (s : WalkState R),
      KeysSettled lang root level ancestors s → stackKeys lang root ancestors ≠ [] →
        (descendForest .leftmostOnTop (metricsVisit lang suite options)
          ⟨level, ancestors.length, inComment⟩ ts s).runVerdict =
            (markForest lang options ancestors inComment ts s.runVerdict).2 ∧
        KeysSettled lang root level ancestors (descendForest .leftmostOnTop
          (metricsVisit lang suite options) ⟨level, ancestors.length, inComment⟩ ts s) ∧
        descendForestTrace .leftmostOnTop (metricsVisit lang suite options)
          (enforcementLog lang suite options) ⟨level, ancestors.length, inComment⟩ ts s =
            (retainedForest (markForest lang options ancestors inComment ts s.runVerdict).1).flatMap
              (appliedAt lang) := by
  refine Rose.tree_forest_induction
    (fun a cs ih level ancestors inComment s hs hopen hchildren => ?_)
    (fun level ancestors inComment s hs _ => ?_)
    (fun t ts iht ihts level ancestors inComment s hs hopen => ?_)
  · have hat := @KeysSettled.closeDeeper _ _ suite options _ _ _ _ hs hopen
    have hlog := fun facts => enforcementLog_eq lang suite options hs hopen (.node a cs) facts
      inComment
    set s₀ := closeDeeper suite options level { s with chain := s.chain.take ancestors.length }
      with hs₀
    have hverdict : s₀.runVerdict = s.runVerdict := by
      rw [hs₀]; unfold closeDeeper; split_ifs <;> rfl
    simp only [descend, descendTrace, metricsVisit, markNode, ← hs₀]
    rcases hskip : skipVerdict lang options ancestors (.node a cs) s.runVerdict
      with ⟨skipped, verdict⟩
    simp only [hskip] at hlog
    cases skipped with
    | true =>
      obtain ⟨s', hvisit, hrun, hsettled⟩ := visitNode_skipped_keys lang suite options hat
        (.node a cs) ⟨level, ancestors.length, inComment⟩ (hverdict ▸ hskip)
      rw [hvisit, hlog ⟨false, false⟩]
      simp only [if_true, retained, List.flatMap_nil, List.append_nil]
      exact ⟨hrun, hsettled, trivial⟩
    | false =>
      obtain ⟨s', hvisit, hrun, hsettled⟩ := visitNode_kept_keys lang suite options hat
        (.node a cs) ancestors.length inComment (hverdict ▸ hskip)
      obtain ⟨hrun', hsettled', htrace⟩ := ih _ (ancestors ++ [.node a cs])
        (inComment || lang.isComment (.node a cs)) s' hsettled hchildren
      rw [List.length_append, List.length_singleton] at hrun' hsettled' htrace
      rw [hrun] at hrun' htrace
      rw [hvisit, hlog ⟨lang.promotesToFuncSpaceWithCode ancestors (.node a cs),
        inComment || lang.isComment (.node a cs)⟩]
      simp only [Bool.false_eq_true, if_false, retained, List.flatMap_cons]
      exact ⟨hrun', hsettled'.leave hat, by rw [htrace]⟩
  · simpa [descendForest, descendForestTrace, markForest, retainedForest] using hs
  · obtain ⟨hrun, hsettled, htrace⟩ := iht level ancestors inComment s hs (.inr hopen)
      (stackKeys_concat_ne_nil lang hopen t)
    obtain ⟨hrun', hsettled', htrace'⟩ := ihts level ancestors inComment _ hsettled hopen
    rw [hrun] at hrun' htrace'
    simp only [descendForest, descendForestTrace, markForest, retainedForest, List.flatMap_append]
    exact ⟨hrun', hsettled', by rw [htrace, htrace']⟩

theorem enforcementTrace_eq (root : Node)
    (hunit : lang.getSpaceKindWithCode [] root = .unit →
      lang.promotesToFuncSpaceWithCode [] root = true) :
    enforcementTrace lang suite options root =
      (retained (markRoot lang options root)).flatMap (appliedAt lang) := by
  have hinitial : KeysSettled lang root 0 [] (WalkState.initial lang suite root) := by
    refine KeysAt.settled ⟨rfl, rfl, ?_⟩
    unfold stackKeys WalkState.initial pushSyntheticUnitRoot
    split_ifs <;> rfl
  have hroot : stackKeys lang root ([] ++ [root]) ≠ [] := by
    unfold stackKeys
    rw [openKeys_concat]
    by_cases hkind : lang.getSpaceKindWithCode [] root = .unit
    · simp [hunit hkind]
    · simp [hkind]
  unfold enforcementTrace
  rw [trace_eq_descendTrace]
  exact ((descendTrace_applied lang suite options root).1 root 0 [] false _ hinitial (.inl rfl)
    hroot).2.2

end Enforcement

/-! ### Agreement -/

section Agreement
variable (lang : Language) (suite : MetricSuite R) (options : MetricsOptions)

/-- What a listing and an enforcement of one directive share. -/
structure DirectiveKey where
  line : ℕ
  target : SuppressionTarget
  scope : SuppressionScope
  dialect : SuppressionDialect
  deriving DecidableEq

def SuppressionMarker.key (m : SuppressionMarker) : DirectiveKey :=
  ⟨m.line, m.target, m.scope, m.dialect⟩

def directiveKey (node : Node) (d : Suppression) : DirectiveKey :=
  ⟨node.startRow + 1, .ofKind d.kind, d.scope, .ofSource d.source⟩

/-- The audit and the enforcement agree: they see the same directives, and a function
directive listed with a function silences the function space of that name, one listed with
none silences nothing. -/
structure AuditAgrees (root : Node) : Prop where
  same : ((suppressionMarkers lang root).map SuppressionMarker.key).Perm
    ((enforcementTrace lang suite options root).map fun a => directiveKey a.node a.suppression)
  attribution : ∀ listed ∈ auditTrace lang root,
    ∀ applied ∈ enforcementTrace lang suite options root,
      listed.ancestors = applied.ancestors → listed.node = applied.node →
        listed.marker.target = .function →
          applied.silenced = listed.marker.function.map some

/-- The two attribution rules name the same function at every function directive the walk
visits, and no subtree the walk skips carries a directive. -/
structure RulesCoincide (root : Node) : Prop where
  retained : ∀ v ∈ retained (markRoot lang options root), ∀ d,
    lang.suppressionOf v.node = some d → d.kind = .function →
      (functionOpener lang (v.ancestors ++ [v.node])).map (openedName lang) =
        (enclosingName lang v.ancestors).map some
  pruned : ∀ node ∈ prunedRoots (markRoot lang options root), ∀ n ∈ node.nodes,
    lang.suppressionOf n = none

/-- The directive of a node, if any, as a key. -/
def keysAt (node : Node) : List DirectiveKey :=
  ((lang.suppressionOf node).map (directiveKey node)).toList

theorem listedAt_keys (p : Ancestors × Node) :
    (listedAt lang p).map (fun l => l.marker.key) = keysAt lang p.2 := by
  simp only [listedAt, markerAt, keysAt]
  cases lang.suppressionOf p.2 <;> rfl

theorem appliedAt_keys (v : Visited) :
    (appliedAt lang v).map (fun a => directiveKey a.node a.suppression) = keysAt lang v.node := by
  simp only [appliedAt, keysAt]
  cases lang.suppressionOf v.node <;> rfl

theorem positions_nodes :
    (∀ (t : Node) (ancestors : Ancestors), (positions ancestors t).map Prod.snd = t.nodes) ∧
      ∀ (ts : List Node) (ancestors : Ancestors),
        (positionsForest ancestors ts).map Prod.snd = Rose.forestNodes ts := by
  refine Rose.tree_forest_induction (fun a cs ih ancestors => ?_)
    (fun ancestors => by simp [positionsForest, Rose.forestNodes]) (fun t ts iht ihts ancestors => ?_)
  · simp [positions, Rose.nodes, ih]
  · simp [positionsForest, Rose.forestNodes, iht, ihts]

/-- Every node is visited or lies in a skipped subtree. -/
theorem nodes_perm :
    (∀ (t : Node) (ancestors : Ancestors) (inComment : Bool) (verdict : SubtreeSkip),
      t.nodes.Perm
        ((retained (markNode lang options ancestors inComment t verdict).1).map Visited.node ++
          (prunedRoots (markNode lang options ancestors inComment t verdict).1).flatMap
            Rose.nodes)) ∧
    ∀ (ts : List Node) (ancestors : Ancestors) (inComment : Bool) (verdict : SubtreeSkip),
      (Rose.forestNodes ts).Perm
        ((retainedForest (markForest lang options ancestors inComment ts verdict).1).map
            Visited.node ++
          (prunedRootsForest (markForest lang options ancestors inComment ts verdict).1).flatMap
            Rose.nodes) := by
  refine Rose.tree_forest_induction (fun a cs ih ancestors inComment verdict => ?_)
    (fun ancestors inComment verdict => by
      simp [Rose.forestNodes, markForest, retainedForest, prunedRootsForest])
    (fun t ts iht ihts ancestors inComment verdict => ?_)
  · rcases hskip : skipVerdict lang options ancestors (.node a cs) verdict
      with ⟨_ | _, verdict'⟩
    · simp only [markNode, hskip, Bool.false_eq_true, if_false, retained, prunedRoots,
        Rose.nodes, List.map_cons, List.cons_append]
      exact (ih _ _ _).cons _
    · simp [markNode, hskip, retained, prunedRoots]
  · simp only [Rose.forestNodes, markForest, retainedForest, prunedRootsForest, List.map_append,
      List.flatMap_append]
    refine ((iht ancestors inComment verdict).append (ihts ancestors inComment
      (markNode lang options ancestors inComment t verdict).2)).trans ?_
    simp only [List.append_assoc]
    refine List.Perm.append_left _ ?_
    simp only [← List.append_assoc]
    exact List.perm_append_comm.append_right _

theorem retained_positions :
    (∀ (t : Node) (ancestors : Ancestors) (inComment : Bool) (verdict : SubtreeSkip),
      ∀ v ∈ retained (markNode lang options ancestors inComment t verdict).1,
        (v.ancestors, v.node) ∈ positions ancestors t) ∧
    ∀ (ts : List Node) (ancestors : Ancestors) (inComment : Bool) (verdict : SubtreeSkip),
      ∀ v ∈ retainedForest (markForest lang options ancestors inComment ts verdict).1,
        (v.ancestors, v.node) ∈ positionsForest ancestors ts := by
  refine Rose.tree_forest_induction (fun a cs ih ancestors inComment verdict v hv => ?_)
    (fun ancestors inComment verdict v hv => by simp [markForest, retainedForest] at hv)
    (fun t ts iht ihts ancestors inComment verdict v hv => ?_)
  · rcases hskip : skipVerdict lang options ancestors (.node a cs) verdict
      with ⟨_ | _, verdict'⟩
    · simp only [markNode, hskip, Bool.false_eq_true, if_false, retained, List.mem_cons] at hv
      simp only [positions, List.mem_cons]
      rcases hv with rfl | hv
      · exact .inl rfl
      · exact .inr (ih _ _ _ v hv)
    · simp [markNode, hskip, retained] at hv
  · simp only [markForest, retainedForest, List.mem_append] at hv
    simp only [positionsForest, List.mem_append]
    exact hv.imp (iht _ _ _ v) (ihts _ _ _ v)

/-- The same directives are listed and applied exactly when no skipped subtree has one. -/
theorem same_directives_iff (root : Node)
    (hunit : lang.getSpaceKindWithCode [] root = .unit →
      lang.promotesToFuncSpaceWithCode [] root = true) :
    ((suppressionMarkers lang root).map SuppressionMarker.key).Perm
        ((enforcementTrace lang suite options root).map
          fun a => directiveKey a.node a.suppression) ↔
      ∀ node ∈ prunedRoots (markRoot lang options root), ∀ n ∈ node.nodes,
        lang.suppressionOf n = none := by
  set applied := (retained (markRoot lang options root)).flatMap fun v => keysAt lang v.node
    with happlied
  set skipped := ((prunedRoots (markRoot lang options root)).flatMap Rose.nodes).flatMap
    (keysAt lang) with hskipped
  have hlisted : ((suppressionMarkers lang root).map SuppressionMarker.key).Perm
      (applied ++ skipped) := by
    have hnodes := (nodes_perm lang options).1 root [] false .retain
    rw [suppressionMarkers_eq]
    refine ((List.mergeSort_perm _ _).map _).trans ?_
    rw [List.map_map]
    refine ((auditTrace_perm lang root).map _).trans ?_
    rw [List.map_flatMap]
    have hkeys : ((positions [] root).flatMap fun p =>
        (listedAt lang p).map (SuppressionMarker.key ∘ Listed.marker)) =
        root.nodes.flatMap (keysAt lang) := by
      rw [← positions_nodes.1 root [], List.flatMap_map]
      exact List.flatMap_congr fun p _ => listedAt_keys lang p
    rw [hkeys]
    refine (hnodes.flatMap_right _).trans ?_
    rw [List.flatMap_append, List.flatMap_map]
    exact .refl _
  have henforced : (enforcementTrace lang suite options root).map
      (fun a => directiveKey a.node a.suppression) = applied := by
    rw [enforcementTrace_eq lang suite options root hunit, List.map_flatMap]
    exact List.flatMap_congr fun v _ => appliedAt_keys lang v
  have hnil : skipped = [] ↔ ∀ node ∈ prunedRoots (markRoot lang options root),
      ∀ n ∈ node.nodes, lang.suppressionOf n = none := by
    simp only [hskipped, List.flatMap_eq_nil_iff, List.mem_flatMap, keysAt,
      Option.toList_eq_nil_iff, Option.map_eq_none_iff, forall_exists_index, and_imp]
    exact ⟨fun h node hnode n hn => h n node hnode hn, fun h n node hnode hn => h node hnode n hn⟩
  rw [henforced, ← hnil]
  constructor
  · intro h
    have hlen := (hlisted.symm.trans h).length_eq
    rw [List.length_append] at hlen
    exact List.eq_nil_of_length_eq_zero (by omega)
  · intro h
    rw [h, List.append_nil] at hlisted
    exact hlisted

theorem AuditAgrees.rulesCoincide {root : Node}
    (h : AuditAgrees lang suite options root)
    (hunit : lang.getSpaceKindWithCode [] root = .unit →
      lang.promotesToFuncSpaceWithCode [] root = true) :
    RulesCoincide lang options root := by
  have htrace := enforcementTrace_eq lang suite options root hunit
  obtain ⟨hkeys, hattribution⟩ := h
  refine ⟨fun v hv d hd hkind => ?_, (same_directives_iff lang suite options root hunit).mp hkeys⟩
  have hposition := (retained_positions lang options).1 root [] false .retain v hv
  have happlied : (⟨v.ancestors, v.node, d, (functionOpener lang (v.ancestors ++ [v.node])).map
      (openedName lang)⟩ : Applied) ∈ enforcementTrace lang suite options root := by
    rw [htrace]
    exact List.mem_flatMap.mpr ⟨v, hv, by simp [appliedAt, hd]⟩
  have hlisted : (⟨v.ancestors, v.node, ⟨v.node.startRow + 1, .ofKind d.kind, d.scope,
      .ofSource d.source, enclosingName lang v.ancestors⟩⟩ : Listed) ∈ auditTrace lang root := by
    refine (auditTrace_perm lang root).mem_iff.mpr (List.mem_flatMap.mpr ⟨_, hposition, ?_⟩)
    simp [listedAt, markerAt, markerFunction, hd, hkind]
  exact hattribution _ hlisted _ happlied rfl rfl (by rw [hkind]; rfl)

theorem RulesCoincide.auditAgrees {root : Node} (h : RulesCoincide lang options root)
    (hunit : lang.getSpaceKindWithCode [] root = .unit →
      lang.promotesToFuncSpaceWithCode [] root = true) :
    AuditAgrees lang suite options root := by
  have hsame := same_directives_iff lang suite options root hunit
  have htrace := enforcementTrace_eq lang suite options root hunit
  obtain ⟨hretained, hpruned⟩ := h
  refine ⟨hsame.mpr hpruned, fun listed hlisted applied happlied hanc hnode htarget => ?_⟩
  rw [htrace] at happlied
  obtain ⟨v, hv, happlied⟩ := List.mem_flatMap.mp happlied
  obtain ⟨p, -, hlisted⟩ :=
    List.mem_flatMap.mp ((auditTrace_perm lang root).mem_iff.mp hlisted)
  obtain ⟨d, hd, rfl⟩ : ∃ d, lang.suppressionOf v.node = some d ∧
      ⟨v.ancestors, v.node, d, (functionOpener lang (v.ancestors ++ [v.node])).map
        (openedName lang)⟩ = applied := by simpa [appliedAt] using happlied
  obtain ⟨d', hd', rfl⟩ : ∃ d', lang.suppressionOf p.2 = some d' ∧
      ⟨p.1, p.2, ⟨p.2.startRow + 1, .ofKind d'.kind, d'.scope, .ofSource d'.source,
        markerFunction d'.kind (enclosingName lang p.1)⟩⟩ = listed := by simpa [listedAt, markerAt] using hlisted
  dsimp only at hanc hnode htarget ⊢
  have hkind : d'.kind = .function := by
    cases hk : d'.kind with
    | function => rfl
    | file => simp [hk, SuppressionTarget.ofKind] at htarget
  rw [hnode] at hd'
  obtain rfl : d' = d := by rw [hd] at hd'; simpa using hd'.symm
  rw [hretained v hv d' hd hkind, hkind, hanc]
  rfl

/-- The audit agrees with the enforcement exactly when the two attribution rules coincide
and no skipped subtree carries a directive. A root of kind `Unit` opens a space. -/
theorem auditAgrees_iff (root : Node)
    (hunit : lang.getSpaceKindWithCode [] root = .unit →
      lang.promotesToFuncSpaceWithCode [] root = true) :
    AuditAgrees lang suite options root ↔ RulesCoincide lang options root :=
  ⟨fun h => h.rulesCoincide lang suite options hunit,
    fun h => h.auditAgrees lang suite options hunit⟩

/-- A function with a directive in its body, and a test that is pruned. -/
def markedFunction : Node := rowNode 0 0 [rowNode 1 1 [rowNode 3 2 []], rowNode 4 3 []]

theorem auditAgrees_markedFunction :
    AuditAgrees symbolLanguage symbolSuite ⟨{.loc}, true⟩ markedFunction ↔
      RulesCoincide symbolLanguage ⟨{.loc}, true⟩ markedFunction :=
  auditAgrees_iff symbolLanguage symbolSuite ⟨{.loc}, true⟩ markedFunction (by decide)

/-- A directive inside a closure inside `f`. -/
def markedClosure : Node := rowNode 0 0 [rowNode 1 1 [rowNode 2 2 [rowNode 3 3 []]]]

/-- The audit attributes the closure's directive to `f`; the walk silences the closure. -/
theorem audit_differs_on_closure :
    (suppressionMarkers symbolLanguage markedClosure).map (·.function) = [some "f"] ∧
      (enforcementTrace symbolLanguage symbolSuite ⟨∅, false⟩ markedClosure).map (·.silenced) =
        [some (some "<anonymous>")] ∧
      ¬ AuditAgrees symbolLanguage symbolSuite ⟨∅, false⟩ markedClosure := by
  refine ⟨by decide +kernel, by decide +kernel, fun h => ?_⟩
  have hrules := (h.rulesCoincide symbolLanguage symbolSuite ⟨∅, false⟩ (by decide)).retained
  have hdiffer : ((retained (markRoot symbolLanguage ⟨∅, false⟩ markedClosure)).all fun v =>
      symbolLanguage.suppressionOf v.node ≠ some ⟨.function, .all, .native⟩ ∨
        (functionOpener symbolLanguage (v.ancestors ++ [v.node])).map
          (openedName symbolLanguage) =
            (enclosingName symbolLanguage v.ancestors).map some) = false := by decide +kernel
  obtain ⟨v, hv, hv'⟩ := List.all_eq_false.mp hdiffer
  simp only [ne_eq, decide_eq_true_eq, not_or, not_not] at hv'
  exact hv'.2 (hrules v hv _ hv'.1 rfl)

end Agreement

end BigCodeAnalysis.Suppression
