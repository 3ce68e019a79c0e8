import BigCodeAnalysis.Trees.RootPath

/-! Boolean sequences in a Bash test. A comparison swallows the connectives around it, so a
sequence reaches to the end of the outermost comparison of a run. A walk keeps the members of
the runs it is inside on a stack, and drops those it has left when it next asks. The stack is
proved to answer as a climb would: at every node asked it holds the members among the node's
ancestors, under what is left of finished runs, which the next question drops because spans
nest. -/

namespace BigCodeAnalysis.Languages.Bash

open Trees

inductive Kind where
  | unaryExpression | unaryExpression2 | unaryExpression3 | binaryExpression3
  | eq | eqeq | bangeq | eqtilde
  | other (id : ℕ)
  deriving DecidableEq, Repr

structure NodeData where
  id : ℕ
  kind : Kind
  startByte : ℕ
  endByte : ℕ
  deriving DecidableEq, Repr

abbrev Node := Rose NodeData

namespace Node

variable (node : Node)

def id : ℕ := node.label.id

def kind : Kind := node.label.kind

def startByte : ℕ := node.label.startByte

def endByte : ℕ := node.label.endByte

def wrapsAny (kinds : List Kind) : Bool := node.children.any fun c : Node => c.kind ∈ kinds

end Node

def runComparisons : List Kind := [.eq, .eqeq, .bangeq, .eqtilde]

/-- All three kinds are named `unary_expression`. -/
def isUnaryExpression (node : Node) : Bool :=
  node.kind ∈ [Kind.unaryExpression, .unaryExpression2, .unaryExpression3]

/-- Nodes that a run is made of. -/
def isRunMember (node : Node) : Bool := isUnaryExpression node || node.wrapsAny runComparisons

structure RunMember where
  id : ℕ
  start : ℕ
  stop : ℕ
  runEnd : ℕ
  deriving DecidableEq, Repr

/-- The members a walk is inside, innermost first. -/
abbrev ComparisonRuns := List RunMember

/-- The span of the node is not inside the member's. -/
def RunMember.finished (member : RunMember) (node : Node) : Bool :=
  decide (node.startByte < member.start) || decide (member.stop < node.endByte)

/-- The end of the parent's run, if the innermost member is the parent. -/
def ComparisonRuns.runEnd (runs : ComparisonRuns) (node : Node) (parent : Option Node) : ℕ :=
  match parent, runs.head? with
  | some parent, some member => if member.id = parent.id then member.runEnd else node.endByte
  | _, _ => node.endByte

def ComparisonRuns.sequenceEnd (runs : ComparisonRuns) (node : Node) (parent : Option Node) :
    ℕ × ComparisonRuns :=
  let runs := runs.dropWhile (·.finished node)
  let runEnd := ComparisonRuns.runEnd runs node parent
  (runEnd, if isRunMember node then ⟨node.id, node.startByte, node.endByte, runEnd⟩ :: runs
    else runs)

/-- The nodes at which the cognitive metric asks. -/
def asksSequenceEnd (node : Node) : Bool :=
  isUnaryExpression node || node.kind = .binaryExpression3

/-- The answers at some positions of a walk, one after the other. -/
def sequenceEnds : List (Position NodeData) → ComparisonRuns → List ℕ × ComparisonRuns
  | [], runs => ([], runs)
  | p :: ps, runs =>
    let (stop, runs) := runs.sequenceEnd p.node p.up.head?
    let (stops, runs) := sequenceEnds ps runs
    (stop :: stops, runs)

/-- The answers of a walk that asks at some of its nodes. -/
def walkEnds (root : Node) (asked : Position NodeData → Bool) : List ℕ :=
  (sequenceEnds ((root.positions []).filter asked) []).1

/-! ### The climb -/

/-- The end of the last node reached by climbing from member to member. -/
def climbEnd (member : Position NodeData → Bool) (node : Node) : List Node → ℕ
  | [] => node.endByte
  | parent :: up =>
    if member ⟨parent, up⟩ then climbEnd member parent up else node.endByte

/-! ### The stack of a walk -/

/-- A tree whose siblings cover disjoint bytes inside their parent's. -/
structure SpanTree where
  root : Node
  ids : (root.nodes.map Node.id).Nodup
  nonempty : ∀ t : Node, t ∈ root.nodes → t.startByte < t.endByte
  nested : ∀ t : Node, t ∈ root.nodes → ∀ c : Node, c ∈ t.children →
    t.startByte ≤ c.startByte ∧ c.endByte ≤ t.endByte
  disjoint : ∀ t : Node, t ∈ root.nodes → t.children.Pairwise fun a b : Node =>
    a.endByte ≤ b.startByte ∨ b.endByte ≤ a.startByte

/-- Members outside a node's span, and inside it. -/
def RunMember.Apart (m : RunMember) (t : Node) : Prop :=
  m.stop ≤ t.startByte ∨ t.endByte ≤ m.start

def RunMember.Within (m : RunMember) (t : Node) : Prop :=
  t.startByte ≤ m.start ∧ m.stop ≤ t.endByte

theorem sequenceEnds_append (ps qs : List (Position NodeData)) (runs : ComparisonRuns) :
    sequenceEnds (ps ++ qs) runs =
      ((sequenceEnds ps runs).1 ++ (sequenceEnds qs (sequenceEnds ps runs).2).1,
        (sequenceEnds qs (sequenceEnds ps runs).2).2) := by
  induction ps generalizing runs with
  | nil => rfl
  | cons p ps ih =>
    rw [List.cons_append, sequenceEnds, sequenceEnds]
    dsimp only
    rw [ih]
    rfl

section
variable (tree : SpanTree) (asked : Position NodeData → Bool)

/-- Nodes asked at that record themselves. -/
def recorded (p : Position NodeData) : Bool := asked p && isRunMember p.node

/-- The members among a node's ancestors. -/
def known : List Node → ComparisonRuns
  | [] => []
  | p :: up =>
    if recorded asked ⟨p, up⟩ then
      ⟨p.id, p.startByte, p.endByte, climbEnd (recorded asked) p up⟩ :: known up
    else known up

variable {tree asked}

theorem mem_known {m : RunMember} {up : List Node} (h : m ∈ known asked up) :
    ∃ q ∈ up, m.id = q.id ∧ m.start = q.startByte ∧ m.stop = q.endByte := by
  induction up with
  | nil => cases h
  | cons p up ih =>
    rw [known] at h
    split at h
    · rcases List.mem_cons.mp h with rfl | htail
      · exact ⟨p, List.mem_cons_self, rfl, rfl, rfl⟩
      · obtain ⟨q, hq, hm⟩ := ih htail
        exact ⟨q, List.mem_cons_of_mem _ hq, hm⟩
    · obtain ⟨q, hq, hm⟩ := ih h
      exact ⟨q, List.mem_cons_of_mem _ hq, hm⟩

/-- The spans of a node's ancestors hold its own. -/
theorem ancestor_holds {up : List Node} {t : Node}
    (hpath : IsPath tree.root (up.reverse ++ [t])) :
    ∀ q ∈ up, q.startByte ≤ t.startByte ∧ t.endByte ≤ q.endByte := by
  induction up generalizing t with
  | nil => simp
  | cons p up ih =>
    rw [List.reverse_cons, List.append_assoc] at hpath
    obtain ⟨hp, hchild, -⟩ := isPath_append_iff.mp hpath
    have hstep := tree.nested p hp.last_mem_nodes t hchild
    refine List.forall_mem_cons.mpr ⟨hstep, fun q hq => ?_⟩
    obtain ⟨hstart, hstop⟩ := ih hp q hq
    exact ⟨hstart.trans hstep.1, hstep.2.trans hstop⟩

/-- Asking drops what is left of finished runs and no ancestor. -/
theorem dropWhile_eq_known {up : List Node} {t : Node} {stale : ComparisonRuns}
    (hpath : IsPath tree.root (up.reverse ++ [t])) (hstale : ∀ m ∈ stale, m.Apart t) :
    (stale ++ known asked up).dropWhile (·.finished t) = known asked up := by
  have hspan := tree.nonempty t hpath.last_mem_nodes
  have hout : ∀ m ∈ stale, m.finished t = true := by
    intro m hm
    have happart := hstale m hm
    rw [RunMember.Apart] at happart
    rw [RunMember.finished, Bool.or_eq_true, decide_eq_true_iff, decide_eq_true_iff]
    omega
  rw [List.dropWhile_append_of_pos hout]
  cases hknown : known asked up with
  | nil => rfl
  | cons m rest =>
    obtain ⟨q, hq, -, hstart, hstop⟩ := mem_known (hknown ▸ List.mem_cons_self : m ∈ _)
    obtain ⟨hle, hge⟩ := ancestor_holds hpath q hq
    have hinside : m.finished t = false := by
      rw [RunMember.finished, Bool.or_eq_false_iff, decide_eq_false_iff_not,
        decide_eq_false_iff_not]
      omega
    exact List.dropWhile_cons_of_neg (by rw [hinside]; exact Bool.false_ne_true)

theorem runEnd_known {up : List Node} {t : Node} (hpath : IsPath tree.root (up.reverse ++ [t])) :
    ComparisonRuns.runEnd (known asked up) t up.head? = climbEnd (recorded asked) t up := by
  cases up with
  | nil => rfl
  | cons p up =>
    rw [List.head?_cons, known, climbEnd]
    by_cases hmember : recorded asked ⟨p, up⟩ = true
    · rw [if_pos hmember, if_pos hmember]
      exact if_pos rfl
    · rw [if_neg hmember, if_neg hmember]
      cases hknown : known asked up with
      | nil => rfl
      | cons m rest =>
        obtain ⟨q, hq, hid, -⟩ := mem_known (hknown ▸ List.mem_cons_self : m ∈ _)
        have hkeys := hpath.nodup_keys tree.ids
        rw [List.map_append, List.nodup_append] at hkeys
        have hup := hkeys.1
        rw [List.map_reverse, List.nodup_reverse, List.map_cons, List.nodup_cons] at hup
        refine if_neg fun hsame => hup.1 ?_
        rw [← hsame, hid]
        exact List.mem_map_of_mem hq

/-- One question is answered by the climb, and leaves the members a child finds. -/
theorem sequenceEnd_eq {up : List Node} {t : Node} {stale : ComparisonRuns}
    (hpath : IsPath tree.root (up.reverse ++ [t])) (hstale : ∀ m ∈ stale, m.Apart t)
    (hasked : asked ⟨t, up⟩ = true) :
    ComparisonRuns.sequenceEnd (stale ++ known asked up) t up.head? =
      (climbEnd (recorded asked) t up, known asked (t :: up)) := by
  rw [ComparisonRuns.sequenceEnd, dropWhile_eq_known hpath hstale, runEnd_known hpath, known,
    recorded, hasked, Bool.true_and]

/-- The answers at some positions are those of the climb, and leave only members that were on
the stack or lie inside what was walked. -/
def Answered (asked : Position NodeData → Bool) (up : List Node) (ps : List (Position NodeData))
    (stale : ComparisonRuns) (inside : RunMember → Prop) : Prop :=
  ∃ stale', sequenceEnds (ps.filter asked) (stale ++ known asked up) =
      ((ps.filter asked).map fun p => climbEnd (recorded asked) p.node p.up,
        stale' ++ known asked up) ∧
    ∀ m ∈ stale', m ∈ stale ∨ inside m

theorem RunMember.Within.trans {m : RunMember} {t c : Node} (h : m.Within c)
    (hc : t.startByte ≤ c.startByte ∧ c.endByte ≤ t.endByte) : m.Within t :=
  ⟨hc.1.trans h.1, h.2.trans hc.2⟩

theorem RunMember.Apart.child {m : RunMember} {t c : Node} (h : m.Apart t)
    (hc : t.startByte ≤ c.startByte ∧ c.endByte ≤ t.endByte) : m.Apart c := by
  rw [RunMember.Apart] at h ⊢
  omega

theorem exists_known_cons (asked : Position NodeData → Bool) (t : Node) (up : List Node) :
    ∃ own : ComparisonRuns, known asked (t :: up) = own ++ known asked up ∧
      ∀ m ∈ own, m.Within t := by
  rw [known]
  split
  · exact ⟨[_], rfl, fun m hm => by
      obtain rfl := List.mem_singleton.mp hm
      exact ⟨Nat.le_refl _, Nat.le_refl _⟩⟩
  · exact ⟨[], rfl, fun m hm => absurd hm List.not_mem_nil⟩

variable (tree asked) in
/-- A subtree is walked with every ancestor of it on the stack. -/
theorem answered :
    (∀ (t : Node) (up : List Node) (stale : ComparisonRuns),
      IsPath tree.root (up.reverse ++ [t]) → (∀ m ∈ stale, m.Apart t) →
      Answered asked up (t.positions up) stale fun m => m.Within t) ∧
    ∀ (ts : List Node) (up : List Node) (stale : ComparisonRuns),
      (∀ t ∈ ts, IsPath tree.root (up.reverse ++ [t])) → (∀ m ∈ stale, ∀ t ∈ ts, m.Apart t) →
      (ts.Pairwise fun a b : Node => a.endByte ≤ b.startByte ∨ b.endByte ≤ a.startByte) →
      Answered asked up (Rose.positionsOf up ts) stale fun m => ∃ t ∈ ts, m.Within t := by
  refine Rose.tree_forest_induction ?node ?nil ?cons
  case node =>
    intro a cs ih up stale hpath hstale
    have hmem := hpath.last_mem_nodes
    have hnested := tree.nested _ hmem
    have hchildren : ∀ c ∈ cs, IsPath tree.root ((Rose.node a cs :: up).reverse ++ [c]) := by
      intro c hc
      rw [List.reverse_cons]
      exact hpath.snoc hc
    have hbelow := fun stale happart => ih (.node a cs :: up) stale hchildren happart
      (tree.disjoint _ hmem)
    rw [Rose.positions]
    by_cases hasked : asked ⟨.node a cs, up⟩ = true
    · obtain ⟨stale', hends, hinside⟩ := hbelow [] (fun m hm => absurd hm List.not_mem_nil)
      obtain ⟨own, hown, hwithin⟩ := exists_known_cons asked (.node a cs) up
      refine ⟨stale' ++ own, ?_, fun m hm => Or.inr ?_⟩
      · rw [List.filter_cons_of_pos hasked, sequenceEnds, sequenceEnd_eq hpath hstale hasked]
        dsimp only
        rw [List.nil_append] at hends
        rw [hends, hown, List.map_cons, List.append_assoc]
      · rcases List.mem_append.mp hm with hm | hm
        · rcases hinside m hm with hnil | ⟨c, hc, hwithin⟩
          · cases hnil
          · exact hwithin.trans (hnested c hc)
        · exact hwithin m hm
    · have hknown : known asked (.node a cs :: up) = known asked up := by
        rw [known, recorded, if_neg (by simp [hasked])]
      obtain ⟨stale', hends, hinside⟩ := hbelow stale
        (fun m hm c hc => (hstale m hm).child (hnested c hc))
      rw [hknown] at hends
      refine ⟨stale', ?_, fun m hm => ?_⟩
      · rw [List.filter_cons_of_neg hasked]
        exact hends
      · refine (hinside m hm).imp id fun hchild => ?_
        obtain ⟨c, hc, hwithin⟩ := hchild
        exact hwithin.trans (hnested c hc)
  case nil =>
    intro up stale _ _ _
    exact ⟨stale, rfl, fun m hm => Or.inl hm⟩
  case cons =>
    intro t ts iht ihts up stale hpaths hstale hdisjoint
    obtain ⟨hfirst, hrest⟩ := List.pairwise_cons.mp hdisjoint
    obtain ⟨stale₁, hends₁, hinside₁⟩ := iht up stale (hpaths t List.mem_cons_self)
      (fun m hm => hstale m hm t List.mem_cons_self)
    have happart : ∀ m ∈ stale₁, ∀ u ∈ ts, m.Apart u := by
      intro m hm u hu
      rcases hinside₁ m hm with hold | ⟨hstart, hstop⟩
      · exact hstale m hold u (List.mem_cons_of_mem _ hu)
      · have hbeside := hfirst u hu
        rw [RunMember.Apart]
        omega
    obtain ⟨stale₂, hends₂, hinside₂⟩ := ihts up stale₁
      (fun u hu => hpaths u (List.mem_cons_of_mem _ hu)) happart hrest
    refine ⟨stale₂, ?_, fun m hm => ?_⟩
    · rw [Rose.positionsOf, List.filter_append, sequenceEnds_append, hends₁, hends₂,
        List.map_append]
    · rcases hinside₂ m hm with hold | ⟨u, hu, hwithin⟩
      · exact (hinside₁ m hold).imp id fun hwithin => ⟨t, List.mem_cons_self, hwithin⟩
      · exact Or.inr ⟨u, List.mem_cons_of_mem _ hu, hwithin⟩

end

/-- Whatever nodes are asked at, the answers are those of the climb through the nodes asked
that record themselves. -/
theorem walkEnds_eq (tree : SpanTree) (asked : Position NodeData → Bool) :
    walkEnds tree.root asked = ((tree.root.positions []).filter asked).map fun p =>
      climbEnd (recorded asked) p.node p.up := by
  obtain ⟨stale', hends, -⟩ := (answered tree asked).1 tree.root [] []
    ⟨rfl, List.isChain_singleton _⟩ (fun m hm => absurd hm List.not_mem_nil)
  rw [walkEnds]
  exact congrArg Prod.fst hends

/-- The last node reached from a node by going up through members only. -/
def runTop (member : Node → Bool) (node : Node) (up : List Node) : Node :=
  (up.takeWhile member).getLast?.getD node

theorem climbEnd_eq_runTop {member : Position NodeData → Bool} {member' : Node → Bool}
    {root : Node} (h : ∀ p ∈ root.positions [], member p = member' p.node) {node : Node}
    {up : List Node} (hmem : ⟨node, up⟩ ∈ root.positions []) :
    climbEnd member node up = (runTop member' node up).endByte := by
  induction up generalizing node with
  | nil => rfl
  | cons parent up ih =>
    have hparent := Rose.mem_positions_parent hmem
    rw [climbEnd, runTop, h _ hparent]
    by_cases hmember : member' parent = true
    · rw [if_pos hmember, ih hparent, runTop, List.takeWhile_cons_of_pos hmember,
        List.getLast?_cons]
      rfl
    · rw [if_neg hmember, List.takeWhile_cons_of_neg hmember]
      rfl

/-- A walk that asks at every run member. -/
structure RunWalk where
  tree : SpanTree
  asked : Position NodeData → Bool
  asksMembers : ∀ p ∈ tree.root.positions [], isRunMember p.node = true → asked p = true

/-- A walk that asks at every run member is answered at each node it asks at with the end of
the last member of the run above. The metric's own walk takes for members the nodes it asks
at. -/
theorem RunWalk.ends_eq_climb (walk : RunWalk) :
    (walkEnds walk.tree.root walk.asked =
      ((walk.tree.root.positions []).filter walk.asked).map fun p =>
        (runTop isRunMember p.node p.up).endByte) ∧
    walkEnds walk.tree.root (fun p => asksSequenceEnd p.node) =
      ((walk.tree.root.positions []).filter fun p => asksSequenceEnd p.node).map fun p =>
        (runTop (fun n => asksSequenceEnd n && isRunMember n) p.node p.up).endByte := by
  rw [walkEnds_eq, walkEnds_eq]
  refine ⟨List.map_congr_left fun p hp => ?_, List.map_congr_left fun p hp => ?_⟩
  · refine climbEnd_eq_runTop (fun q hq => ?_) (List.mem_of_mem_filter hp)
    rw [recorded, Bool.and_eq_right_iff_imp]
    exact walk.asksMembers q hq
  · refine climbEnd_eq_runTop (fun q _ => ?_) (List.mem_of_mem_filter hp)
    rfl

def spanNode (id : ℕ) (kind : Kind) (startByte endByte : ℕ) (children : List Node) : Node :=
  .node ⟨id, kind, startByte, endByte⟩ children

/-- The test `! a == b`: a comparison that a negation swallows. -/
def negatedComparison : SpanTree where
  root := spanNode 1 (.other 0) 0 14
    [spanNode 2 (.other 1) 0 2 [],
      spanNode 3 .unaryExpression 3 11
        [spanNode 4 (.other 2) 3 4 [],
          spanNode 5 .binaryExpression3 5 11
            [spanNode 6 (.other 3) 5 6 [], spanNode 7 .eqeq 7 9 [], spanNode 8 (.other 3) 10 11 []]]]
  ids := by decide
  nonempty := by decide
  nested := by decide
  disjoint := by decide

/-- The walk that asks everywhere. -/
def negatedWalk : RunWalk where
  tree := negatedComparison
  asked _ := true
  asksMembers _ _ _ := rfl

theorem RunWalk.ends_eq_climb_negated :
    walkEnds negatedComparison.root (fun _ => true) = [14, 2, 11, 11, 11, 11, 11, 11] ∧
      walkEnds negatedComparison.root (fun p => asksSequenceEnd p.node) = [11, 11] := by
  obtain ⟨hall, hasked⟩ := RunWalk.ends_eq_climb negatedWalk
  constructor
  · exact hall.trans (by decide)
  · exact hasked.trans (by decide)

end BigCodeAnalysis.Languages.Bash
