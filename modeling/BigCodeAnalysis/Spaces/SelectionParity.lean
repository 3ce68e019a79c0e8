import BigCodeAnalysis.Spaces.Selection
import Mathlib.Data.List.Forall2

/-! Two walks of one tree under different selections. What a closed set kept by both says of
a space does not depend on what else is selected: the frames agree after every pop, so the
finished trees do. -/

namespace BigCodeAnalysis.Spaces

open Trees Trees.StackWalk
open Metrics.Halstead (HalsteadMaps)

variable {T : Metric → Type}

/-! ### What a selection shows of a space -/

/-- The type of a metric's field in the metrics of a space. -/
def Field (T : Metric → Type) : Metric → Type
  | .halstead => Metrics.Halstead.Stats
  | metric => T metric

def CodeMetrics.field (metrics : CodeMetrics (Stats T)) : (metric : Metric) → Field T metric
  | .cognitive => metrics.rest .cognitive
  | .cyclomatic => metrics.rest .cyclomatic
  | .halstead => metrics.halstead
  | .loc => metrics.rest .loc
  | .nom => metrics.rest .nom
  | .tokens => metrics.rest .tokens
  | .nargs => metrics.rest .nargs
  | .nexits => metrics.rest .nexits
  | .abc => metrics.rest .abc
  | .npm => metrics.rest .npm
  | .npa => metrics.rest .npa
  | .mi => metrics.rest .mi
  | .wmc => metrics.rest .wmc

/-- A space with the metrics of `shown` and no others. -/
structure ShownSpace (T : Metric → Type) (shown : Finset Metric) where
  label : SpaceLabel
  suppressed : SuppressionScope
  fields : ∀ metric : shown, Field T metric

namespace FuncSpace

mutual
/-- What `shown` shows of a space and the spaces in it. -/
def view (shown : Finset Metric) : FuncSpace (Stats T) → Rose (ShownSpace T shown)
  | ⟨name, startLine, endLine, kind, spaces, metrics, suppressed⟩ =>
    .node ⟨⟨name, kind, startLine, endLine⟩, suppressed, fun metric => metrics.field metric⟩
      (views shown spaces)

def views (shown : Finset Metric) : List (FuncSpace (Stats T)) → List (Rose (ShownSpace T shown))
  | [] => []
  | space :: spaces => view shown space :: views shown spaces
end

theorem view_eq (shown : Finset Metric) (space : FuncSpace (Stats T)) :
    space.view shown =
      .node ⟨space.label, space.suppressed, fun metric => space.metrics.field metric⟩
        (views shown space.spaces) := by
  cases space
  simp only [view, label]

theorem views_append (shown : Finset Metric) (xs ys : List (FuncSpace (Stats T))) :
    views shown (xs ++ ys) = views shown xs ++ views shown ys := by
  induction xs with
  | nil => rfl
  | cons x xs ih => simp only [List.cons_append, views, ih]

/-- Two spaces that show the same have the same label, scope, fields and spaces. -/
theorem view_eq_iff {shown : Finset Metric} {a b : FuncSpace (Stats T)} :
    a.view shown = b.view shown ↔
      a.label = b.label ∧ a.suppressed = b.suppressed ∧
        (∀ metric ∈ shown, a.metrics.field metric = b.metrics.field metric) ∧
        views shown a.spaces = views shown b.spaces := by
  rw [view_eq, view_eq, Rose.node.injEq, ShownSpace.mk.injEq, funext_iff, Subtype.forall]
  tauto

end FuncSpace

/-! ### Frames -/

/-- Two frames that agree on `keep`, over spaces that show the same of `shown`. -/
structure StatesAgree (keep shown : Finset Metric) (s t : State (Stats T)) : Prop where
  label : s.space.label = t.space.label
  suppressed : s.space.suppressed = t.space.suppressed
  spaces : FuncSpace.views shown s.space.spaces = FuncSpace.views shown t.space.spaces
  rest : AgreeOn keep s.space.metrics.rest t.space.metrics.rest
  halstead : .halstead ∈ keep → s.space.metrics.halstead = t.space.metrics.halstead
  maps : .halstead ∈ keep → s.halsteadMaps = t.halsteadMaps

namespace StatesAgree
variable {keep shown : Finset Metric} {s t : State (Stats T)}

theorem kind (h : StatesAgree keep shown s t) : s.space.kind = t.space.kind :=
  congrArg SpaceLabel.kind h.label

theorem field (h : StatesAgree keep shown s t) :
    ∀ metric ∈ keep, s.space.metrics.field metric = t.space.metrics.field metric := by
  intro metric hm
  cases metric with
  | halstead => exact h.halstead hm
  | _ => exact h.rest _ hm

theorem view (h : StatesAgree keep shown s t) (hshown : shown ⊆ keep) :
    s.space.view shown = t.space.view shown :=
  FuncSpace.view_eq_iff.mpr
    ⟨h.label, h.suppressed, fun metric hm => h.field metric (hshown hm), h.spaces⟩

theorem suppress (scope : SuppressionScope) (h : StatesAgree keep shown s t) :
    StatesAgree keep shown (s.suppress scope) (t.suppress scope) :=
  { h with suppressed := congrArg (·.merge scope) h.suppressed }

/-- The caller's name replaces the one of either frame. -/
theorem rename (name : Option String) (h : StatesAgree keep shown s t) :
    StatesAgree keep shown { s with space := { s.space with name := name } }
      { t with space := { t.space with name := name } } := by
  have hlabel := h.label
  simp only [FuncSpace.label, SpaceLabel.mk.injEq] at hlabel
  obtain ⟨-, hkind, hstart, hend⟩ := hlabel
  have hrenamed : (⟨name, s.space.kind, s.space.startLine, s.space.endLine⟩ : SpaceLabel) =
      ⟨name, t.space.kind, t.space.startLine, t.space.endLine⟩ := by
    rw [hkind, hstart, hend]
  exact { h with label := hrenamed }

end StatesAgree

/-! ### The walk -/

/-- Two states of the walk between pops. The nesting map serves `cognitive` alone. -/
structure SelectionsAgree (keep shown : Finset Metric) (s t : WalkState (Stats T)) : Prop where
  chain : s.chain = t.chain
  lastLevel : s.lastLevel = t.lastLevel
  runVerdict : s.runVerdict = t.runVerdict
  stack : List.Forall₂ (StatesAgree keep shown) s.stateStack t.stateStack
  nesting : .cognitive ∈ keep → s.nestingMap = t.nestingMap

section Suppression
variable {keep shown : Finset Metric} {ss ts : List (State (Stats T))}

theorem updateFirst_related (kind : SpaceKind) (scope : SuppressionScope)
    (h : List.Forall₂ (StatesAgree keep shown) ss ts) :
    List.Forall₂ (StatesAgree keep shown)
      (updateFirst (fun s => s.space.kind = kind) (State.suppress scope) ss)
      (updateFirst (fun s => s.space.kind = kind) (State.suppress scope) ts) := by
  induction h with
  | nil => exact .nil
  | cons hst hrest ih =>
    simp only [updateFirst, hst.kind]
    split_ifs
    · exact .cons (hst.suppress scope) hrest
    · exact .cons hst ih

theorem applyCommentSuppression_related (lang : Language) (node : Node)
    (h : List.Forall₂ (StatesAgree keep shown) ss ts) :
    List.Forall₂ (StatesAgree keep shown) (applyCommentSuppression lang ss node)
      (applyCommentSuppression lang ts node) := by
  unfold applyCommentSuppression applySuppression
  cases lang.suppressionOf node with
  | none => exact h
  | some suppression =>
    cases hkind : suppression.kind with
    | function =>
      simp only [hkind]
      exact updateFirst_related _ _ h
    | file =>
      simp only [hkind]
      exact List.rel_reverse (updateFirst_related _ _ (List.rel_reverse h))

end Suppression

section Walk
variable {hooks : Hooks T} {lang : Language} {o₁ o₂ : MetricsOptions}
  {keep shown : Finset Metric}
variable (h₁ : keep ⊆ o₁.selected) (h₂ : keep ⊆ o₂.selected)
include h₁ h₂

theorem new_related (ancestors : Ancestors) (node : Node) (kind : SpaceKind) :
    StatesAgree keep shown (State.new lang (hooks.suite o₁.selected) ancestors node kind)
      (State.new lang (hooks.suite o₂.selected) ancestors node kind) where
  label := rfl
  suppressed := rfl
  spaces := rfl
  rest := withSelected_agree h₁ h₂
  halstead _ := rfl
  maps _ := rfl

theorem openedState_related (ancestors : Ancestors) (node : Node) :
    StatesAgree keep shown (openedState lang (hooks.suite o₁.selected) o₁ ancestors node)
      (openedState lang (hooks.suite o₂.selected) o₂ ancestors node) := by
  have hnew := @new_related _ hooks lang _ _ _ shown h₁ h₂ ancestors node
    (lang.getSpaceKindWithCode ancestors node)
  unfold openedState
  by_cases hwmc : .wmc ∈ keep
  · simp only [h₁ hwmc, h₂ hwmc, true_and]
    split_ifs
    · exact { hnew with rest := hnew.rest.update fun hm => congrArg _ (hnew.rest _ hm) }
    · exact hnew
  · -- Outside `keep` the mark may be set on one side only, and nothing kept reads it.
    split_ifs
    · exact { hnew with rest := hnew.rest.update fun hm => absurd hm hwmc }
    · exact { hnew with rest := hnew.rest.update_left hwmc }
    · exact { hnew with rest := hnew.rest.update_right hwmc }
    · exact hnew

section Finalise
variable (hclosed : DependencyClosed keep) {s t parent parent' : State (Stats T)}
include hclosed

theorem finalizeState_related (h : StatesAgree keep shown s t) :
    StatesAgree keep shown (finalizeState (hooks.suite o₁.selected) o₁ s)
      (finalizeState (hooks.suite o₂.selected) o₂ t) := by
  have hlabel := h.label
  simp only [FuncSpace.label, SpaceLabel.mk.injEq] at hlabel
  obtain ⟨-, hkind, hstart, hend⟩ := hlabel
  have hcounts : .halstead ∈ keep →
      (if .halstead ∈ o₁.selected then s.halsteadMaps.finalize else s.space.metrics.halstead) =
        if .halstead ∈ o₂.selected then t.halsteadMaps.finalize
        else t.space.metrics.halstead := by
    intro hm
    rw [if_pos (h₁ hm), if_pos (h₂ hm), h.maps hm]
  refine ⟨h.label, h.suppressed, h.spaces, ?_, hcounts, h.maps⟩
  simp only [finalizeState, hkind, hstart, hend]
  have hsettle := @settle_agree _ hooks _ _ _ _ _ h₁ h₂ t.space.kind
    (t.space.startLine, t.space.endLine) h.rest
  exact derive_agree h₁ h₂ hclosed _ hsettle hcounts

theorem absorb_related (hshown : shown ⊆ keep) (hp : StatesAgree keep shown parent parent')
    (hc : StatesAgree keep shown s t) :
    StatesAgree keep shown (absorb (hooks.suite o₁.selected) parent s)
      (absorb (hooks.suite o₂.selected) parent' t) := by
  refine ⟨hp.label, hp.suppressed, ?_, ?_, hp.halstead, ?_⟩
  · simp only [absorb, FuncSpace.views_append, FuncSpace.views, hp.spaces, hc.view hshown]
  · simp only [absorb, hp.kind]
    exact merge_agree (wmc_agree h₁ h₂ hclosed _ hp.rest) hc.rest
  · intro hm
    simp only [absorb, hp.maps hm, hc.maps hm]

theorem finalize_related (hshown : shown ⊆ keep) (n : ℕ) {ss ts : List (State (Stats T))}
    (h : List.Forall₂ (StatesAgree keep shown) ss ts) :
    List.Forall₂ (StatesAgree keep shown) (finalize (hooks.suite o₁.selected) o₁ n ss)
      (finalize (hooks.suite o₂.selected) o₂ n ts) := by
  induction n generalizing ss ts with
  | zero => simpa only [finalize] using h
  | succ n ih =>
    cases h with
    | nil => exact .nil
    | cons hst hrest =>
      cases hrest with
      | nil => exact .cons (finalizeState_related h₁ h₂ hclosed hst) .nil
      | cons hparent hrest =>
        have hchild := @finalizeState_related _ hooks _ _ _ _ h₁ h₂ hclosed _ _ hst
        exact ih (.cons (absorb_related h₁ h₂ hclosed hshown hparent hchild) hrest)

end Finalise

/-! ### One pop -/

theorem computePerNode_related (facts : NodeFacts) (ancestors : Ancestors) (node : Node)
    {s t : State (Stats T)} {m n : NestingMap} (h : StatesAgree keep shown s t)
    (hmap : .cognitive ∈ keep → m = n) :
    StatesAgree keep shown
        (computePerNode (hooks.suite o₁.selected) o₁ facts ancestors node s m).1
        (computePerNode (hooks.suite o₂.selected) o₂ facts ancestors node t n).1 ∧
      (.cognitive ∈ keep →
        (computePerNode (hooks.suite o₁.selected) o₁ facts ancestors node s m).2 =
          (computePerNode (hooks.suite o₂.selected) o₂ facts ancestors node t n).2) := by
  obtain ⟨hcognitive, hnesting⟩ :=
    @computeCognitive_agree _ hooks _ _ _ _ _ h₁ h₂ ancestors node _ _ h.rest hmap
  have hrest := @computeRest_agree _ hooks _ _ _ _ _ h₁ h₂ ancestors node facts hcognitive
  refine ⟨⟨h.label, h.suppressed, h.spaces, hrest, h.halstead, ?_⟩, hnesting⟩
  intro hm
  simp only [computePerNode, if_pos (h₁ hm), if_pos (h₂ hm), h.maps hm]
  rfl

theorem pruneNode_related (node : Node) {ss ts : List (State (Stats T))} {m n : NestingMap}
    (h : List.Forall₂ (StatesAgree keep shown) ss ts) (hmap : .cognitive ∈ keep → m = n) :
    List.Forall₂ (StatesAgree keep shown)
        (pruneNode (hooks.suite o₁.selected) o₁ ss node m).1
        (pruneNode (hooks.suite o₂.selected) o₂ ts node n).1 ∧
      (.cognitive ∈ keep →
        (pruneNode (hooks.suite o₁.selected) o₁ ss node m).2 =
          (pruneNode (hooks.suite o₂.selected) o₂ ts node n).2) := by
  constructor
  · cases h with
    | nil => simp [pruneNode]
    | cons hst hrest =>
      simp only [pruneNode, List.modifyHead_cons]
      by_cases hloc : .loc ∈ keep
      · rw [if_pos (h₁ hloc), if_pos (h₂ hloc)]
        exact .cons { hst with rest := hst.rest.update fun hm => congrArg _ (hst.rest _ hm) } hrest
      · split_ifs
        · exact .cons { hst with rest := hst.rest.update fun hm => absurd hm hloc } hrest
        · exact .cons { hst with rest := hst.rest.update_left hloc } hrest
        · exact .cons { hst with rest := hst.rest.update_right hloc } hrest
        · exact .cons hst hrest
  · intro hm
    simp only [pruneNode, if_pos (h₁ hm), if_pos (h₂ hm), hmap hm]

variable (hclosed : DependencyClosed keep) (hshown : shown ⊆ keep)
include hclosed hshown

theorem closeDeeper_related (level : ℕ) {s t : WalkState (Stats T)}
    (h : SelectionsAgree keep shown s t) :
    SelectionsAgree keep shown (closeDeeper (hooks.suite o₁.selected) o₁ level s)
      (closeDeeper (hooks.suite o₂.selected) o₂ level t) := by
  unfold closeDeeper
  rw [h.lastLevel]
  split_ifs
  · exact ⟨h.chain, rfl, h.runVerdict, finalize_related h₁ h₂ hclosed hshown _ h.stack, h.nesting⟩
  · exact h

omit hclosed hshown in
theorem openNode_related (node : Node) (level : ℕ) {s t : WalkState (Stats T)}
    (h : SelectionsAgree keep shown s t) :
    List.Forall₂ (StatesAgree keep shown)
        (openNode lang (hooks.suite o₁.selected) o₁ s node level).1
        (openNode lang (hooks.suite o₂.selected) o₂ t node level).1 ∧
      (openNode lang (hooks.suite o₁.selected) o₁ s node level).2 =
        (openNode lang (hooks.suite o₂.selected) o₂ t node level).2 := by
  unfold openNode openFuncSpace
  rw [h.chain, h.lastLevel]
  split_ifs
  · exact ⟨.cons (openedState_related h₁ h₂ _ _) h.stack, rfl⟩
  · exact ⟨h.stack, rfl⟩

omit hclosed hshown in
theorem visitNode_related (hexclude : o₁.excludeTests = o₂.excludeTests) (node : Node)
    (walk : Walk) {s t : WalkState (Stats T)} (h : SelectionsAgree keep shown s t) :
    SelectionsAgree keep shown
        (visitNode lang (hooks.suite o₁.selected) o₁ s node walk).1
        (visitNode lang (hooks.suite o₂.selected) o₂ t node walk).1 ∧
      Option.Rel Eq (visitNode lang (hooks.suite o₁.selected) o₁ s node walk).2
        (visitNode lang (hooks.suite o₂.selected) o₂ t node walk).2 := by
  have hopened := @openNode_related _ hooks lang _ _ _ _ h₁ h₂ node walk.level _ _ h
  obtain ⟨chain, lastLevel, ss, runVerdict, m⟩ := s
  obtain ⟨chain', lastLevel', ts, runVerdict', n⟩ := t
  obtain ⟨hchain, hlast, hverdict, hstack, hnesting⟩ := h
  dsimp only at hchain hlast hverdict hstack hnesting
  subst hchain hlast hverdict
  have hskip : skipVerdict lang o₁ chain node runVerdict =
      skipVerdict lang o₂ chain node runVerdict := by
    rw [skipVerdict, skipVerdict, hexclude]
  unfold visitNode
  dsimp only
  rw [hskip]
  rcases skipVerdict lang o₂ chain node runVerdict with ⟨_ | _, verdict⟩
  · simp only [Bool.false_eq_true, if_false]
    rcases hl : openNode lang (hooks.suite o₁.selected) o₁ _ node walk.level with ⟨ss', levels⟩
    rcases hr : openNode lang (hooks.suite o₂.selected) o₂ _ node walk.level with ⟨ts', levels'⟩
    rw [hl, hr] at hopened
    obtain ⟨hframes, hlevels⟩ := hopened
    dsimp only at hframes hlevels
    subst hlevels
    have hmarked := applyCommentSuppression_related lang node hframes
    have hseeded {m n : NestingMap} (hmap : .cognitive ∈ keep → m = n) :
        .cognitive ∈ keep →
          (if .cognitive ∈ o₁.selected then propagateNestingToChildren node m else m) =
            if .cognitive ∈ o₂.selected then propagateNestingToChildren node n else n := by
      intro hm
      rw [if_pos (h₁ hm), if_pos (h₂ hm), hmap hm]
    generalize applyCommentSuppression lang ss' node = fs at hmarked ⊢
    generalize applyCommentSuppression lang ts' node = gs at hmarked ⊢
    refine ⟨?_, .some rfl⟩
    cases hmarked with
    | nil => exact ⟨rfl, rfl, rfl, .nil, hseeded hnesting⟩
    | cons hframe hrest =>
      obtain ⟨hcomputed, hmap⟩ := @computePerNode_related _ hooks _ _ _ _ h₁ h₂
        ⟨lang.promotesToFuncSpaceWithCode chain node, walk.inComment || lang.isComment node⟩
        chain node _ _ _ _ hframe hnesting
      exact ⟨rfl, rfl, rfl, .cons hcomputed hrest, hseeded hmap⟩
  · obtain ⟨hpruned, hmap⟩ :=
      @pruneNode_related _ hooks _ _ _ _ h₁ h₂ node _ _ _ _ hstack hnesting
    exact ⟨⟨rfl, rfl, rfl, hpruned, hmap⟩, .none⟩

theorem visits_related (hexclude : o₁.excludeTests = o₂.excludeTests) :
    VisitsRelated (SelectionsAgree keep shown) Eq
      (metricsVisit lang (hooks.suite o₁.selected) o₁)
      (metricsVisit lang (hooks.suite o₂.selected) o₂) := by
  rintro s t node walk _ h rfl
  have htake : SelectionsAgree keep shown { s with chain := s.chain.take walk.depth }
      { t with chain := t.chain.take walk.depth } :=
    { h with chain := congrArg (List.take walk.depth) h.chain }
  have hclose := @closeDeeper_related _ hooks _ _ _ _ h₁ h₂ hclosed hshown walk.level _ _ htake
  exact visitNode_related h₁ h₂ hexclude node walk hclose

/-- Two selections that hold a closed set give trees that show the same of it. -/
theorem metricsInner_related (hexclude : o₁.excludeTests = o₂.excludeTests)
    (name : Option String) (root : Node) :
    (metricsInner lang (hooks.suite o₁.selected) o₁ name root).map (FuncSpace.view shown) =
      (metricsInner lang (hooks.suite o₂.selected) o₂ name root).map (FuncSpace.view shown) := by
  have hinitial : SelectionsAgree keep shown
      (WalkState.initial lang (hooks.suite o₁.selected) root)
      (WalkState.initial lang (hooks.suite o₂.selected) root) := by
    refine ⟨rfl, rfl, rfl, ?_, fun _ => rfl⟩
    unfold WalkState.initial pushSyntheticUnitRoot
    split_ifs
    · exact .cons (new_related h₁ h₂ [] root .unit) .nil
    · exact .nil
  have hvisits := @visits_related _ hooks lang _ _ _ _ h₁ h₂ hclosed hshown hexclude
  have hrun := @run_related _ _ _ _ _ .leftmostOnTop _ _ _ _ hvisits root _ _ _ _ hinitial
    (rfl : Walk.root = Walk.root)
  have hfinal := @finalize_related _ hooks _ _ _ _ h₁ h₂ hclosed hshown
    (run .leftmostOnTop (metricsVisit lang (hooks.suite o₂.selected) o₂) root .root
      (WalkState.initial lang (hooks.suite o₂.selected) root)).stateStack.length _ _ hrun.stack
  unfold metricsInner
  dsimp only
  rw [hrun.stack.length_eq]
  generalize finalize (hooks.suite o₁.selected) o₁ _ _ = ss at hfinal ⊢
  generalize finalize (hooks.suite o₂.selected) o₂ _ _ = ts at hfinal ⊢
  cases hfinal with
  | nil => rfl
  | cons hframe _ => exact congrArg Except.ok ((hframe.rename name).view hshown)

end Walk

end BigCodeAnalysis.Spaces
