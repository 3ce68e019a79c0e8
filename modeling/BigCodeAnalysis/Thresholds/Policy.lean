import BigCodeAnalysis.Thresholds.Evaluate
import Mathlib.Data.List.DropRight

/-! The gate and the suppression policies on a whole tree. The loop over the stack is the
pre-order of the tree, and the three policies list the same breaches, less or flagged by what the
markers cover. -/

namespace BigCodeAnalysis.Spaces.FuncSpace

open scoped List

variable {R : Type*}

/-! ### Pre-order -/

mutual
/-- A space and the spaces in it, parents first, each with its ancestors from the root down. -/
def chains (ancestors : List (FuncSpace R)) :
    FuncSpace R → List (List (FuncSpace R) × FuncSpace R)
  | ⟨name, startLine, endLine, kind, spaces, metrics, suppressed⟩ =>
    (ancestors, ⟨name, startLine, endLine, kind, spaces, metrics, suppressed⟩) ::
      chainsOf (ancestors ++ [⟨name, startLine, endLine, kind, spaces, metrics, suppressed⟩]) spaces

def chainsOf (ancestors : List (FuncSpace R)) :
    List (FuncSpace R) → List (List (FuncSpace R) × FuncSpace R)
  | [] => []
  | space :: spaces => space.chains ancestors ++ chainsOf ancestors spaces
end

theorem chains_eq (ancestors : List (FuncSpace R)) (space : FuncSpace R) :
    space.chains ancestors =
      (ancestors, space) :: chainsOf (ancestors ++ [space]) space.spaces := by
  cases space
  rw [chains]

/-- Each space of a chain lies directly in the one before it. -/
def Descends (chain : List (FuncSpace R)) : Prop :=
  chain.IsChain fun parent child => child ∈ parent.spaces

theorem descends_concat {chain : List (FuncSpace R)} {parent child : FuncSpace R}
    (h : Descends (chain ++ [parent])) (hchild : child ∈ parent.spaces) :
    Descends (chain ++ [parent] ++ [child]) := by
  rw [List.append_assoc]
  exact List.isChain_append_cons_cons.mpr ⟨h, hchild, .singleton child⟩

mutual
theorem descends_of_mem_chains {ancestors : List (FuncSpace R)} :
    ∀ {space : FuncSpace R}, Descends (ancestors ++ [space]) →
      ∀ c ∈ space.chains ancestors, Descends (c.1 ++ [c.2]) ∧ ancestors ++ [space] <+: c.1 ++ [c.2]
  | ⟨name, startLine, endLine, kind, spaces, metrics, suppressed⟩, h, c, hc => by
    rw [chains_eq] at hc
    rcases List.mem_cons.mp hc with rfl | hc
    · exact ⟨h, List.prefix_rfl⟩
    · exact descends_of_mem_chainsOf (fun _ hchild => descends_concat h hchild) c hc

theorem descends_of_mem_chainsOf {ancestors : List (FuncSpace R)} :
    ∀ {spaces : List (FuncSpace R)}, (∀ child ∈ spaces, Descends (ancestors ++ [child])) →
      ∀ c ∈ chainsOf ancestors spaces, Descends (c.1 ++ [c.2]) ∧ ancestors <+: c.1 ++ [c.2]
  | [], _, c, hc => by simp only [chainsOf, List.not_mem_nil] at hc
  | space :: spaces, h, c, hc => by
    rw [chainsOf] at hc
    rcases List.mem_append.mp hc with hc | hc
    · have hspace := descends_of_mem_chains (h space (List.mem_cons_self ..)) c hc
      exact ⟨hspace.1, (List.prefix_append ..).trans hspace.2⟩
    · exact descends_of_mem_chainsOf (fun child hchild => h child (List.mem_cons_of_mem _ hchild))
        c hc
end

end BigCodeAnalysis.Spaces.FuncSpace

namespace BigCodeAnalysis.Thresholds

open Catalog Spaces

variable {R ρ : Type*}

/-! ### Symbols -/

/-- The names of a chain that a symbol shows: those below its last unit, from the first that is
not empty. -/
def segments (chain : List (FuncSpace R)) : List String :=
  ((chain.rtakeWhile (·.kind ≠ .unit)).map spaceSegment).dropWhile (· = "")

/-- The symbol of a space with these ancestors. -/
def symbolIn (ancestors : List (FuncSpace R)) (space : FuncSpace R) : String :=
  if space.kind = .unit then "<file>"
  else "::".intercalate (segments (ancestors ++ [space]))

theorem intercalate_dropWhile_concat (names : List String) (name : String) :
    "::".intercalate ((names ++ [name]).dropWhile (· = "")) =
      if "::".intercalate (names.dropWhile (· = "")) = "" then name
      else "::".intercalate (names.dropWhile (· = "")) ++ "::" ++ name := by
  rw [List.dropWhile_append]
  cases hnames : names.dropWhile (· = "") with
  | nil =>
    by_cases hname : name = ""
    · simp [hname]
    · simp [hname]
  | cons first rest =>
    have hfirst : first ≠ "" := by
      have h := List.head_dropWhile_not (· = "") (l := names) (by simp [hnames])
      simpa [hnames] using h
    have hne : "::".intercalate (first :: rest) ≠ "" := by
      cases rest with
      | nil => simpa using hfirst
      | cons second rest => simp
    rw [if_neg hne, if_neg (by simp)]
    exact String.intercalate_append_of_ne_nil (by simp) (by simp)

/-- What the loop pushes with the children of a chain's last space. -/
theorem qualifiedSymbol_eq (ancestors : List (FuncSpace R)) (space : FuncSpace R) :
    qualifiedSymbol space ("::".intercalate (segments ancestors)) = symbolIn ancestors space := by
  unfold qualifiedSymbol symbolIn
  by_cases hunit : space.kind = .unit
  · rw [if_pos hunit, if_pos hunit]
  · have hkeep : (ancestors ++ [space]).rtakeWhile (·.kind ≠ .unit) =
        ancestors.rtakeWhile (·.kind ≠ .unit) ++ [space] :=
      List.rtakeWhile_concat_pos _ _ _ (by simpa using hunit)
    rw [if_neg hunit, if_neg hunit, segments, segments, hkeep, List.map_append, List.map_singleton,
      intercalate_dropWhile_concat]

theorem childPrefix_eq (ancestors : List (FuncSpace R)) (space : FuncSpace R) :
    (if space.kind = .unit then "" else symbolIn ancestors space) =
      "::".intercalate (segments (ancestors ++ [space])) := by
  by_cases hunit : space.kind = .unit
  · have hdrop : (ancestors ++ [space]).rtakeWhile (·.kind ≠ .unit) = [] :=
      List.rtakeWhile_concat_neg _ _ _ (by simpa using hunit)
    rw [if_pos hunit, segments, hdrop]
    simp
  · rw [if_neg hunit, symbolIn, if_neg hunit]

/-! ### The loop over the stack -/

/-- A chain as the loop sees it. -/
def visitOf (c : List (FuncSpace R) × FuncSpace R) : FuncSpace R × String :=
  (c.2, symbolIn c.1 c.2)

/-- The stack frame of a space with these ancestors. -/
def frameOf (ancestors : List (FuncSpace R)) (space : FuncSpace R) : FuncSpace R × String :=
  (space, "::".intercalate (segments ancestors))

theorem childFrames_eq (ancestors : List (FuncSpace R)) (space : FuncSpace R) :
    childFrames space (symbolIn ancestors space) =
      space.spaces.map (frameOf (ancestors ++ [space])) := by
  rw [childFrames, childPrefix_eq]
  rfl

namespace ThresholdSet

mutual
/-- A frame is popped, then everything in its space, then the rest of the stack. -/
theorem visits_chains (ancestors : List (FuncSpace R)) :
    ∀ (space : FuncSpace R) (stack : List (FuncSpace R × String)),
      visits (frameOf ancestors space :: stack) =
        (space.chains ancestors).map visitOf ++ visits stack
  | ⟨name, startLine, endLine, kind, spaces, metrics, suppressed⟩, stack => by
    rw [frameOf, visits, qualifiedSymbol_eq, childFrames_eq, FuncSpace.chains_eq, List.map_cons,
      List.cons_append, visits_chainsOf]
    rfl

theorem visits_chainsOf (ancestors : List (FuncSpace R)) :
    ∀ (spaces : List (FuncSpace R)) (stack : List (FuncSpace R × String)),
      visits (spaces.map (frameOf ancestors) ++ stack) =
        (FuncSpace.chainsOf ancestors spaces).map visitOf ++ visits stack
  | [], stack => by simp only [FuncSpace.chainsOf, List.map_nil, List.nil_append]
  | space :: spaces, stack => by
    rw [FuncSpace.chainsOf, List.map_cons, List.cons_append, visits_chains, visits_chainsOf,
      List.map_append, List.append_assoc]
end

/-- The loop visits the spaces in pre-order. -/
theorem visits_root (space : FuncSpace R) :
    visits [(space, "")] = (space.chains []).map visitOf := by
  have h := visits_chains [] space []
  rw [visits, List.append_nil] at h
  exact h

end ThresholdSet

/-! ### One pair -/

namespace ResolvedThreshold
variable (entry : ResolvedThreshold) (reading : Reading R)

/-- The entry gates the space, has something to measure there, and finds it past the limit. -/
def reports (space : FuncSpace R) : Bool :=
  entry.threshold.info.scope.admits space.kind &&
    !(entry.extractor.metric = .mi && reading.miIsEmpty space.metrics) &&
    entry.threshold.breaches (reading.extract entry.extractor.name space.metrics)

/-- A marker of the file or of the space names the metric. -/
def covered (fileScope : SuppressionScope) (space : FuncSpace R) : Bool :=
  (thresholdMetricForName entry.extractor.name).any fun kind =>
    fileScope.covers kind || space.suppressed.covers kind

/-- The record of a breach. -/
def finding (space : FuncSpace R) (symbol : String) (path : ρ) (suppressed : Bool) :
    Violation ρ where
  path
  startLine := space.startLine
  endLine := space.endLine
  function := symbol
  value := reading.extract entry.extractor.name space.metrics
  threshold := entry.threshold
  nargsSplit := nargsSplitFor reading entry.extractor.name space
  hardBreach := entry.hardLimit.any fun hard =>
    hard.breaches (reading.extract entry.extractor.name space.metrics)
  suppressed

theorem violationFor_eq (space : FuncSpace R) (symbol : String) (path : ρ)
    (ctx : SuppressionContext) :
    entry.violationFor reading space symbol path ctx =
      if entry.reports reading space &&
          !(ctx.honor && entry.covered ctx.fileScope space && !ctx.reportSuppressed) then
        some (entry.finding reading space symbol path
          (ctx.honor && entry.covered ctx.fileScope space))
      else none := by
  unfold violationFor reports
  by_cases hscope : entry.threshold.info.scope.admits space.kind
  · by_cases hempty : (entry.extractor.metric = .mi && reading.miIsEmpty space.metrics) = true
    · rw [hempty]
      simp
    · by_cases hbreach :
          entry.threshold.breaches (reading.extract entry.extractor.name space.metrics)
      · have hcovered : ctx.suppresses entry.extractor.name space =
            (ctx.honor && entry.covered ctx.fileScope space) := rfl
        rw [Bool.eq_false_iff.mpr hempty, hcovered]
        by_cases hdrop :
            (ctx.honor && entry.covered ctx.fileScope space && !ctx.reportSuppressed) = true
        · simp [hscope, hbreach, hdrop]
        · simp [hscope, hbreach, hdrop, finding]
      · simp [hbreach]
  · simp [hscope]

end ResolvedThreshold

/-! ### Policies -/

/-- A space with its ancestors, and an entry of the set. -/
abbrev Pair (R : Type*) := (List (FuncSpace R) × FuncSpace R) × ResolvedThreshold

namespace Pair
variable (reading : Reading R)

def reports (pair : Pair R) : Bool := pair.2.reports reading pair.1.2

def covered (fileScope : SuppressionScope) (pair : Pair R) : Bool :=
  pair.2.covered fileScope pair.1.2

def finding (path : ρ) (suppressed : Bool) (pair : Pair R) : Violation ρ :=
  pair.2.finding reading pair.1.2 (symbolIn pair.1.1 pair.1.2) path suppressed

end Pair

namespace ThresholdSet
variable (set : ThresholdSet) (reading : Reading R) (path : ρ) (space : FuncSpace R)

/-- Every space in pre-order, with every entry in the order of the set. -/
def pairs : List (Pair R) :=
  (space.chains []).flatMap fun c => set.entries.map fun entry => (c, entry)

theorem evaluateWithPolicy_eq (policy : SuppressionPolicy) (reportSuppressed : Bool) :
    set.evaluateWithPolicy reading path space policy reportSuppressed =
      ((set.pairs space).filter fun pair => pair.reports reading &&
          !(policy = .honor && pair.covered space.suppressed && !reportSuppressed)).map
        fun pair =>
          pair.finding reading path (policy = .honor && pair.covered space.suppressed) := by
  rw [evaluateWithPolicy, evaluateLoop_eq, visits_root, List.flatMap_map, ← List.filterMap_eq_map',
    List.filterMap_filter, pairs, List.filterMap_flatMap]
  congr 1
  funext c
  rw [List.filterMap_map]
  congr 1
  funext entry
  rw [ResolvedThreshold.violationFor_eq]
  rfl

/-- Each space is visited once, in pre-order. Without markers a file has a violation for each
pair that reports; markers drop the covered pairs from that list, or flag them. The symbol of a
violation is made from the space and its ancestors. -/
theorem evaluate_by_policy :
    visits [(space, "")] = (space.chains []).map (fun c => (c.2, symbolIn c.1 c.2)) ∧
    (∀ c ∈ space.chains [], (c.1 ++ [c.2]).head? = some space ∧
      FuncSpace.Descends (c.1 ++ [c.2])) ∧
    (∀ report, set.evaluateWithPolicy reading path space .ignore report =
      ((set.pairs space).filter fun pair => pair.reports reading).map
        fun pair => pair.finding reading path false) ∧
    set.evaluateWithPolicy reading path space .honor false =
      ((set.pairs space).filter fun pair =>
          pair.reports reading && !pair.covered space.suppressed).map
        (fun pair => pair.finding reading path false) ∧
    set.evaluateWithPolicy reading path space .honor true =
      ((set.pairs space).filter fun pair => pair.reports reading).map
        fun pair => pair.finding reading path (pair.covered space.suppressed) := by
  refine ⟨visits_root space, ?_, ?_, ?_, ?_⟩
  · intro c hc
    have hroot : FuncSpace.Descends ([] ++ [space]) := .singleton space
    obtain ⟨hdescends, hstart⟩ := FuncSpace.descends_of_mem_chains hroot c hc
    obtain ⟨rest, hrest⟩ := hstart
    rw [← hrest]
    exact ⟨rfl, hrest ▸ hdescends⟩
  · intro report
    rw [evaluateWithPolicy_eq]
    simp
  · rw [evaluateWithPolicy_eq]
    simp only [decide_true, Bool.true_and, Bool.not_false, Bool.and_true]
    apply List.map_congr_left
    intro pair hpair
    have hkept := (List.mem_filter.mp hpair).2
    simp only [Bool.and_eq_true, Bool.not_eq_true'] at hkept
    rw [hkept.2]
  · rw [evaluateWithPolicy_eq]
    simp

end ThresholdSet

/-! ### A file the plainest reading gets wrong -/

def gate (info : MetricInfo) (limit : ℚ) (metric : Metric) (known : lookup info.id = some info)
    (positive : info.scale = .ratio → 0 ≤ limit)
    (extractor : lookupExtractor info.id = some ⟨info.id, metric⟩) : ResolvedThreshold where
  extractor := ⟨info.id, metric⟩
  threshold := ⟨info, limit, known, positive⟩
  hardLimit := none
  known := extractor
  named := rfl
  hardNamed := fun _ h => by cases h
  tighter := fun _ h => by cases h

def miAndTokens : ThresholdSet where
  entries :=
    [gate ⟨"mi.original", "mi", .lowerIsWorse, .function, miUnbounded⟩ 50 .mi (by decide +kernel)
      (fun h => by cases h) (by decide),
    gate ⟨"tokens", "tokens", .higherIsWorse, .function, .ratio⟩ 10 .tokens (by decide)
      (fun _ => by norm_num) (by decide)]
  sorted := by decide

/-- No code was measured, and twenty tokens were counted. -/
def emptyReading : Reading Unit where
  extract name _ := if name = "tokens" then .finite 20 else .finite 0
  miIsEmpty _ := true
  functionArgs _ := 0
  closureArgs _ := 0

def bareSpace (name : String) (kind : SpaceKind) (spaces : List (FuncSpace Unit)) :
    FuncSpace Unit where
  name := some name
  startLine := 1
  endLine := 3
  kind
  spaces
  metrics := ⟨⟨0, 0, 0, 0⟩, ()⟩
  suppressed := .all

/-- A file that silences everything, with a unit inside a function. -/
def nestedUnit : FuncSpace Unit :=
  bareSpace "a.rs" .unit
    [bareSpace "f" .function [bareSpace "inner" .unit [bareSpace "g" .function []]]]

/-- A breach of an empty space's maintainability is not listed, no marker covers `tokens`, and a
unit inside a function restarts the symbol. -/
theorem policy_exceptions :
    (miAndTokens.evaluateWithPolicy emptyReading () nestedUnit .ignore false).length ≠
      ((miAndTokens.pairs nestedUnit).filter fun pair =>
        pair.2.threshold.info.scope.admits pair.1.2.kind && pair.2.threshold.breaches
          (emptyReading.extract pair.2.extractor.name pair.1.2.metrics)).length ∧
    (miAndTokens.evaluateWithPolicy emptyReading () nestedUnit .honor false).length ≠
      ((miAndTokens.pairs nestedUnit).filter fun pair => pair.reports emptyReading &&
        !(nestedUnit.suppressed.covers pair.2.extractor.metric ||
          pair.1.2.suppressed.covers pair.2.extractor.metric)).length ∧
    ((miAndTokens.evaluateWithPolicy emptyReading () nestedUnit .ignore false).map
        Violation.function) ≠
      ((miAndTokens.pairs nestedUnit).filter fun pair => pair.reports emptyReading).map
        fun pair => "::".intercalate
          (((pair.1.1 ++ [pair.1.2]).filter (·.kind ≠ .unit)).map spaceSegment) := by
  rw [ThresholdSet.evaluateWithPolicy_eq, ThresholdSet.evaluateWithPolicy_eq]
  decide +kernel

end BigCodeAnalysis.Thresholds
