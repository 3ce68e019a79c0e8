import BigCodeAnalysis.Languages.Python.Documentation
import BigCodeAnalysis.Spaces.FoldCacheExact

/-! Two counts that a walk folds down a node's ancestry into one byte each: the lambdas below the
nearest statement, and the parentheses between a node and a bare string. The first saturates at
255, where the climb answers; the second one past the longest climb that counts. -/

namespace BigCodeAnalysis.Languages.Python

open Spaces Trees

/-! ### What the folds ask of a node -/

namespace Kind

def lambda2 : Kind := .other 197 true

def assertStatement : Kind := .other 121 true

def ifStatement : Kind := .other 131 true

def elifClause : Kind := .other 132 true

def elseClause : Kind := .other 133 true

def forStatement : Kind := .other 137 true

def whileStatement : Kind := .other 138 true

end Kind

def pythonIsLambda (node : Node) : Bool := node.kind = .lambda || node.kind = .lambda2

def isStatementBoundary (node : Node) : Bool :=
  node.kind ∈ [Kind.expressionList, .ifStatement, .forStatement, .whileStatement]

/-- The ancestors `up` come nearest first. -/
def soleStatementOfElseBlock : List Node → Bool
  | [] => false
  | parent :: above =>
    pythonIsBlock parent && above.head?.any (fun owner : Node => owner.kind = .elseClause) &&
      ((parent.children.filter Node.isNamed)[1]?).isNone

/-- A branch that the row of `elif`s owns as well. -/
def isElseIf (node : Node) (up : List Node) : Bool :=
  (node.kind = .ifStatement || node.kind = .assertStatement) &&
    (node.kind = .elifClause || (node.kind = .ifStatement && soleStatementOfElseBlock up))

def isParenthesized (node : Node) : Bool := node.kind = .parenthesizedExpression

/-! ### The folds -/

def saturatingAdd (a b : UInt8) : UInt8 := UInt8.ofNat (min (a.toNat + b.toNat) 255)

def lambdaDepthStep (lambdas : UInt8) (ancestor : Node) : UInt8 :=
  if isStatementBoundary ancestor then 0
  else if pythonIsLambda ancestor then saturatingAdd lambdas 1
  else lambdas

def bareStringClimb (climb : UInt8) (ancestor : Node) : UInt8 :=
  if !isParenthesized ancestor then if (statementString ancestor).isSome then 1 else 0
  else if climb = 0 then 0
  else min (saturatingAdd climb 1) (UInt8.ofNat (maxParentheses + 2))

/-- The climbs that count. -/
def withinCap (climb : UInt8) : Bool := 1 ≤ climb && climb ≤ UInt8.ofNat (maxParentheses + 1)

/-- The nearest of the ancestors `up` that is no parenthesis. -/
def enclosingStatementOf (up : List Node) : Option Node :=
  (up.take (maxParentheses + 1)).find? fun ancestor => !isParenthesized ancestor

/-- The lanes of a walk: these two, and those of other questions. -/
inductive Lane (L : Type) where
  | lambdaDepth | bareStringClimb
  | other (lane : L)
  deriving DecidableEq

section

variable {L G : Type} {tree : SyntaxTree} (reading : NodeInfo → Labelled NodeData)

/-- A node of the walked tree as the grammar names what is in it. -/
def read (node : Spaces.Node) : Node := node.map reading

/-- The ancestors, nearest first. -/
def above (node : Located tree) : List Node := node.chain.reverse.map (read reading)

/-- What a question is about, the ancestors behind it: the node, or for a token the parenthesis it
stands in. -/
def asked (node : Located tree) : List Node :=
  if Node.kind (read reading node.node) = .lparen ∨ Node.kind (read reading node.node) = .rparen then
    above reading node
  else read reading node.node :: above reading node

/-- The fold of a step that looks at the ancestor alone. -/
def foldOf (step : UInt8 → Node → UInt8) : Question L tree where
  init := 0
  step state ancestor _ := .ret (step state (read reading ancestor.node))

def pythonFolds (others : L → Question (Lane L ⊕ G) tree) : Lane L → Question (Lane L ⊕ G) tree
  | .lambdaDepth => foldOf reading lambdaDepthStep
  | .bareStringClimb => foldOf reading Python.bareStringClimb
  | .other lane => others lane

def lambdaGate : Gate tree where
  check node := pythonIsLambda (read reading node)
  stop node := isStatementBoundary (read reading node)
  isElseIf located := isElseIf (read reading located.node) (above reading located)

variable [DecidableEq L] [DecidableEq G] (others : L → Question (Lane L ⊕ G) tree)
  (gates : G → Gate tree) (fuel : ℕ) (node : Located tree)

/-- Without a memo the climb answers. -/
def pythonLambdasBelowStatementBoundary :
    Option (FoldCache (Lane L ⊕ G)) → Option (ℕ × Option (FoldCache (Lane L ⊕ G)))
  | none => some ((lambdaGate reading).countSpecificAncestors node.climb, none)
  | some cache => do
    let (folded, cache) ← foldDown (lanes (pythonFolds reading others) gates) fuel
      (fun _ => false) (.inl .lambdaDepth) node 0 cache
    let count :=
      if folded = 255 then (lambdaGate reading).countSpecificAncestors node.climb
      else folded.toNat
    return (count, some cache)

/-- The fold of a token stops at its parenthesis. -/
def pythonIsBareStringParenthesis (lent : Option (FoldCache (Lane L ⊕ G))) :
    Option (Bool × Option (FoldCache (Lane L ⊕ G))) :=
  let kind := Node.kind (read reading node.node)
  let token := kind = .lparen || kind = .rparen
  match if token then node.climb.head? else some node with
  | none => some (false, lent)
  | some paren =>
    if !isParenthesized (read reading paren.node) then some (false, lent)
    else match lent with
      | some cache => do
        let (climb, cache) ← foldDown (lanes (pythonFolds reading others) gates) fuel
          (fun _ => false) (.inl .bareStringClimb) node token.toNat cache
        return (withinCap climb, some cache)
      | none =>
        some ((enclosingStatementOf (above reading paren)).any fun statement =>
          (statementString statement).isSome, none)

end

/-! ### The climb -/

/-- A climb over the ancestors, nearest first: at most `n` parentheses, and then a bare string
statement. -/
inductive ClimbsToString : ℕ → List Node → Prop where
  | statement {n statement up} (hkind : isParenthesized statement = false)
      (hstring : (statementString statement).isSome = true) : ClimbsToString n (statement :: up)
  | parenthesis {n paren up} (hkind : isParenthesized paren = true)
      (hup : ClimbsToString n up) : ClimbsToString (n + 1) (paren :: up)

/-- A parenthesis, with its ancestors behind it, around the string of a bare string statement. -/
def IsBareStringParenthesis : List Node → Prop
  | [] => False
  | paren :: up => isParenthesized paren = true ∧ ClimbsToString maxParentheses up

theorem climbsToString_iff (n : ℕ) (up : List Node) :
    ClimbsToString n up ↔
      ((up.take (n + 1)).find? fun ancestor => !isParenthesized ancestor).any
        (fun statement => (statementString statement).isSome) = true := by
  induction up generalizing n with
  | nil =>
    constructor
    · intro h
      cases h
    · intro h
      simp at h
  | cons ancestor up ih =>
    rw [List.take_succ_cons, List.find?_cons]
    cases hkind : isParenthesized ancestor with
    | false =>
      refine ⟨fun h => ?_, fun h => .statement hkind (by simpa using h)⟩
      cases h with
      | statement _ hstring => simpa using hstring
      | parenthesis hparen _ =>
        rw [hkind] at hparen
        cases hparen
    | true =>
      cases n with
      | zero =>
        refine ⟨fun h => ?_, fun h => ?_⟩
        · cases h with
          | statement hparen _ =>
            rw [hkind] at hparen
            cases hparen
        · simp at h
      | succ n =>
        refine ⟨fun h => ?_, fun h => .parenthesis hkind ((ih n).mpr (by simpa using h))⟩
        cases h with
        | statement hparen _ =>
          rw [hkind] at hparen
          cases hparen
        | parenthesis _ hup => simpa using (ih n).mp hup

theorem any_enclosingStatementOf (up : List Node) :
    ((enclosingStatementOf up).any fun statement => (statementString statement).isSome) = true ↔
      ClimbsToString maxParentheses up := (climbsToString_iff maxParentheses up).symm

theorem isBareStringParenthesis_cons (paren : Node) (up : List Node) :
    IsBareStringParenthesis (paren :: up) ↔
      isParenthesized paren = true ∧ ClimbsToString maxParentheses up := Iff.rfl

/-! ### The byte -/

theorem toNat_saturatingAdd (a b : UInt8) :
    (saturatingAdd a b).toNat = min (a.toNat + b.toNat) 255 := by
  rw [saturatingAdd, UInt8.toNat_ofNat']
  omega

/-- The lambdas among the ancestors `up` below the nearest boundary. -/
def lambdasBelow : List Node → ℕ
  | [] => 0
  | ancestor :: up =>
    if isStatementBoundary ancestor then 0
    else if pythonIsLambda ancestor then lambdasBelow up + 1
    else lambdasBelow up

theorem toNat_foldr_lambdaDepthStep (up : List Node) :
    (up.foldr (fun ancestor lambdas => lambdaDepthStep lambdas ancestor) 0).toNat =
      min (lambdasBelow up) 255 := by
  induction up with
  | nil => rfl
  | cons ancestor up ih =>
    rw [List.foldr_cons, lambdaDepthStep, lambdasBelow]
    split_ifs
    · rfl
    · rw [toNat_saturatingAdd, ih]
      simp only [UInt8.toNat_one]
      omega
    · exact ih

/-- A climb of at most `n` ancestors ends at a bare string. -/
def reachesString (n : ℕ) (up : List Node) : Bool :=
  ((up.take n).find? fun ancestor => !isParenthesized ancestor).any fun statement =>
    (statementString statement).isSome

theorem toNat_bareStringClimb (climb : UInt8) (ancestor : Node) :
    (bareStringClimb climb ancestor).toNat =
      if isParenthesized ancestor then
        if climb.toNat = 0 then 0 else min (climb.toNat + 1) (maxParentheses + 2)
      else if (statementString ancestor).isSome then 1 else 0 := by
  have hmin : ∀ a b : UInt8, (min a b).toNat = min a.toNat b.toNat := by
    intro a b
    have hdef : min a b = if a ≤ b then a else b := rfl
    rw [hdef]
    split_ifs with h
    · rw [Nat.min_eq_left (UInt8.le_iff_toNat_le.mp h)]
    · rw [Nat.min_eq_right (by rw [UInt8.le_iff_toNat_le] at h; omega)]
  have hzero : climb = 0 ↔ climb.toNat = 0 := by
    rw [← UInt8.toNat_inj]
    rfl
  rw [bareStringClimb]
  cases isParenthesized ancestor with
  | false =>
    simp only [Bool.not_false, if_true, Bool.false_eq_true, if_false]
    split_ifs <;> rfl
  | true =>
    simp only [Bool.not_true, Bool.false_eq_true, if_false, if_true, hzero]
    split_ifs
    · rfl
    · rw [hmin, toNat_saturatingAdd, maxParentheses]
      simp only [UInt8.toNat_one, UInt8.toNat_ofNat']
      omega

/-- The length of the climb tells whether it counts, up to the saturation point. -/
theorem reachesString_iff {n : ℕ} (hn : n ≤ maxParentheses + 1) (up : List Node) :
    reachesString n up = true ↔
      1 ≤ (up.foldr (fun ancestor climb => bareStringClimb climb ancestor) 0).toNat ∧
        (up.foldr (fun ancestor climb => bareStringClimb climb ancestor) 0).toNat ≤ n := by
  induction up generalizing n with
  | nil => simp [reachesString]
  | cons ancestor up ih =>
    rw [List.foldr_cons, toNat_bareStringClimb]
    generalize up.foldr (fun ancestor climb => bareStringClimb climb ancestor) 0 = climb at *
    cases n with
    | zero =>
      rw [reachesString, List.take_zero]
      simp only [List.find?_nil, Option.any_none, Bool.false_eq_true, false_iff]
      omega
    | succ n =>
      have hreaches : reachesString (n + 1) (ancestor :: up) =
          if isParenthesized ancestor then reachesString n up
          else (statementString ancestor).isSome := by
        rw [reachesString, List.take_succ_cons, List.find?_cons]
        cases isParenthesized ancestor <;> rfl
      rw [hreaches]
      split_ifs with hparen hclimb hstring
      · rw [ih (by omega)]
        omega
      · rw [ih (by omega)]
        omega
      · simp [hstring]
      · simp [hstring]

theorem withinCap_foldr (up : List Node) :
    withinCap (up.foldr (fun ancestor climb => bareStringClimb climb ancestor) 0) =
      (enclosingStatementOf up).any fun statement => (statementString statement).isSome := by
  have h := reachesString_iff le_rfl up
  rw [reachesString] at h
  rw [enclosingStatementOf, withinCap, Bool.eq_iff_iff, h, Bool.and_eq_true, decide_eq_true_eq,
    decide_eq_true_eq, UInt8.le_iff_toNat_le, UInt8.le_iff_toNat_le]
  rfl

/-! ### The memo -/

section

variable {L G : Type} {tree : SyntaxTree} {reading : NodeInfo → Labelled NodeData}

/-- The fold of a step that looks at ancestors alone needs no other fold. -/
theorem plainFold_foldOf {questions : L → Question L tree} {lane : L} {step : UInt8 → Node → UInt8}
    (hlane : questions lane = foldOf reading step) (fuel : ℕ) (node : Located tree) (skip : ℕ) :
    plainFold questions (fuel + 1) lane node skip =
      some (((node.chain.take (node.chain.length - skip)).map (read reading)).foldl step 0) := by
  have hsteps : ∀ count ≤ node.chain.length,
      foldSteps (plainStep questions fuel lane node) count 0 0 =
        some (((node.chain.take count).map (read reading)).foldl step 0) := by
    intro count hcount
    induction count with
    | zero => rfl
    | succ count ih =>
      have hat := node.ancestor?_of_lt (show count < node.chain.length by omega)
      rw [foldSteps_add, ih (by omega), Option.bind_some, Nat.zero_add, foldSteps, plainStep,
        stepAt, hat, hlane, List.take_succ_eq_append_getElem (by omega), List.map_append,
        List.foldl_append]
      rfl
  rw [plainFold_succ, hlane]
  exact hsteps _ (Nat.sub_le _ _)

theorem map_node_climb (node : Located tree) :
    node.climb.map Located.node = node.chain.reverse := by
  have hrange : ∀ count ≤ node.chain.length,
      (((List.range count).reverse.filterMap node.ancestor?).map Prod.fst).map Located.node =
        (node.chain.take count).reverse := by
    intro count hcount
    induction count with
    | zero => rfl
    | succ count ih =>
      have hat := node.ancestor?_of_lt (show count < node.chain.length by omega)
      rw [List.range_succ, List.reverse_append, List.reverse_singleton, List.singleton_append,
        List.filterMap_cons_some hat, List.map_cons, List.map_cons, ih (by omega),
        List.take_succ_eq_append_getElem (by omega), List.reverse_append]
      rfl
  rw [Located.climb, hrange _ le_rfl, List.take_length]

/-- No lambda is the `if` of an `else`. -/
theorem countSpecificAncestors_lambdaGate (ancestors : List (Located tree)) :
    (lambdaGate reading).countSpecificAncestors ancestors =
      lambdasBelow (ancestors.map fun ancestor => read reading ancestor.node) := by
  induction ancestors with
  | nil => rfl
  | cons ancestor ancestors ih =>
    have hnot : pythonIsLambda (read reading ancestor.node) = true →
        isElseIf (read reading ancestor.node) (above reading ancestor) = false := by
      intro hlambda
      rw [pythonIsLambda, Bool.or_eq_true, decide_eq_true_eq, decide_eq_true_eq] at hlambda
      rcases hlambda with hkind | hkind
      · rw [isElseIf, hkind]
        rfl
      · rw [isElseIf, hkind]
        rfl
    rw [Gate.countSpecificAncestors, List.map_cons, lambdasBelow, ih]
    cases hlambda : pythonIsLambda (read reading ancestor.node) with
    | false => simp [lambdaGate, hlambda]
    | true => simp [lambdaGate, hlambda, hnot hlambda]

theorem count_climb (node : Located tree) :
    (lambdaGate reading).countSpecificAncestors node.climb = lambdasBelow (above reading node) := by
  rw [countSpecificAncestors_lambdaGate, above, ← map_node_climb, List.map_map]
  rfl

/-- The parent has the chain that ends above it. -/
theorem chain_of_head_climb {node parent : Located tree} (h : node.climb.head? = some parent) :
    parent.chain = node.chain.take (node.chain.length - 1) := by
  obtain ⟨rest, hclimb⟩ := List.head?_eq_some_iff.mp h
  have hpos : 0 < node.chain.length := by
    have hlength := congrArg List.length (map_node_climb node)
    rw [hclimb, List.length_map, List.length_cons, List.length_reverse] at hlength
    omega
  obtain ⟨count, hcount⟩ : ∃ count, node.chain.length = count + 1 := ⟨_, (Nat.sub_add_cancel hpos).symm⟩
  have hat := node.ancestor?_of_lt (show count < node.chain.length by omega)
  rw [Located.climb, hcount, List.range_succ, List.reverse_append, List.reverse_singleton,
    List.singleton_append, List.filterMap_cons_some hat, List.map_cons, List.head?_cons] at h
  obtain rfl := Option.some_inj.mp h
  exact congrArg (node.chain.take ·) (show count = node.chain.length - 1 by omega)

theorem asked_eq {node : Located tree} {token : Bool}
    (htoken : (decide (Node.kind (read reading node.node) = .lparen) ||
      decide (Node.kind (read reading node.node) = .rparen)) = token) :
    asked reading node =
      (if token = true then node.climb.head? else some node).elim [] fun paren =>
        read reading paren.node :: above reading paren := by
  rw [← Bool.decide_or] at htoken
  cases token with
  | false => rw [asked, if_neg (of_decide_eq_false htoken), if_neg Bool.false_ne_true, Option.elim_some]
  | true =>
    rw [asked, if_pos (of_decide_eq_true htoken), if_pos rfl]
    have hnodes := map_node_climb node
    cases hclimb : node.climb with
    | nil =>
      rw [hclimb, List.map_nil] at hnodes
      rw [above, ← hnodes]
      rfl
    | cons paren rest =>
      have hchain : paren.chain = node.chain.take (node.chain.length - 1) :=
        chain_of_head_climb (by rw [hclimb]; rfl)
      rw [hclimb, List.map_cons] at hnodes
      have hlast : node.chain = node.chain.take (node.chain.length - 1) ++ [paren.node] := by
        have hreversed : node.chain = (paren.node :: rest.map Located.node).reverse := by
          rw [hnodes, List.reverse_reverse]
        rw [hreversed]
        simp
      rw [List.head?_cons, Option.elim_some, above, above, hchain]
      conv_lhs => rw [hlast, List.reverse_append, List.reverse_singleton, List.singleton_append,
        List.map_cons]

variable [DecidableEq L] [DecidableEq G] {others : L → Question (Lane L ⊕ G) tree}
  {gates : G → Gate tree}

/-- A memo as the asks of a walk leave it. -/
structure LentCache (folds : Lane L → Question (Lane L ⊕ G) tree) (gates : G → Gate tree) where
  cache : FoldCache (Lane L ⊕ G)
  reached : ∃ fuel asks out, replies folds gates fuel asks FoldCache.empty = some (out, cache)

/-- Before the first ask. -/
def LentCache.fresh (folds : Lane L → Question (Lane L ⊕ G) tree) (gates : G → Gate tree) :
    LentCache folds gates where
  cache := FoldCache.empty
  reached := ⟨0, [], [], rfl⟩

theorem exact_of_replies {folds : Lane L → Question (Lane L ⊕ G) tree} {fuel : ℕ}
    {asks : List (Ask (Lane L) G tree)} {cache cache' : FoldCache (Lane L ⊕ G)} {out : List Reply}
    (hcache : Exact (lanes folds gates) cache)
    (h : replies folds gates fuel asks cache = some (out, cache')) :
    Exact (lanes folds gates) cache' := by
  induction asks generalizing cache out with
  | nil =>
    obtain ⟨-, rfl⟩ := Prod.mk.inj (Option.some_inj.mp h)
    exact hcache
  | cons ask asks ih =>
    obtain ⟨⟨reply, cache₁⟩, hfirst, hrest⟩ := Option.bind_eq_some_iff.mp h
    obtain ⟨⟨rest, cache₂⟩, htail, hout⟩ := Option.bind_eq_some_iff.mp hrest
    obtain ⟨-, rfl⟩ := Prod.mk.inj (Option.some_inj.mp hout)
    exact ih (Ask.reply_sound hcache hfirst).1 htail

/-- A fold through the memo, whatever else the walk asked before. -/
theorem foldDown_lent (lent : LentCache (pythonFolds reading others) gates) (fuel : ℕ)
    {lane : Lane L} {step : UInt8 → Node → UInt8}
    (hlane : pythonFolds reading others lane = foldOf reading step) (node : Located tree)
    (skip : ℕ) :
    ∃ cache, foldDown (lanes (pythonFolds reading others) gates) (fuel + 1) (fun _ => false)
        (.inl lane) node skip lent.cache =
      some (((node.chain.take (node.chain.length - skip)).map (read reading)).foldl step 0,
        cache) := by
  obtain ⟨fuel', asks, out, hreached⟩ := lent.reached
  have hexact := exact_of_replies exact_empty hreached
  exact (foldDown_memoises (fuel + 1) (fun _ => false) (.inl lane) node skip).complete hexact
    (plainFold_foldOf hlane fuel node skip)

/-- Under a walk's memo the count of lambdas is the climb's, at every depth. -/
theorem pythonLambdas_lent (lent : LentCache (pythonFolds reading others) gates) (fuel : ℕ)
    (node : Located tree) :
    ∃ cache, pythonLambdasBelowStatementBoundary reading others gates (fuel + 1) node
        (some lent.cache) =
      some ((lambdaGate reading).countSpecificAncestors node.climb, some cache) := by
  have hlane : pythonFolds reading others .lambdaDepth = foldOf reading lambdaDepthStep := rfl
  obtain ⟨cache, hfold⟩ := foldDown_lent lent fuel hlane node 0
  have hclimb := toNat_foldr_lambdaDepthStep (above reading node)
  rw [Nat.sub_zero, List.take_length, ← List.foldr_reverse, ← List.map_reverse] at hfold
  rw [above] at hclimb
  refine ⟨cache, ?_⟩
  rw [pythonLambdasBelowStatementBoundary, hfold, count_climb]
  simp only [Option.bind_eq_bind, Option.bind_some, Option.pure_def]
  split_ifs with hfull
  · rfl
  · rw [← UInt8.toNat_inj, hclimb] at hfull
    have hmax : (255 : UInt8).toNat = 255 := rfl
    rw [hclimb, above]
    rw [hmax] at hfull
    congr 2
    omega

theorem withinCap_fold {node paren : Located tree} {skip : ℕ}
    (hchain : paren.chain = node.chain.take (node.chain.length - skip)) :
    withinCap (((node.chain.take (node.chain.length - skip)).map (read reading)).foldl
        bareStringClimb 0) =
      (enclosingStatementOf (above reading paren)).any fun statement =>
        (statementString statement).isSome := by
  rw [← withinCap_foldr, above, hchain, List.map_reverse, List.foldr_reverse]

/-- The parenthesis asked about answers by the climb, with the memo and without. -/
theorem pythonIsBareStringParenthesis_lent (lent : LentCache (pythonFolds reading others) gates)
    (fuel : ℕ) (node : Located tree) :
    ∃ answer lent', (answer = true ↔ IsBareStringParenthesis (asked reading node)) ∧
      pythonIsBareStringParenthesis reading others gates (fuel + 1) node none =
        some (answer, none) ∧
      pythonIsBareStringParenthesis reading others gates (fuel + 1) node (some lent.cache) =
        some (answer, lent') := by
  have hlane : pythonFolds reading others .bareStringClimb = foldOf reading bareStringClimb := rfl
  simp only [pythonIsBareStringParenthesis]
  generalize htoken : (decide (Node.kind (read reading node.node) = .lparen) ||
    decide (Node.kind (read reading node.node) = .rparen)) = token
  have hasked : asked reading node =
      (if token = true then node.climb.head? else some node).elim [] fun paren =>
        read reading paren.node :: above reading paren := asked_eq htoken
  cases hparen : (if token = true then node.climb.head? else some node) with
  | none =>
    rw [hparen] at hasked
    exact ⟨false, _, by simp [hasked, IsBareStringParenthesis], rfl, rfl⟩
  | some paren =>
    rw [hparen] at hasked
    simp only
    by_cases hkind : (!isParenthesized (read reading paren.node)) = true
    · rw [if_pos hkind, if_pos hkind]
      refine ⟨false, _, ?_, rfl, rfl⟩
      have hother : isParenthesized (read reading paren.node) = false := by simpa using hkind
      rw [hasked, Option.elim_some, isBareStringParenthesis_cons, hother]
      simp
    · have hchain : paren.chain = node.chain.take (node.chain.length - token.toNat) := by
        cases token with
        | true => exact chain_of_head_climb hparen
        | false =>
          obtain rfl := Option.some_inj.mp hparen
          simp
      obtain ⟨cache, hfold⟩ := foldDown_lent lent fuel hlane node token.toNat
      rw [if_neg hkind, if_neg hkind]
      refine ⟨_, some cache, ?_, rfl, ?_⟩
      · have hparenthesis : isParenthesized (read reading paren.node) = true := by simpa using hkind
        rw [hasked, Option.elim_some, isBareStringParenthesis_cons, ← any_enclosingStatementOf,
          and_iff_right hparenthesis]
      · rw [hfold, ← withinCap_fold hchain]
        rfl

/-- Both folds under a walk's memo, which other questions filled and lend it on the way: the
count is the climb's, and a parenthesis or a token of one belongs to a bare string as the capped
climb from it says. -/
theorem saturatingFolds_exact (lent : LentCache (pythonFolds reading others) gates) (fuel : ℕ)
    (node : Located tree) :
    (∃ cache, pythonLambdasBelowStatementBoundary reading others gates (fuel + 1) node
        (some lent.cache) =
      some ((lambdaGate reading).countSpecificAncestors node.climb, some cache)) ∧
    ∃ answer lent', (answer = true ↔ IsBareStringParenthesis (asked reading node)) ∧
      pythonIsBareStringParenthesis reading others gates (fuel + 1) node none =
        some (answer, none) ∧
      pythonIsBareStringParenthesis reading others gates (fuel + 1) node (some lent.cache) =
        some (answer, lent') :=
  ⟨pythonLambdas_lent lent fuel node, pythonIsBareStringParenthesis_lent lent fuel node⟩

end

/-- The statement `("doc")`: a string in a parenthesis. -/
def parenthesizedString : SyntaxTree where
  root := .node ⟨1, 0, 0, 0, 1, 0⟩ [.node ⟨2, 1, 0, 0, 0, 7⟩ [.node ⟨3, 2, 0, 0, 0, 7⟩
    [.node ⟨4, 3, 0, 0, 0, 1⟩ [], .node ⟨5, 4, 1, 0, 0, 6⟩ [], .node ⟨6, 5, 6, 0, 0, 7⟩ []]]]
  distinct := by decide
  nonzero := by decide

/-- Its closing token. -/
def parenthesizedString.close : Located parenthesizedString where
  chain := [parenthesizedString.root,
    .node ⟨2, 1, 0, 0, 0, 7⟩ [.node ⟨3, 2, 0, 0, 0, 7⟩
      [.node ⟨4, 3, 0, 0, 0, 1⟩ [], .node ⟨5, 4, 1, 0, 0, 6⟩ [], .node ⟨6, 5, 6, 0, 0, 7⟩ []]],
    .node ⟨3, 2, 0, 0, 0, 7⟩
      [.node ⟨4, 3, 0, 0, 0, 1⟩ [], .node ⟨5, 4, 1, 0, 0, 6⟩ [], .node ⟨6, 5, 6, 0, 0, 7⟩ []]]
  node := .node ⟨6, 5, 6, 0, 0, 7⟩ []
  isPath := by simp [IsPath, parenthesizedString]

/-- The grammar's names for these nodes. -/
def parenthesizedString.reading (info : NodeInfo) : Labelled NodeData :=
  ⟨⟨info.id, [Kind.module, .expressionStatement, .parenthesizedExpression, .lparen, .string,
    .rparen].getD info.kindId (.other 0 false), info.startByte, info.startByte + 1, info.startRow,
    info.endRow, []⟩, none⟩

/-- The closing token is told from a fresh memo to stand in a bare string's parenthesis. -/
theorem saturatingFolds_exact_parenthesizedString :
    let others : Unit → Question (Lane Unit ⊕ Unit) parenthesizedString := fun _ =>
      ⟨0, fun state _ _ => .ret state⟩
    let gates : Unit → Gate parenthesizedString := fun _ =>
      ⟨fun _ => true, fun _ => false, fun _ => false⟩
    ∃ lent', pythonIsBareStringParenthesis parenthesizedString.reading others gates 1
      parenthesizedString.close (some FoldCache.empty) = some (true, lent') := by
  intro others gates
  obtain ⟨-, answer, lent', hclimb, -, hlent⟩ := saturatingFolds_exact
    (LentCache.fresh (pythonFolds parenthesizedString.reading others) gates) 0
    parenthesizedString.close
  have hanswer : answer = true := hclimb.mpr ⟨rfl, .statement rfl rfl⟩
  exact ⟨lent', hanswer ▸ hlent⟩

end BigCodeAnalysis.Languages.Python
