import BigCodeAnalysis.Spaces.Node
import BigCodeAnalysis.Trees.RootPath

/-! Folds down a node's ancestry and the memo a walk lends them. A question has a lane
of its own and folds a byte from the root down to the node asked. The memo keeps, for
each lane and depth, the state folded above one ancestor, under that ancestor's id.
A step may fold on the way: on another lane that fold is memoised too, on its own lane
it finds the slots borrowed and runs without them. An index out of range stops the
program, and a fold whose steps call each other without end never answers; both are
`none`. -/

namespace BigCodeAnalysis.Spaces

open Trees

/-- A parsed tree. An id is the address of a node's subtree: no two nodes share one and
none is 0. -/
structure SyntaxTree where
  root : Node
  distinct : (root.nodes.map Node.id).Nodup
  nonzero : ∀ node : Node, node ∈ root.nodes → node.id ≠ 0

/-- A node with its chain of ancestors, root first. -/
structure Located (tree : SyntaxTree) where
  chain : Ancestors
  node : Node
  isPath : IsPath tree.root (chain ++ [node])

namespace Located

variable {tree : SyntaxTree}

theorem isPath_take (self : Located tree) {depth : ℕ} (h : depth < self.chain.length) :
    IsPath tree.root (self.chain.take depth ++ [self.chain[depth]]) := by
  have htake := self.isPath.take (Nat.succ_pos depth)
  rwa [List.take_append_of_le_length h, List.take_succ_eq_append_getElem h] at htake

/-- The ancestor at `depth` with its own chain, and the node below it on the path. -/
def ancestor? (self : Located tree) (depth : ℕ) : Option (Located tree × Node) :=
  if h : depth < self.chain.length then
    some (⟨self.chain.take depth, self.chain[depth], self.isPath_take h⟩,
      self.chain[depth + 1]?.getD self.node)
  else none

end Located

/-- A file with a function of two statements. -/
def twoStatements : SyntaxTree where
  root := .node ⟨1, 0, 0, 0, 3, 1⟩
    [.node ⟨2, 1, 0, 0, 3, 1⟩ [.node ⟨3, 5, 9, 1, 1, 4⟩ [], .node ⟨4, 5, 14, 2, 2, 4⟩ []]]
  distinct := by decide
  nonzero := by decide

/-- Its second statement. -/
def twoStatements.second : Located twoStatements where
  chain := [twoStatements.root,
    .node ⟨2, 1, 0, 0, 3, 1⟩ [.node ⟨3, 5, 9, 1, 1, 4⟩ [], .node ⟨4, 5, 14, 2, 2, 4⟩ []]]
  node := .node ⟨4, 5, 14, 2, 2, 4⟩ []
  isPath := by simp [IsPath, twoStatements]

/-- What a step does: it answers, or it first folds at a node. -/
inductive Prog (L : Type) (tree : SyntaxTree) where
  | ret (state : UInt8)
  | ask (lane : L) (node : Located tree) (skip : ℕ) (next : UInt8 → Prog L tree)

/-- The program asks only at nodes with at most `n` ancestors. -/
def Prog.Within {L : Type} {tree : SyntaxTree} (n : ℕ) : Prog L tree → Prop
  | .ret _ => True
  | .ask _ node _ next => node.chain.length ≤ n ∧ ∀ answer, (next answer).Within n

/-- A fold: the state above the root, and the step at an ancestor, given the state so
far, the ancestor with its chain and the node below it. -/
structure Question (L : Type) (tree : SyntaxTree) where
  init : UInt8
  step : UInt8 → Located tree → Node → Prog L tree

variable {L : Type} {tree : SyntaxTree}

def Prog.eval (fold : L → Located tree → ℕ → Option UInt8) : Prog L tree → Option UInt8
  | .ret state => some state
  | .ask lane node skip next => do
    let answer ← fold lane node skip
    (next answer).eval fold

/-- The step of a fold at `node` for the ancestor at `depth`. -/
def stepAt (questions : L → Question L tree) (lane : L) (node : Located tree) (state : UInt8)
    (depth : ℕ) : Option (Prog L tree) :=
  (node.ancestor? depth).map fun (ancestor, below) => (questions lane).step state ancestor below

/-- `count` steps from `depth` on. -/
def foldSteps (step : UInt8 → ℕ → Option UInt8) : ℕ → ℕ → UInt8 → Option UInt8
  | 0, _, state => some state
  | count + 1, depth, state => do
    let state ← step state depth
    foldSteps step count (depth + 1) state

/-- `fold_down` without a memo, leaving out the `skip` nearest ancestors. The number
bounds how deep folds call folds. -/
def plainFold (questions : L → Question L tree) : ℕ → L → Located tree → ℕ → Option UInt8
  | 0, _, _, _ => none
  | fuel + 1, lane, node, skip =>
    foldSteps (fun state depth => do
        (← stepAt questions lane node state depth).eval (plainFold questions fuel))
      (node.chain.length - skip) 0 (questions lane).init

/-! ### The memo -/

/-- One slot per depth; id 0 marks an empty one. -/
abbrev Slots := List (ℕ × UInt8)

abbrev FoldCache (L : Type) := L → Slots

def FoldCache.empty : FoldCache L := fun _ => []

def Prog.run (fold : L → Located tree → ℕ → FoldCache L → Option (UInt8 × FoldCache L)) :
    Prog L tree → FoldCache L → Option (UInt8 × FoldCache L)
  | .ret state, cache => some (state, cache)
  | .ask lane node skip next, cache => do
    let (answer, cache) ← fold lane node skip cache
    (next answer).run fold cache

/-- The deepest depth from `depth` up whose slot holds the ancestor the chain has there,
or 0. -/
def deepestStored (slots : Slots) (chain : Ancestors) : ℕ → Option ℕ
  | 0 => some 0
  | depth + 1 => do
    let slot ← slots[depth + 1]?
    let ancestor ← chain[depth + 1]?
    if slot.1 = ancestor.id then some (depth + 1) else deepestStored slots chain depth

/-- `foldSteps` where a step also changes the memo. -/
def foldThrough (step : UInt8 → ℕ → FoldCache L → Option (UInt8 × FoldCache L)) :
    ℕ → ℕ → UInt8 → FoldCache L → Option (UInt8 × FoldCache L)
  | 0, _, state, cache => some (state, cache)
  | count + 1, depth, state, cache => do
    let (state, cache) ← step state depth cache
    foldThrough step count (depth + 1) state cache

/-- The loop that refolds and stores: after the step at a depth the state is the one at
the ancestor below. -/
def refold (step : UInt8 → ℕ → FoldCache L → Option (UInt8 × FoldCache L)) (chain : Ancestors) :
    ℕ → ℕ → UInt8 → Slots → FoldCache L → Option (UInt8 × Slots × FoldCache L)
  | 0, _, state, slots, cache => some (state, slots, cache)
  | count + 1, depth, state, slots, cache => do
    let (state, cache) ← step state depth cache
    let ancestor ← chain[depth + 1]?
    if depth + 1 < slots.length then
      refold step chain count (depth + 1) state (slots.set (depth + 1) (ancestor.id, state)) cache
    else none

/-- The slots of a lane, grown to reach `memoEnd`. -/
def grown (slots : Slots) (memoEnd : ℕ) : Slots :=
  if slots.length ≤ memoEnd then slots ++ List.replicate (memoEnd + 1 - slots.length) (0, 0)
  else slots

/-- The state the loop starts from: `init` at depth 0, else what the slot holds. -/
def startState (init : UInt8) (slots : Slots) (depth : ℕ) : Option UInt8 :=
  if depth = 0 then some init else slots[depth]?.map Prod.snd

/-- The step whose state depends on the node itself, which is never stored. -/
def lastStep (step : UInt8 → ℕ → FoldCache L → Option (UInt8 × FoldCache L)) (memoEnd stop : ℕ)
    (state : UInt8) (cache : FoldCache L) : Option (UInt8 × FoldCache L) :=
  if memoEnd < stop then step state memoEnd cache else some (state, cache)

variable [DecidableEq L]

/-- The state after `step` over the first `stop` ancestors, through the slots of `lane`.
`held` tells which lanes a fold further out has borrowed; while it runs, a fold keeps
its slots to itself and gives them back at the end. -/
def FoldCache.fold (held : L → Bool) (lane : L) (chain : Ancestors) (stop : ℕ) (init : UInt8)
    (step : (L → Bool) → UInt8 → ℕ → FoldCache L → Option (UInt8 × FoldCache L))
    (cache : FoldCache L) : Option (UInt8 × FoldCache L) :=
  if held lane then foldThrough (step held) stop 0 init cache
  else do
    let held := Function.update held lane true
    let memoEnd := min stop (chain.length - 1)
    let slots := grown (cache lane) memoEnd
    let depth ← deepestStored slots chain memoEnd
    let state ← startState init slots depth
    let (state, slots, cache) ←
      refold (step held) chain (memoEnd - depth) depth state slots cache
    let (state, cache) ← lastStep (step held) memoEnd stop state cache
    return (state, Function.update cache lane slots)

/-- `fold_down` under a walk that lends its memo. -/
def foldDown (questions : L → Question L tree) :
    ℕ → (L → Bool) → L → Located tree → ℕ → FoldCache L → Option (UInt8 × FoldCache L)
  | 0, _, _, _, _, _ => none
  | fuel + 1, held, lane, node, skip, cache =>
    FoldCache.fold held lane node.chain (node.chain.length - skip) (questions lane).init
      (fun held state depth cache => do
        (← stepAt questions lane node state depth).run (foldDown questions fuel held) cache)
      cache

/-! ### An ancestor before a stop -/

/-- The predicates of one question: which ancestors count, where the search stops, and
the language's `is_else_if`. -/
structure Gate (tree : SyntaxTree) where
  check : Node → Bool
  stop : Node → Bool
  isElseIf : Located tree → Bool

/-- The fold of a gate: a stop resets it, a counted ancestor sets it. -/
def Gate.question (gate : Gate tree) : Question L tree where
  init := 0
  step held ancestor _ :=
    .ret (if gate.stop ancestor.node then 0
      else if gate.check ancestor.node && !gate.isElseIf ancestor then 1
      else held)

/-- The ancestors with their chains, nearest first. -/
def Located.climb (self : Located tree) : List (Located tree) :=
  ((List.range self.chain.length).reverse.filterMap self.ancestor?).map Prod.fst

/-- The counted ancestors below the nearest stop. -/
def Gate.countSpecificAncestors (gate : Gate tree) : List (Located tree) → ℕ
  | [] => 0
  | ancestor :: above =>
    if gate.stop ancestor.node then 0
    else if gate.check ancestor.node && !gate.isElseIf ancestor then
      gate.countSpecificAncestors above + 1
    else gate.countSpecificAncestors above

/-! ### The asks of a walk -/

variable {G : Type} [DecidableEq G]

/-- The lanes of a walk: one for each fold and one for each gate. -/
def lanes (folds : L → Question (L ⊕ G) tree) (gates : G → Gate tree) :
    L ⊕ G → Question (L ⊕ G) tree :=
  Sum.elim folds fun gate => (gates gate).question

/-- One ask: a fold at a node, or whether an ancestor comes before a stop. -/
inductive Ask (L G : Type) (tree : SyntaxTree)
  | fold (lane : L ⊕ G) (node : Located tree) (skip : ℕ)
  | beforeStop (gate : G) (node : Located tree)

inductive Reply
  | state (state : UInt8)
  | found (found : Bool)
  deriving DecidableEq

/-- The answer through the memo; `ancestor_before_stop` compares its fold with 1. -/
def Ask.reply (folds : L → Question (L ⊕ G) tree) (gates : G → Gate tree) (fuel : ℕ) :
    Ask L G tree → FoldCache (L ⊕ G) → Option (Reply × FoldCache (L ⊕ G))
  | .fold lane node skip, cache => do
    let (state, cache) ← foldDown (lanes folds gates) fuel (fun _ => false) lane node skip cache
    return (.state state, cache)
  | .beforeStop gate node, cache => do
    let (state, cache) ←
      foldDown (lanes folds gates) fuel (fun _ => false) (.inr gate) node 0 cache
    return (.found (state == 1), cache)

/-- The asks of a walk, one after the other through one memo. -/
def replies (folds : L → Question (L ⊕ G) tree) (gates : G → Gate tree) (fuel : ℕ) :
    List (Ask L G tree) → FoldCache (L ⊕ G) → Option (List Reply × FoldCache (L ⊕ G))
  | [], cache => some ([], cache)
  | ask :: asks, cache => do
    let (reply, cache) ← ask.reply folds gates fuel cache
    let (rest, cache) ← replies folds gates fuel asks cache
    return (reply :: rest, cache)

/-- The answer with no memo: a plain fold, and the climb that counts. -/
def Ask.plainReply (folds : L → Question (L ⊕ G) tree) (gates : G → Gate tree) (fuel : ℕ) :
    Ask L G tree → Option Reply
  | .fold lane node skip => (plainFold (lanes folds gates) fuel lane node skip).map .state
  | .beforeStop gate node =>
    some (.found (decide (0 < (gates gate).countSpecificAncestors node.climb)))

def plainReplies (folds : L → Question (L ⊕ G) tree) (gates : G → Gate tree) (fuel : ℕ)
    (asks : List (Ask L G tree)) : Option (List Reply) :=
  asks.mapM fun ask => ask.plainReply folds gates fuel

end BigCodeAnalysis.Spaces
