import BigCodeAnalysis.Sequences.PartitionPoint
import BigCodeAnalysis.Spaces.FoldCache
import BigCodeAnalysis.Trees.StackSteps

/-! The siblings of a node. A walk records the children of each wide node it enters, one slot
for each depth, and a node is found among them by its start byte. Where nothing is recorded a
cursor seeks the node in its parent. -/

namespace BigCodeAnalysis.Spaces

open Trees Sequences

def wideParent : ℕ := 64

/-! ### The slots -/

/-- One slot for each depth; id 0 marks an unused one. -/
abbrev SiblingCache := List (ℕ × List Node)

/-- `children` are those the walk has just pushed. -/
def SiblingCache.record (cache : SiblingCache) (node : Node) (depth : ℕ) (children : List Node) :
    SiblingCache :=
  if node.children.length ≤ wideParent then cache
  else
    let grown :=
      if cache.length ≤ depth then cache ++ List.replicate (depth + 1 - cache.length) (0, [])
      else cache
    grown.set depth (node.id, children)

def SiblingCache.children (cache : SiblingCache) (parent : Node) (depth : ℕ) :
    Option (List Node) :=
  (cache[depth]?.filter fun slot => slot.1 = parent.id).map Prod.snd

def positionByStart (children : List Node) (node : Node) : Option ℕ :=
  let first := partitionPoint (fun child : Node => child.startByte < node.startByte) children
  (((children.drop first).takeWhile fun child : Node =>
      child.startByte = node.startByte).findIdx? fun child : Node => child.id = node.id).map
    (first + ·)

inductive Lookup where
  | wide (children : List Node) (index : Option ℕ)
  | narrow (parent : Option Node)

def lookup (cache : SiblingCache) (chain : Ancestors) (node : Node) : Lookup :=
  match chain.getLast? with
  | none => .narrow none
  | some parent =>
    match cache.children parent (chain.length - 1) with
    | some children => .wide children (positionByStart children node)
    | none => .narrow (some parent)

/-! ### Seeking in the parent -/

section
variable (gotoFirstChildForByte : Node → ℕ → Option ℕ)

/-- The index the cursor ends at. A child passed over by the seek is looked for from the
start. -/
def seatOnChild (parent child : Node) : Option ℕ :=
  let scanned := parent.children.findIdx? fun c : Node => c.id = child.id
  match gotoFirstChildForByte parent child.startByte with
  | some index =>
    if (parent.children[index]?).any fun c : Node => c.id = child.id then some index else scanned
  | none => scanned

def childrenAfter (parent child : Node) : List Node :=
  match seatOnChild gotoFirstChildForByte parent child with
  | some index => parent.children.drop (index + 1)
  | none => []

def childrenBefore (parent child : Node) : List Node :=
  (List.range ((seatOnChild gotoFirstChildForByte parent child).getD 0)).reverse.filterMap
    fun i => parent.children[i]?

/-! ### The three questions -/

variable (cache : SiblingCache) (chain : Ancestors) (node : Node)

def siblingsAfter : List Node :=
  match lookup cache chain node with
  | .wide children (some index) => children.drop (index + 1)
  | .wide _ none => []
  | .narrow (some parent) => childrenAfter gotoFirstChildForByte parent node
  | .narrow none => []

def siblingsBefore : List Node :=
  match lookup cache chain node with
  | .wide children (some index) => (children.take index).reverse
  | .wide _ none => []
  | .narrow (some parent) => childrenBefore gotoFirstChildForByte parent node
  | .narrow none => []

end

/-- The child before the one looked for, and whether that one was met. -/
def scanPrevious (node : Node) : List Node → Option Node → Option (Option Node)
  | [], _ => none
  | child :: rest, previous =>
    if child.id = node.id then some previous else scanPrevious node rest (some child)

/-- The tree's own answer stands in where the chain does not describe the node. -/
def previousSibling (nodePreviousSibling : Node → Option Node) (cache : SiblingCache)
    (chain : Ancestors) (node : Node) : Option Node :=
  match chain.getLast? with
  | none => none
  | some parent =>
    match lookup cache chain node with
    | .wide children (some index) => (children.take index).getLast?
    | .wide _ none => nodePreviousSibling node
    | .narrow _ => (scanPrevious node parent.children none).getD (nodePreviousSibling node)

/-! ### The walk -/

structure SiblingWalk (τ : Type*) where
  chain : Ancestors
  siblings : SiblingCache
  rest : τ

variable {τ : Type*}

/-- One pop. What the walk does at a node may read the chain and the slots, and decides
whether the subtree is skipped. -/
def siblingVisit (act : τ → Ancestors → SiblingCache → Node → τ × Bool) :
    StackWalk.Visit NodeInfo ℕ (SiblingWalk τ) :=
  fun s node depth =>
    let chain := s.chain.take depth
    let (rest, skipped) := act s.rest chain s.siblings node
    if skipped then (⟨chain, s.siblings, rest⟩, none)
    else (⟨chain ++ [node], s.siblings.record node depth node.children, rest⟩, some (depth + 1))

/-- The ancestors of the start are recorded, since the walk never enters them. -/
def seedSiblings (chain : Ancestors) : SiblingCache :=
  chain.zipIdx.foldl (fun cache (ancestor, depth) =>
    cache.record ancestor depth ancestor.children) []

/-- What a node is visited with. -/
structure SiblingAsk where
  chain : Ancestors
  siblings : SiblingCache
  node : Node

def siblingLog (s : SiblingWalk τ) (node : Node) (depth : ℕ) : List SiblingAsk :=
  [⟨s.chain.take depth, s.siblings, node⟩]

/-- The visits of a walk of the subtree at `start`. -/
def siblingAsks {tree : SyntaxTree} (act : τ → Ancestors → SiblingCache → Node → τ × Bool)
    (start : Located tree) (rest : τ) : List SiblingAsk :=
  StackWalk.trace .leftmostOnTop (siblingVisit act) siblingLog start.node start.chain.length
    ⟨start.chain, seedSiblings start.chain, rest⟩

/-! ### Scans of the parent's children -/

def scanAfter (parent node : Node) : List Node :=
  (parent.children.dropWhile fun c : Node => c.id ≠ node.id).drop 1

def scanBefore (parent node : Node) : List Node :=
  (parent.children.takeWhile fun c : Node => c.id ≠ node.id).reverse

end BigCodeAnalysis.Spaces
