import BigCodeAnalysis.Sequences.Loop
import BigCodeAnalysis.Trees.Fold

/-! The conversion of a compute-side tree to its wire form. The walk keeps the root's frame
apart from a stack of its descendants' frames; a completed frame is folded into the one
below it, or into the root's. -/

namespace BigCodeAnalysis.Wire

open Sequences Trees

structure MapFrame (Src Dst : Type*) where
  source : Src
  nextChild : ℕ
  children : List Dst

/-- The head of `descendants` is the top of the stack. `builds` lists the calls of `build`. -/
structure MapWalk (Src Dst : Type*) where
  rootFrame : MapFrame Src Dst
  descendants : List (MapFrame Src Dst)
  builds : List (Src × List Dst)

variable {Src Dst : Type*}

namespace MapFrame

def new (source : Src) : MapFrame Src Dst := ⟨source, 0, []⟩

def advance (frame : MapFrame Src Dst) : MapFrame Src Dst :=
  { frame with nextChild := frame.nextChild + 1 }

def deposit (converted : Dst) (frame : MapFrame Src Dst) : MapFrame Src Dst :=
  { frame with children := frame.children ++ [converted] }

end MapFrame

namespace MapWalk

/-- The frame the loop looks at. -/
def current (walk : MapWalk Src Dst) : MapFrame Src Dst :=
  match walk.descendants with
  | frame :: _ => frame
  | [] => walk.rootFrame

def modifyCurrent (f : MapFrame Src Dst → MapFrame Src Dst) (walk : MapWalk Src Dst) :
    MapWalk Src Dst :=
  match walk.descendants with
  | frame :: rest => { walk with descendants := f frame :: rest }
  | [] => { walk with rootFrame := f walk.rootFrame }

def push (frame : MapFrame Src Dst) (walk : MapWalk Src Dst) : MapWalk Src Dst :=
  { walk with descendants := frame :: walk.descendants }

def record (calls : List (Src × List Dst)) (walk : MapWalk Src Dst) : MapWalk Src Dst :=
  { walk with builds := walk.builds ++ calls }

end MapWalk

variable (childrenOf : Src → List Src) (build : Src → List Dst → Dst)

/-- One turn of the loop. It ends with the conversion of the root and all calls of `build`. -/
def mapTurn (walk : MapWalk Src Dst) : ControlFlow (MapWalk Src Dst) (Dst × List (Src × List Dst)) :=
  match (childrenOf walk.current.source)[walk.current.nextChild]? with
  | some child => .onward ((walk.modifyCurrent MapFrame.advance).push (.new child))
  | none =>
    match walk.descendants with
    | [] =>
      let root := walk.rootFrame
      .leave (build root.source root.children, walk.builds ++ [(root.source, root.children)])
    | done :: rest =>
      let converted := build done.source done.children
      let popped : MapWalk Src Dst := { walk with descendants := rest }
      .onward ((popped.modifyCurrent (MapFrame.deposit converted)).record
        [(done.source, done.children)])

def mapTree (tree : TreeType Src) (root : Src) : Option (Dst × List (Src × List Dst)) :=
  Loop.run (fun walk => some (mapTurn tree.childrenOf build walk)) (2 * (tree.unfold root).size)
    ⟨.new root, [], []⟩

/-! ### The walk is the recursion -/

namespace MapWalk

@[simp] theorem current_modifyCurrent (f : MapFrame Src Dst → MapFrame Src Dst)
    (walk : MapWalk Src Dst) : (walk.modifyCurrent f).current = f walk.current := by
  rcases walk with ⟨root, _ | ⟨frame, rest⟩, builds⟩ <;> rfl

theorem modifyCurrent_modifyCurrent (f g : MapFrame Src Dst → MapFrame Src Dst)
    (walk : MapWalk Src Dst) :
    (walk.modifyCurrent f).modifyCurrent g = walk.modifyCurrent fun frame => g (f frame) := by
  rcases walk with ⟨root, _ | ⟨frame, rest⟩, builds⟩ <;> rfl

theorem modifyCurrent_record (f : MapFrame Src Dst → MapFrame Src Dst)
    (calls : List (Src × List Dst)) (walk : MapWalk Src Dst) :
    (walk.record calls).modifyCurrent f = (walk.modifyCurrent f).record calls := by
  rcases walk with ⟨root, _ | ⟨frame, rest⟩, builds⟩ <;> rfl

@[simp] theorem current_record (calls : List (Src × List Dst)) (walk : MapWalk Src Dst) :
    (walk.record calls).current = walk.current := by
  rcases walk with ⟨root, _ | ⟨frame, rest⟩, builds⟩ <;> rfl

theorem record_record (calls calls' : List (Src × List Dst)) (walk : MapWalk Src Dst) :
    (walk.record calls).record calls' = walk.record (calls ++ calls') := by
  simp [record]

end MapWalk

/-- What a frame has gained once the children left to it are converted. -/
def MapFrame.finish (converted : List Dst) (frame : MapFrame Src Dst) : MapFrame Src Dst :=
  ⟨frame.source, frame.nextChild + converted.length, frame.children ++ converted⟩

theorem MapFrame.finish_nil (frame : MapFrame Src Dst) : frame.finish [] = frame := by
  simp [finish]

theorem MapFrame.finish_cons (d : Dst) (ds : List Dst) (frame : MapFrame Src Dst) :
    (frame.advance.deposit d).finish ds = frame.finish (d :: ds) := by
  simp only [advance, deposit, finish, List.length_cons, List.append_assoc, List.cons_append,
    List.nil_append, MapFrame.mk.injEq, true_and, and_true]
  omega

section Walk
variable (tree : TreeType Src)

/-- The loop's body. -/
abbrev mapBody (walk : MapWalk Src Dst) :
    Option (ControlFlow (MapWalk Src Dst) (Dst × List (Src × List Dst))) :=
  some (mapTurn tree.childrenOf build walk)

/-- A node entered on top of the stack leaves its conversion in the frame below. -/
def Converts (s : Src) (count : ℕ) : Prop :=
  ∀ walk : MapWalk Src Dst, ∃ n < 2 * count,
    Loop.Steps (mapBody build tree) n (walk.push (.new s))
      ((walk.modifyCurrent (.deposit (tree.convert build s))).record (tree.conversions build s))

/-- A frame to which these children are left leaves their conversions in itself. -/
def ConvertsAll (ss : List Src) (count : ℕ) : Prop :=
  ∀ walk : MapWalk Src Dst,
    (tree.childrenOf walk.current.source).drop walk.current.nextChild = ss →
    ∃ n ≤ 2 * count, Loop.Steps (mapBody build tree) n walk
      ((walk.modifyCurrent (.finish (ss.map (tree.convert build)))).record
        (ss.flatMap (tree.conversions build)))

variable {build tree}

theorem convertsAll_nil : ConvertsAll build tree [] 0 := by
  intro walk _
  refine ⟨0, Nat.le_refl _, ?_⟩
  have hsame : (walk.modifyCurrent (.finish [])).record [] = walk := by
    rcases walk with ⟨root, _ | ⟨frame, rest⟩, builds⟩ <;>
      simp [MapWalk.modifyCurrent, MapWalk.record, MapFrame.finish_nil]
  rw [List.map_nil, List.flatMap_nil, hsame]
  exact .zero walk

/-- One turn enters the next child; the frame has moved past it already. -/
theorem convertsAll_cons {s : Src} {ss : List Src} {count counts : ℕ}
    (hs : Converts build tree s count) (hss : ConvertsAll build tree ss counts) :
    ConvertsAll build tree (s :: ss) (count + counts) := by
  intro walk hwalk
  have hchild : (tree.childrenOf walk.current.source)[walk.current.nextChild]? = some s := by
    rw [← List.head?_drop, hwalk, List.head?_cons]
  have hrest : (tree.childrenOf walk.current.source).drop (walk.current.nextChild + 1) = ss := by
    rw [← List.tail_drop, hwalk, List.tail_cons]
  have hfirst : mapBody build tree walk =
      some (.onward ((walk.modifyCurrent .advance).push (.new s))) := by
    simp only [mapBody, mapTurn, hchild]
  obtain ⟨m, hm, hsteps⟩ := hs (walk.modifyCurrent .advance)
  obtain ⟨n, hn, hsteps'⟩ := hss (((walk.modifyCurrent .advance).modifyCurrent
    (.deposit (tree.convert build s))).record (tree.conversions build s)) (by
      simpa [MapFrame.deposit, MapFrame.advance] using hrest)
  refine ⟨n + (m + 1), by omega, ?_⟩
  have hall := ((Loop.Steps.one hfirst).trans hsteps).trans hsteps'
  simp only [MapWalk.modifyCurrent_record, MapWalk.record_record,
    MapWalk.modifyCurrent_modifyCurrent, MapFrame.finish_cons] at hall
  exact hall

/-- A frame whose children are all converted is folded into the one below it. -/
theorem converts_of_all {s : Src} {count : ℕ}
    (h : ConvertsAll build tree (tree.childrenOf s) count) :
    Converts build tree s (count + 1) := by
  intro walk
  obtain ⟨n, hn, hsteps⟩ := h (walk.push (.new s)) rfl
  have hlast : mapBody build tree (((walk.push (.new s)).modifyCurrent
      (.finish ((tree.childrenOf s).map (tree.convert build)))).record
        ((tree.childrenOf s).flatMap (tree.conversions build))) =
      some (.onward ((walk.modifyCurrent (.deposit (tree.convert build s))).record
        (tree.conversions build s))) := by
    rw [tree.convert_eq, tree.conversions_eq, ← MapWalk.record_record,
      ← MapWalk.modifyCurrent_record]
    rcases walk with ⟨root, _ | ⟨frame, rest⟩, builds⟩ <;>
      simp [mapTurn, MapWalk.push, MapWalk.modifyCurrent, MapWalk.record, MapWalk.current,
        MapFrame.new, MapFrame.finish]
  exact ⟨n + 1, by omega, hsteps.snoc hlast⟩

theorem converts_tree_forest :
    (∀ (t : Rose Src) (s : Src), tree.unfold s = t → Converts build tree s t.size) ∧
    ∀ (ts : List (Rose Src)) (ss : List Src), ss.map tree.unfold = ts →
      ConvertsAll build tree ss (Rose.forestSize ts) := by
  refine Rose.tree_forest_induction ?node ?nil ?cons
  case node =>
    intro a cs ih s hs
    rw [tree.unfold_eq] at hs
    injection hs with ha hcs
    rw [Rose.size_node]
    exact converts_of_all (ih _ hcs)
  case nil =>
    intro ss hss
    obtain rfl := List.map_eq_nil_iff.mp hss
    exact convertsAll_nil
  case cons =>
    intro t ts iht ihts ss hss
    obtain ⟨s, rest, rfl, hs, hrest⟩ := List.map_eq_cons_iff.mp hss
    rw [Rose.forestSize_cons]
    exact convertsAll_cons (iht s hs) (ihts rest hrest)

end Walk

/-- The walk converts as the recursion on the tree does, and calls `build` for each node
once, after its children. -/
theorem mapTree_eq (tree : TreeType Src) (root : Src) :
    mapTree build tree root = some (tree.convert build root, tree.conversions build root) := by
  have hchildren : ConvertsAll build tree (tree.childrenOf root)
      (Rose.forestSize ((tree.childrenOf root).map tree.unfold)) :=
    converts_tree_forest.2 _ _ rfl
  obtain ⟨n, hn, hsteps⟩ := hchildren ⟨.new root, [], []⟩ rfl
  apply hsteps.run_eq
  · rw [tree.convert_eq, tree.conversions_eq]
    simp [mapTurn, MapWalk.modifyCurrent, MapWalk.record, MapWalk.current, MapFrame.new,
      MapFrame.finish]
  · rw [tree.unfold_eq, Rose.size_node]
    omega

end BigCodeAnalysis.Wire
