import Mathlib.Data.Finset.Dedup
import Mathlib.Data.List.Dedup
import Mathlib.Data.List.Sort
import Mathlib.Data.List.Perm.Basic
import Mathlib.Logic.Relation

/-! Directed graphs as lists of edges: their strongly connected components, topological orders, what
is reachable once each component is one node, and closures gathered against a topological order. -/

namespace BigCodeAnalysis.Graphs

open Relation (ReflTransGen TransGen)

variable {ι κ : Type*}

def Edge (edges : List (ι × ι)) (a b : ι) : Prop := (a, b) ∈ edges

abbrev Reach (edges : List (ι × ι)) : ι → ι → Prop := ReflTransGen (Edge edges)

/-- Both ends of every edge are nodes. -/
def Closed (nodes : List ι) (edges : List (ι × ι)) : Prop :=
  ∀ edge ∈ edges, edge.1 ∈ nodes ∧ edge.2 ∈ nodes

def Acyclic (edges : List (ι × ι)) : Prop := ∀ a, ¬ TransGen (Edge edges) a a

/-! ### Reachability -/

theorem reach_cons {x y : ι} {edges : List (ι × ι)} {a b : ι} :
    Reach ((x, y) :: edges) a b ↔ Reach edges a b ∨ (Reach edges a x ∧ Reach edges y b) := by
  have hmono {c d : ι} (h : Reach edges c d) : Reach ((x, y) :: edges) c d :=
    h.lift id fun _ _ hedge => List.mem_cons_of_mem _ hedge
  constructor
  · intro h
    induction h with
    | refl => exact .inl .refl
    | tail _ hedge ih =>
      rcases List.mem_cons.mp hedge with heq | hedge
      · cases heq
        rcases ih with h | ⟨h, -⟩
        · exact .inr ⟨h, .refl⟩
        · exact .inr ⟨h, .refl⟩
      · exact ih.imp (fun h => h.tail hedge) fun h => ⟨h.1, h.2.tail hedge⟩
  · rintro (h | ⟨hbefore, hbehind⟩)
    · exact hmono h
    · exact ((hmono hbefore).tail List.mem_cons_self).trans (hmono hbehind)

section Reaches
variable [DecidableEq ι]

/-- With one edge more: as before, or over that edge. -/
def reaches : List (ι × ι) → ι → ι → Bool
  | [], a, b => a = b
  | (x, y) :: edges, a, b => reaches edges a b || (reaches edges a x && reaches edges y b)

theorem reaches_iff {edges : List (ι × ι)} {a b : ι} :
    reaches edges a b = true ↔ Reach edges a b := by
  induction edges generalizing a b with
  | nil =>
    rw [reaches, decide_eq_true_iff]
    constructor
    · rintro rfl
      exact .refl
    · intro h
      induction h with
      | refl => rfl
      | tail _ hedge => exact absurd hedge List.not_mem_nil
  | cons edge edges ih =>
    rw [reaches, Bool.or_eq_true, Bool.and_eq_true, ih, ih, ih, reach_cons]

instance (edges : List (ι × ι)) (a b : ι) : Decidable (Reach edges a b) :=
  decidable_of_iff _ reaches_iff

end Reaches

theorem mem_of_reach {nodes : List ι} {edges : List (ι × ι)} (h : Closed nodes edges) {a b : ι}
    (ha : a ∈ nodes) (hreach : Reach edges a b) : b ∈ nodes := by
  induction hreach with
  | refl => exact ha
  | tail _ hedge => exact (h _ hedge).2

/-! ### Components -/

/-- Each node is in one component, with the nodes it reaches that reach it. -/
structure IsScc (nodes : List ι) (edges : List (ι × ι)) (components : List (List ι)) : Prop where
  perm : components.flatten.Perm nodes
  linked : ∀ component ∈ components, ∀ a ∈ component, ∀ b ∈ nodes,
    b ∈ component ↔ Reach edges a b ∧ Reach edges b a

/-- Each node before its successors; nothing only if there is a cycle. -/
structure IsToposort (nodes : List ι) (edges : List (ι × ι)) (order : Option (List ι)) :
    Prop where
  perm : ∀ l ∈ order, l.Perm nodes
  before : ∀ l ∈ order, ∀ pre a post, l = pre ++ a :: post → ∀ b, Edge edges a b → b ∈ post
  cyclic : order = none → ¬ Acyclic edges

/-! ### Classes -/

/-- The things with `P`, in lists of all that are linked by `E`. -/
structure IsClasses (P : ι → Prop) (E : ι → ι → Prop) (classes : List (List ι)) : Prop where
  nodup : classes.flatten.Nodup
  nonempty : ∀ c ∈ classes, c ≠ []
  mem : ∀ a, a ∈ classes.flatten ↔ P a
  linked : ∀ c ∈ classes, ∀ a ∈ c, ∀ b, b ∈ c ↔ E a b

section Classes
variable {P : ι → Prop} {E : ι → ι → Prop} {classes classes' : List (List ι)}

theorem IsClasses.exists_same (h : IsClasses P E classes) (h' : IsClasses P E classes')
    {c : List ι} (hc : c ∈ classes) : ∃ d ∈ classes', ∀ b, b ∈ d ↔ b ∈ c := by
  obtain ⟨a, ha⟩ := List.exists_mem_of_ne_nil c (h.nonempty c hc)
  have hP : P a := (h.mem a).mp (List.mem_flatten.mpr ⟨c, hc, ha⟩)
  obtain ⟨d, hd, had⟩ := List.mem_flatten.mp ((h'.mem a).mpr hP)
  exact ⟨d, hd, fun b => (h'.linked d hd a had b).trans (h.linked c hc a ha b).symm⟩

variable [DecidableEq ι]

theorem IsClasses.nodup_sets (h : IsClasses P E classes) : (classes.map List.toFinset).Nodup := by
  rw [List.Nodup, List.pairwise_map]
  refine (List.nodup_flatten.mp h.nodup).2.imp_of_mem fun {c d} hc _ hdisjoint heq => ?_
  obtain ⟨a, ha⟩ := List.exists_mem_of_ne_nil c (h.nonempty c hc)
  exact hdisjoint ha (List.mem_toFinset.mp (heq ▸ List.mem_toFinset.mpr ha))

/-- Classes are the same but for order, and what is listed for them is too. -/
theorem IsClasses.perm_flatMap (h : IsClasses P E classes) (h' : IsClasses P E classes')
    {α : Type*} {f : List ι → List α} (hf : ∀ c d, c.Perm d → (f c).Perm (f d)) :
    (classes.flatMap f).Perm (classes'.flatMap f) := by
  have hsets : (classes.map List.toFinset).Perm (classes'.map List.toFinset) := by
    refine (List.perm_ext_iff_of_nodup h.nodup_sets h'.nodup_sets).mpr fun s => ?_
    rw [List.mem_map, List.mem_map]
    constructor
    · rintro ⟨c, hc, rfl⟩
      obtain ⟨d, hd, hsame⟩ := h.exists_same h' hc
      exact ⟨d, hd, Finset.ext fun b => by rw [List.mem_toFinset, List.mem_toFinset, hsame]⟩
    · rintro ⟨c, hc, rfl⟩
      obtain ⟨d, hd, hsame⟩ := h'.exists_same h hc
      exact ⟨d, hd, Finset.ext fun b => by rw [List.mem_toFinset, List.mem_toFinset, hsame]⟩
  have hlist {cs : List (List ι)} (hcs : IsClasses P E cs) :
      (cs.flatMap f).Perm ((cs.map List.toFinset).flatMap fun s => f s.toList) := by
    rw [List.flatMap_map]
    refine List.Perm.flatMap_left _ fun c hc => hf _ _ ?_
    exact (List.toFinset_toList ((List.nodup_flatten.mp hcs.nodup).1 c hc)).symm
  exact ((hlist h).trans (hsets.flatMap_right _)).trans (hlist h').symm

end Classes

/-! ### One node for a component -/

section Quotient
variable {R : ι → ι → Prop} {S : κ → κ → Prop} {P : ι → Prop} {f : ι → κ}

/-- A map along which steps go both ways keeps what is reachable, if what it identifies is linked
already. -/
theorem reach_quotient (hnodes : ∀ a b, R a b → P a ∧ P b)
    (hstep : ∀ a b, R a b → f a = f b ∨ S (f a) (f b))
    (hlift : ∀ x y, S x y → ∃ a b, R a b ∧ f a = x ∧ f b = y)
    (hlinked : ∀ a b, P a → P b → f a = f b → ReflTransGen R a b) {a b : ι} (ha : P a)
    (hb : P b) : ReflTransGen S (f a) (f b) ↔ ReflTransGen R a b := by
  constructor
  · intro h
    have hall : ∀ y, ReflTransGen S (f a) y → ∀ c, P c → f c = y → ReflTransGen R a c := by
      intro y hy
      induction hy with
      | refl => exact fun c hc heq => hlinked a c ha hc heq.symm
      | tail _ hS ih =>
        intro c hc heq
        obtain ⟨d, e, hR, hd, he⟩ := hlift _ _ hS
        exact ((ih d (hnodes d e hR).1 hd).tail hR).trans
          (hlinked e c (hnodes d e hR).2 hc (he.trans heq.symm))
    exact hall _ h b hb rfl
  · intro h
    induction h with
    | refl => exact .refl
    | tail _ hR ih =>
      have hS := ih (hnodes _ _ hR).1
      rcases hstep _ _ hR with heq | hnext
      · rwa [← heq]
      · exact hS.tail hnext

/-- If it identifies all that is linked, no cycle is left. -/
theorem acyclic_quotient (hnodes : ∀ a b, R a b → P a ∧ P b)
    (hstep : ∀ a b, R a b → f a = f b ∨ S (f a) (f b))
    (hlift : ∀ x y, S x y → ∃ a b, R a b ∧ f a = x ∧ f b = y) (hne : ∀ x y, S x y → x ≠ y)
    (hlinked : ∀ a b, P a → P b → f a = f b → ReflTransGen R a b)
    (hcollapsed : ∀ a b, P a → P b → ReflTransGen R a b → ReflTransGen R b a → f a = f b) (x : κ) :
    ¬ TransGen S x x := by
  intro h
  obtain ⟨y, hfirst, hrest⟩ := TransGen.head'_iff.mp h
  obtain ⟨a, b, hR, rfl, rfl⟩ := hlift x y hfirst
  obtain ⟨ha, hb⟩ := hnodes a b hR
  have hback := (reach_quotient hnodes hstep hlift hlinked hb ha).mp hrest
  exact hne _ _ hfirst (hcollapsed a b ha hb (.single hR) hback)

end Quotient

/-! ### Closures -/

section Closures
variable {α : Type*}

/-- Nodes in an order from which each of them only leads on. -/
def Onward (edges : List (ι × ι)) : List ι → Prop
  | [] => True
  | a :: l => a ∉ l ∧ (∀ b, Edge edges a b → b ∈ l) ∧ Onward edges l

theorem onward_of_toposort {nodes l : List ι} {edges : List (ι × ι)} {order : Option (List ι)}
    (h : IsToposort nodes edges order) (hl : l ∈ order) (hnodup : nodes.Nodup) :
    Onward edges l := by
  have hl' := (h.perm l hl).nodup_iff.mpr hnodup
  have hall : ∀ pre post, l = pre ++ post → Onward edges post := by
    intro pre post heq
    induction post generalizing pre with
    | nil => trivial
    | cons a post ih =>
      have hcons : (a :: post).Nodup := (heq ▸ hl').sublist (List.sublist_append_right pre _)
      refine ⟨(List.nodup_cons.mp hcons).1, h.before l hl pre a post heq, ih (pre ++ [a]) ?_⟩
      rw [heq, List.append_assoc]
      rfl
  exact hall [] l rfl

/-- The closure of a node gathers its own items and the closures of its successors. -/
theorem mem_closures [DecidableEq ι] {edges : List (ι × ι)} {own : ι → List α}
    {gather : (ι → List α) → ι → List α}
    (hgather : ∀ closures a x, x ∈ gather closures a ↔
      x ∈ own a ∨ ∃ b, Edge edges a b ∧ x ∈ closures b) {l : List ι} (h : Onward edges l)
    {closures : ι → List α} (hclosures : closures =
      l.foldr (fun a closures => Function.update closures a (gather closures a)) fun _ => [])
    {a : ι} (ha : a ∈ l) {x : α} :
    x ∈ closures a ↔ ∃ b, Reach edges a b ∧ x ∈ own b := by
  subst hclosures
  induction l generalizing a with
  | nil => exact absurd ha List.not_mem_nil
  | cons c l ih =>
    obtain ⟨hfresh, hnext, honward⟩ := h
    rw [List.foldr_cons]
    by_cases hac : a = c
    · subst hac
      rw [Function.update_self, hgather]
      constructor
      · rintro (hx | ⟨b, hedge, hx⟩)
        · exact ⟨a, .refl, hx⟩
        · obtain ⟨d, hreach, hx⟩ := (ih honward (hnext b hedge)).mp hx
          exact ⟨d, .head hedge hreach, hx⟩
      · rintro ⟨d, hreach, hx⟩
        rcases ReflTransGen.cases_head hreach with rfl | ⟨b, hedge, hreach⟩
        · exact .inl hx
        · exact .inr ⟨b, hedge, (ih honward (hnext b hedge)).mpr ⟨d, hreach, hx⟩⟩
    · rw [Function.update_of_ne hac]
      exact ih honward ((List.mem_cons.mp ha).resolve_left hac)

end Closures

/-! ### Components and orders, computed -/

section Computed
variable [DecidableEq ι] {nodes : List ι} {edges : List (ι × ι)}

def componentOf (nodes : List ι) (edges : List (ι × ι)) (a : ι) : List ι :=
  nodes.filter fun b => reaches edges a b && reaches edges b a

theorem mem_componentOf {a b : ι} :
    b ∈ componentOf nodes edges a ↔ b ∈ nodes ∧ Reach edges a b ∧ Reach edges b a := by
  rw [componentOf, List.mem_filter, Bool.and_eq_true, reaches_iff, reaches_iff]

def componentsOf (nodes : List ι) (edges : List (ι × ι)) : List (List ι) :=
  (nodes.map (componentOf nodes edges)).dedup

theorem componentOf_congr {a b : ι} (hab : Reach edges a b) (hba : Reach edges b a) :
    componentOf nodes edges a = componentOf nodes edges b := by
  refine List.filter_congr fun c _ => ?_
  rw [Bool.eq_iff_iff, Bool.and_eq_true, Bool.and_eq_true, reaches_iff, reaches_iff, reaches_iff,
    reaches_iff]
  exact ⟨fun h => ⟨hba.trans h.1, h.2.trans hab⟩, fun h => ⟨hab.trans h.1, h.2.trans hba⟩⟩

theorem isScc_componentsOf (hnodup : nodes.Nodup) : IsScc nodes edges (componentsOf nodes edges) := by
  have hmem {c : List ι} (hc : c ∈ componentsOf nodes edges) :
      ∃ a ∈ nodes, componentOf nodes edges a = c :=
    List.mem_map.mp (List.mem_dedup.mp hc)
  refine ⟨(List.perm_ext_iff_of_nodup ?_ hnodup).mpr fun a => ?_, fun c hc a ha b hb => ?_⟩
  · refine List.nodup_flatten.mpr ⟨fun c hc => ?_, ?_⟩
    · obtain ⟨a, -, rfl⟩ := hmem hc
      exact hnodup.filter _
    · refine (List.nodup_dedup _).pairwise_of_forall_ne fun c hc d hd hne => ?_
      obtain ⟨a, -, rfl⟩ := hmem hc
      obtain ⟨b, -, rfl⟩ := hmem hd
      refine List.disjoint_left.mpr fun x hxa hxb => hne ?_
      obtain ⟨-, hax, hxa⟩ := mem_componentOf.mp hxa
      obtain ⟨-, hbx, hxb⟩ := mem_componentOf.mp hxb
      exact componentOf_congr (hax.trans hxb) (hbx.trans hxa)
  · constructor
    · intro ha
      obtain ⟨c, hc, hac⟩ := List.mem_flatten.mp ha
      obtain ⟨b, -, rfl⟩ := hmem hc
      exact (mem_componentOf.mp hac).1
    · intro ha
      exact List.mem_flatten.mpr ⟨componentOf nodes edges a,
        List.mem_dedup.mpr (List.mem_map_of_mem ha), mem_componentOf.mpr ⟨ha, .refl, .refl⟩⟩
  · obtain ⟨x, -, rfl⟩ := hmem hc
    obtain ⟨-, hxa, hax⟩ := mem_componentOf.mp ha
    rw [mem_componentOf, and_iff_right hb]
    exact ⟨fun h => ⟨hax.trans h.1, h.2.trans hxa⟩, fun h => ⟨hxa.trans h.1, h.2.trans hax⟩⟩

/-- The nodes that lead to a node. -/
def depth (nodes : List ι) (edges : List (ι × ι)) (a : ι) : ℕ :=
  nodes.countP fun b => reaches edges b a

def toposortOf (nodes : List ι) (edges : List (ι × ι)) : Option (List ι) :=
  if edges.any fun edge => reaches edges edge.2 edge.1 then none
  else some (nodes.insertionSort fun a b => depth nodes edges a ≤ depth nodes edges b)

theorem depth_lt (hclosed : Closed nodes edges) {a b : ι} (hedge : Edge edges a b)
    (hback : ¬ Reach edges b a) : depth nodes edges a < depth nodes edges b := by
  have hsub : (nodes.filter fun c => reaches edges c a).Sublist
      (nodes.filter fun c => reaches edges c b) :=
    List.monotone_filter_right nodes fun c hc =>
      reaches_iff.mpr ((reaches_iff.mp hc).tail hedge)
  have hne : nodes.filter (fun c => reaches edges c a) ≠
      nodes.filter fun c => reaches edges c b := by
    intro heq
    have hb : b ∈ nodes.filter fun c => reaches edges c b :=
      List.mem_filter.mpr ⟨(hclosed (a, b) hedge).2, reaches_iff.mpr .refl⟩
    rw [← heq, List.mem_filter, reaches_iff] at hb
    exact hback hb.2
  rw [depth, depth, List.countP_eq_length_filter, List.countP_eq_length_filter]
  exact lt_of_le_of_ne hsub.length_le fun heq => hne (hsub.eq_of_length heq)

theorem isToposort_toposortOf (hclosed : Closed nodes edges) :
    IsToposort nodes edges (toposortOf nodes edges) := by
  rw [toposortOf]
  split_ifs with hcycle
  · refine ⟨fun _ h => (nomatch h), fun _ h => (nomatch h), fun _ hacyclic => ?_⟩
    obtain ⟨⟨a, b⟩, hedge, hback⟩ := List.any_eq_true.mp hcycle
    exact hacyclic a (.head' hedge (reaches_iff.mp hback))
  · refine ⟨fun l hl => ?_, fun l hl pre a post heq b hedge => ?_, fun h => (nomatch h)⟩
    · obtain rfl := Option.some.inj hl
      exact List.perm_insertionSort _ _
    · obtain rfl := Option.some.inj hl
      have hlt : depth nodes edges a < depth nodes edges b := by
        refine depth_lt hclosed hedge fun hback => hcycle ?_
        exact List.any_eq_true.mpr ⟨(a, b), hedge, reaches_iff.mpr hback⟩
      have hb : b ∈ pre ++ a :: post := by
        rw [← heq]
        exact (List.perm_insertionSort _ _).symm.subset (hclosed (a, b) hedge).2
      have : Std.Total fun a b => depth nodes edges a ≤ depth nodes edges b :=
        ⟨fun _ _ => le_total _ _⟩
      have : IsTrans ι fun a b => depth nodes edges a ≤ depth nodes edges b :=
        ⟨fun _ _ _ => le_trans⟩
      have hsorted := List.pairwise_insertionSort
        (fun a b => depth nodes edges a ≤ depth nodes edges b) nodes
      rw [heq, List.pairwise_append] at hsorted
      rcases List.mem_append.mp hb with hpre | hpost
      · exact absurd (hsorted.2.2 b hpre a List.mem_cons_self) (Nat.not_le.mpr hlt)
      · exact (List.mem_cons.mp hpost).resolve_left fun heq => absurd hlt (heq ▸ lt_irrefl _)

end Computed

end BigCodeAnalysis.Graphs
