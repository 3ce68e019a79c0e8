import BigCodeAnalysis.Languages.Python.Documentation
import BigCodeAnalysis.Sequences.Blocks

/-! Sphinx's doc comments: `#:` lines beside an assignment or in a block above one. Every comment
is asked; a block answers at its last line. A container's comments are read as the blocks of a
list, so that asking all of them credits every line of every block above an assignment, and
every comment beside one, exactly once. -/

namespace BigCodeAnalysis.Languages.Python

open Sequences Trees
open Sequences.Runs (inContext)

/-- A comment that opens with `#:`. -/
def isSphinxDocComment (node : Node) : Bool :=
  node.kind = .comment && [35, 58].isPrefixOf node.text

/-- Whether the body made of these ancestors documents a statement. -/
def documentedIn (up : List Place) (statement : Node) : Bool :=
  (bodyAttributes up).any fun attributes : Attributes => attributes.documentedBy statement

def endsBlockAboveAssignment (comment : Place) : Bool :=
  match comment.siblingsAfter.head? with
  | none => false
  | some next =>
    let below := Node.endRow comment.node + 1
    if Node.startRow next.node ≠ below || isSphinxDocComment next.node then false
    else if !pythonIsBlock next.node then documentedIn comment.ancestors next.node
    else
      -- the comment is a child of the class or function, ahead of its body
      match comment.ancestors with
      | [] => false
      | owner :: up =>
        ((next.node.children.find? Node.isNamed).filter fun first : Node =>
          first.startRow = below).any fun first : Node =>
            (ownerAttributes owner.node up).any fun attributes : Attributes =>
              attributes.documentedBy first

/-- The lines of the block just above a member of it, nearest first. -/
def blockAbove (member : Place) : List Place → List Place
  | [] => []
  | above :: before =>
    let leadsItsRow := before.head?.all fun prev : Place =>
      Node.endRow prev.node < Node.startRow above.node
    if isSphinxDocComment above.node &&
        decide (Node.endRow above.node + 1 = Node.startRow member.node) && leadsItsRow then
      above :: blockAbove above before
    else []

def creditBlock (comment : Place) : List Place :=
  comment :: blockAbove comment comment.siblingsBefore

/-- The lines credited when a comment is asked about. -/
def sphinxLines (comment : Place) : List Place :=
  if isSphinxDocComment comment.node then
    let documents :=
      match comment.siblingsBefore.head? with
      | some statement =>
        if Node.endRow statement.node ≥ Node.startRow comment.node then
          documentedIn comment.ancestors statement.node
        else endsBlockAboveAssignment comment
      | none => endsBlockAboveAssignment comment
    if documents then creditBlock comment else []
  else []

def pythonSphinxDocComment (comment : Place) : List (ℕ × ℕ) :=
  (sphinxLines comment).map fun line : Place => (Node.startRow line.node, Node.endRow line.node)

/-- Siblings as the parser gives them: in the order of their rows, and nothing on its row after
a comment. -/
structure Siblings where
  container : Place
  rows : ∀ node : Node, node ∈ container.node.children → node.startRow ≤ node.endRow
  ordered : container.node.children.Pairwise fun a b : Node => a.endRow ≤ b.startRow
  endsRow : container.node.children.Pairwise fun a b : Node =>
    a.kind = .comment → a.endRow < b.startRow

namespace Siblings

variable (siblings : Siblings)

def places : List Place := siblings.container.children

/-- A place's body documents it. -/
def documented (place : Place) : Bool := documentedIn place.ancestors place.node

/-- Nothing before a place reaches its row. -/
def LeadsItsRow (place : Place) : Prop :=
  ∀ prev ∈ place.siblingsBefore, Node.endRow prev.node < Node.startRow place.node

/-- The next sibling is a `#:` line on the row below, which is asked instead. -/
def Defers (comment : Place) : Prop :=
  LeadsItsRow comment ∧ ∃ next : Place, comment.siblingsAfter.head? = some next ∧
    Node.startRow next.node = Node.endRow comment.node + 1 ∧
    isSphinxDocComment next.node = true

/-- The assignment that a row starts with where a place starts: the place, or where it is a
body, the first statement in it. -/
def StartsAssignment (place : Place) : Prop :=
  if pythonIsBlock place.node then
    ∃ first : Place, place.children.find? (fun c : Place => Node.isNamed c.node) = some first ∧
      Node.startRow first.node = Node.startRow place.node ∧ documented first = true
  else documented place = true

/-- From this row on there are rows led by `#:` comments, then one that starts with an
assignment its body documents. -/
inductive Followed : ℕ → Prop where
  | assignment (place : Place) (hmem : place ∈ siblings.places) (hleads : LeadsItsRow place)
      (hstarts : StartsAssignment place) : Followed (Node.startRow place.node)
  | line (comment : Place) (hmem : comment ∈ siblings.places)
      (hsphinx : isSphinxDocComment comment.node = true) (hleads : LeadsItsRow comment)
      (hbelow : Followed (Node.endRow comment.node + 1)) : Followed (Node.startRow comment.node)

/-- A `#:` comment on the row where the statement right before it ends, its body documents that
statement; or one that leads its row, in a block above an assignment. -/
inductive Credited (comment : Place) : Prop where
  | beside (statement : Place) (hbefore : comment.siblingsBefore.head? = some statement)
      (hrow : Node.endRow statement.node = Node.startRow comment.node)
      (hdocumented : documented statement = true)
  | above (hleads : LeadsItsRow comment) (hfollowed : siblings.Followed (Node.endRow comment.node + 1))

end Siblings

namespace Siblings

open Sequences.Blocks (leads linesAbove followed endsAbove collected counted)

variable (siblings : Siblings)

/-! ### As blocks of a list -/

def line (place : Place) : Bool := isSphinxDocComment place.node

def shares (prev place : Place) : Bool := Node.endRow prev.node ≥ Node.startRow place.node

def below (place next : Place) : Bool := Node.startRow next.node = Node.endRow place.node + 1

/-- What the way down from a comment asks of the next sibling. -/
def starts (next : Place) : Bool :=
  if pythonIsBlock next.node then
    ((next.node.children.find? Node.isNamed).filter fun first : Node =>
      first.startRow = Node.startRow next.node).any fun first : Node =>
        (ownerAttributes siblings.container.node siblings.container.ancestors).any
          fun attributes : Attributes => attributes.documentedBy first
  else documented next

theorem not_shares_of_below (prev place : Place) (h : below prev place = true) :
    shares prev place = false := by
  simp only [below, shares, decide_eq_true_eq, decide_eq_false_iff_not] at h ⊢
  omega

theorem blockAbove_eq (member : Place) (before : List Place) :
    blockAbove member before = linesAbove line shares below member before := by
  induction before generalizing member with
  | nil => rfl
  | cons above before ih =>
    rw [blockAbove, linesAbove, ih]
    congr 2
    have hrow : decide (Node.endRow above.node + 1 = Node.startRow member.node) =
        below above member := by
      rw [below]
      exact decide_eq_decide.mpr eq_comm
    rw [hrow, leads]
    cases before with
    | nil => simp [line]
    | cons prev before =>
      have hfirst : decide (Node.endRow prev.node < Node.startRow above.node) =
          !shares prev above := by
        rw [shares, ← decide_not]
        exact decide_eq_decide.mpr Nat.not_le.symm
      simp [line, hfirst]

variable {siblings}

theorem documented_eq {place : Place} (h : place ∈ siblings.places) :
    documented place =
      documentedIn (siblings.container :: siblings.container.ancestors) place.node := by
  rw [documented, Cursor.ancestors_of_mem_children h]

theorem mem_of_split {us after : List Place} {c : Place}
    (hsplit : siblings.places = us ++ c :: after) : c ∈ siblings.places := by
  simp [hsplit]

theorem endsBlockAboveAssignment_eq {us after : List Place} {c : Place}
    (hsplit : siblings.places = us ++ c :: after) :
    endsBlockAboveAssignment c = endsAbove line siblings.starts below c after := by
  rw [endsBlockAboveAssignment, (Cursor.siblings_of_split hsplit).2]
  cases after with
  | nil => rfl
  | cons next after =>
    have hnext : next ∈ siblings.places := by simp [hsplit]
    have hancestors := Cursor.ancestors_of_mem_children (mem_of_split hsplit)
    by_cases hrow : Node.startRow next.node = Node.endRow c.node + 1
    · cases hsphinx : isSphinxDocComment next.node
      · cases hblock : pythonIsBlock next.node
        · simp [endsAbove, below, line, starts, hrow, hsphinx, hblock, documented_eq hnext,
            hancestors]
        · simp [endsAbove, below, line, starts, hrow, hsphinx, hblock, hancestors]
      · simp [endsAbove, line, hsphinx]
    · simp [endsAbove, below, hrow]

theorem sphinxLines_eq {us after : List Place} {c : Place}
    (hsplit : siblings.places = us ++ c :: after) :
    sphinxLines c =
      collected line siblings.starts documented shares below us.reverse c after := by
  have hbefore := (Cursor.siblings_of_split hsplit).1
  have hancestors := Cursor.ancestors_of_mem_children (mem_of_split hsplit)
  rw [sphinxLines, collected, creditBlock, blockAbove_eq, endsBlockAboveAssignment_eq hsplit,
    hbefore]
  cases hprev : us.reverse with
  | nil =>
    simp only [line, leads, List.head?_nil, Option.any_none, Bool.not_false, if_true]
    rfl
  | cons prev earlier =>
    have hmem : prev ∈ siblings.places := by
      have hin : prev ∈ us := List.mem_reverse.mp (by simp [hprev])
      simp [hsplit, hin]
    by_cases hrow : Node.endRow prev.node ≥ Node.startRow c.node
    · simp [line, leads, shares, hrow, documented_eq hmem, hancestors]
    · simp [line, leads, shares, hrow]

/-! ### Rows -/

theorem ordered_places : siblings.places.Pairwise fun a b : Place =>
    Node.endRow a.node ≤ Node.startRow b.node := by
  have hordered := siblings.ordered
  rw [← Cursor.map_node_children] at hordered
  exact List.pairwise_map.mp hordered

theorem endsRow_places : siblings.places.Pairwise fun a b : Place =>
    Node.kind a.node = .comment → Node.endRow a.node < Node.startRow b.node := by
  have hendsRow := siblings.endsRow
  rw [← Cursor.map_node_children] at hendsRow
  exact List.pairwise_map.mp hendsRow

theorem startRow_le_endRow {place : Place} (h : place ∈ siblings.places) :
    Node.startRow place.node ≤ Node.endRow place.node :=
  siblings.rows _ (Cursor.node_mem_of_mem_children h)

/-- The nearest sibling before reaches furthest. -/
theorem leads_iff {us after : List Place} {c : Place}
    (hsplit : siblings.places = us ++ c :: after) :
    leads shares us.reverse c = true ↔ LeadsItsRow c := by
  rw [LeadsItsRow, (Cursor.siblings_of_split hsplit).1]
  have hordered := siblings.ordered_places
  rw [hsplit] at hordered
  have hus := (List.pairwise_append.mp hordered).1
  rw [← List.reverse_reverse us, List.pairwise_reverse] at hus
  cases hprev : us.reverse with
  | nil => simp [leads]
  | cons prev earlier =>
    rw [hprev, List.pairwise_cons] at hus
    have hmem : prev ∈ siblings.places := by
      have hin : prev ∈ us := List.mem_reverse.mp (by simp [hprev])
      simp [hsplit, hin]
    have hle := startRow_le_endRow hmem
    simp only [leads, List.head?_cons, Option.any_some, shares, Bool.not_eq_true',
      decide_eq_false_iff_not, List.mem_cons, forall_eq_or_imp]
    constructor
    · intro h
      refine ⟨by omega, fun p hp => ?_⟩
      have hp := hus.1 p hp
      omega
    · rintro ⟨h, -⟩
      omega

/-- A place that leads the row after a comment is the next sibling. -/
theorem next_of_leads {us after : List Place} {c place : Place}
    (hsplit : siblings.places = us ++ c :: after) (hcomment : Node.kind c.node = .comment)
    (hmem : place ∈ siblings.places) (hleads : LeadsItsRow place)
    (hrow : Node.startRow place.node = Node.endRow c.node + 1) :
    ∃ later, after = place :: later := by
  have hc := startRow_le_endRow (mem_of_split hsplit)
  have hplace := startRow_le_endRow hmem
  have hordered := siblings.ordered_places
  have hendsRow := siblings.endsRow_places
  rw [hsplit] at hordered hendsRow hmem
  rcases List.mem_append.mp hmem with hin | hin
  · have hbefore := (List.pairwise_append.mp hordered).2.2 place hin c List.mem_cons_self
    omega
  · rcases List.mem_cons.mp hin with rfl | hin
    · omega
    · obtain ⟨vs, later, rfl⟩ := List.append_of_mem hin
      cases vs with
      | nil => exact ⟨later, rfl⟩
      | cons v vs =>
        have hv : v ∈ siblings.places := by simp [hsplit]
        have hafter := (List.pairwise_append.mp hendsRow).2.1
        have hcv := (List.pairwise_cons.mp hafter).1 v (by simp) hcomment
        have hvv := startRow_le_endRow hv
        have hsplitPlace : siblings.places = (us ++ c :: v :: vs) ++ place :: later := by
          rw [hsplit]
          simp
        have hvplace := hleads v (by
          rw [(Cursor.siblings_of_split hsplitPlace).1]
          simp)
        omega

/-! ### The assignment below a block -/

theorem bodyAttributes_block {block owner : Place} {up : List Place}
    (h : pythonIsBlock block.node = true) :
    bodyAttributes (block :: owner :: up) = ownerAttributes owner.node up := by
  have hkind : ¬ Node.kind block.node = .module := by
    intro hkind
    simp [pythonIsBlock, hkind] at h
  rw [bodyAttributes, if_neg hkind]
  exact if_pos h

/-- The way down to the first statement of a body asks what the body itself would. -/
theorem starts_iff {place : Place} (hmem : place ∈ siblings.places) :
    siblings.starts place = true ↔ StartsAssignment place := by
  rw [starts, StartsAssignment]
  by_cases hblock : pythonIsBlock place.node = true
  · have hfind : place.node.children.find? Node.isNamed =
        (place.children.find? fun c : Place => Node.isNamed c.node).map Cursor.node := by
      rw [← Cursor.map_node_children, List.find?_map]
      rfl
    rw [if_pos hblock, if_pos hblock, hfind]
    cases hfirst : place.children.find? fun c : Place => Node.isNamed c.node with
    | none => simp
    | some first =>
      have hancestors : first.ancestors =
          place :: siblings.container :: siblings.container.ancestors := by
        rw [Cursor.ancestors_of_mem_children (List.mem_of_find?_eq_some hfirst),
          Cursor.ancestors_of_mem_children hmem]
      have hdocumented : documented first =
          (ownerAttributes siblings.container.node siblings.container.ancestors).any
            fun attributes : Attributes => attributes.documentedBy first.node := by
        rw [documented, hancestors, documentedIn, bodyAttributes_block hblock]
      by_cases hrow : Node.startRow first.node = Node.startRow place.node
      · simp [hrow, hdocumented, Option.filter]
      · simp [hrow, Option.filter]
  · rw [if_neg hblock, if_neg hblock]

theorem not_comment_of_documented {place : Place} (h : documented place = true) :
    Node.kind place.node ≠ .comment := by
  intro hkind
  obtain ⟨attributes, -, h⟩ := (Option.any_eq_true ..).mp h
  simp [Attributes.documentedBy, assignmentTarget, hkind] at h

theorem not_line_of_startsAssignment {place : Place} (h : StartsAssignment place) :
    line place = false := by
  have hkind : Node.kind place.node ≠ .comment := by
    rw [StartsAssignment] at h
    split at h
    · next hblock =>
      intro hkind
      simp [pythonIsBlock, hkind] at hblock
    · exact not_comment_of_documented h
  simp [line, isSphinxDocComment, hkind]

theorem comment_of_line {place : Place} (h : line place = true) :
    Node.kind place.node = .comment := by
  simp only [line, isSphinxDocComment, Bool.and_eq_true, decide_eq_true_eq] at h
  exact h.1

/-! ### The rows of a block -/

theorem followed_of_followed {us after : List Place} {c : Place}
    (hsplit : siblings.places = us ++ c :: after)
    (h : followed line siblings.starts below c after = true) :
    siblings.Followed (Node.endRow c.node + 1) := by
  induction after generalizing us c with
  | nil => cases h
  | cons next after ih =>
    rw [followed, Bool.and_eq_true] at h
    obtain ⟨hbelow, hnext⟩ := h
    have hrow : Node.startRow next.node = Node.endRow c.node + 1 := by simpa [below] using hbelow
    have hsplitNext : siblings.places = (us ++ [c]) ++ next :: after := by simp [hsplit]
    have hmem := mem_of_split hsplitNext
    have hleads : LeadsItsRow next := by
      rw [← leads_iff hsplitNext]
      simp [leads, not_shares_of_below c next hbelow]
    rw [← hrow]
    split at hnext
    · next hline => exact .line next hmem hline hleads (ih hsplitNext hnext)
    · exact .assignment next hmem hleads ((starts_iff hmem).mp hnext)

theorem followed_of_Followed {row : ℕ} (h : siblings.Followed row) :
    ∀ {us after : List Place} {c : Place}, siblings.places = us ++ c :: after →
      line c = true → Node.endRow c.node + 1 = row →
      followed line siblings.starts below c after = true := by
  induction h with
  | assignment place hmem hleads hstarts =>
    intro us after c hsplit hline hrow
    obtain ⟨later, rfl⟩ := next_of_leads hsplit (comment_of_line hline) hmem hleads hrow.symm
    simp [followed, below, hrow, not_line_of_startsAssignment hstarts, (starts_iff hmem).mpr hstarts]
  | line comment hmem hsphinx hleads _ ih =>
    intro us after c hsplit hline hrow
    obtain ⟨later, rfl⟩ := next_of_leads hsplit (comment_of_line hline) hmem hleads hrow.symm
    have hsplitComment : siblings.places = (us ++ [c]) ++ comment :: later := by simp [hsplit]
    have hbelow := ih hsplitComment hsphinx rfl
    simp [followed, below, line, hrow, hsphinx, hbelow]

/-! ### Every comment asked -/

theorem flatMap_sphinxLines : siblings.places.flatMap sphinxLines =
    inContext (collected line siblings.starts documented shares below) [] siblings.places := by
  have hfilter : siblings.places.filter (fun _ => true) = siblings.places :=
    List.filter_eq_self.mpr fun _ _ => rfl
  rw [← hfilter, ← Runs.flatMap_eq_inContext, hfilter]
  intro us c after hsplit
  rw [if_pos rfl, sphinxLines_eq hsplit, List.filter_eq_self.mpr fun _ _ => rfl,
    List.filter_eq_self.mpr fun _ _ => rfl]

theorem mem_counted {us after : List Place} {b c : Place}
    (hsplit : siblings.places = us ++ c :: after) :
    b ∈ counted line siblings.starts documented shares below us.reverse c after ↔
      b = c ∧ isSphinxDocComment c.node = true ∧ siblings.Credited c := by
  have hbefore := (Cursor.siblings_of_split hsplit).1
  have hanswer : line c = true →
      ((if leads shares us.reverse c then followed line siblings.starts below c after
        else us.reverse.head?.any documented) = true ↔ siblings.Credited c) := by
    intro hline
    by_cases hleads : leads shares us.reverse c = true
    · rw [if_pos hleads]
      have hplace := (leads_iff hsplit).mp hleads
      constructor
      · exact fun h => .above hplace (followed_of_followed hsplit h)
      · rintro (⟨statement, hhead, hrow, -⟩ | ⟨-, hfollowed⟩)
        · have hlt := hplace statement (List.mem_of_mem_head? hhead)
          omega
        · exact followed_of_Followed hfollowed hsplit hline rfl
    · rw [if_neg hleads, ← hbefore]
      constructor
      · intro h
        obtain ⟨statement, hhead, hdocumented⟩ := (Option.any_eq_true ..).mp h
        refine .beside statement hhead ?_ hdocumented
        have hin : statement ∈ us := by
          rw [hbefore] at hhead
          exact List.mem_reverse.mp (List.mem_of_mem_head? hhead)
        have hordered := siblings.ordered_places
        rw [hsplit] at hordered
        have hle := (List.pairwise_append.mp hordered).2.2 statement hin c List.mem_cons_self
        rw [leads, ← hbefore, hhead] at hleads
        have hge : Node.endRow statement.node ≥ Node.startRow c.node := by
          simpa [shares] using hleads
        omega
      · rintro (⟨statement, hhead, -, hdocumented⟩ | ⟨hplace, -⟩)
        · rw [hhead]
          exact hdocumented
        · exact absurd ((leads_iff hsplit).mpr hplace) hleads
  rw [counted]
  by_cases hline : line c = true
  · rw [hline, Bool.true_and]
    have hsphinx : isSphinxDocComment c.node = true := hline
    by_cases h : siblings.Credited c
    · rw [if_pos ((hanswer hline).mpr h)]
      simp [hsphinx, h]
    · rw [if_neg fun hc => h ((hanswer hline).mp hc)]
      simp [h]
  · have hsphinx : ¬ isSphinxDocComment c.node = true := hline
    simp [hline, hsphinx]

theorem defers_iff {us after : List Place} {c : Place}
    (hsplit : siblings.places = us ++ c :: after) : Defers c ↔ LeadsItsRow c ∧
      (after.head?.any fun next => below c next && line next) = true := by
  rw [Defers, (Cursor.siblings_of_split hsplit).2]
  cases after <;> simp [below, line]

/-- The line that decides the block a line is in. -/
theorem exists_deciding {c : Place} (hmem : c ∈ siblings.places)
    (hsphinx : isSphinxDocComment c.node = true) (hdefers : Defers c) :
    ∃ d ∈ c.siblingsAfter, isSphinxDocComment d.node = true ∧ ¬ Defers d ∧
      (c ∈ sphinxLines d ∨
        ¬ siblings.Followed (Node.endRow c.node + 1) ∧ sphinxLines d = []) := by
  have hline : line c = true := hsphinx
  obtain ⟨before, after, hsplit⟩ := List.append_of_mem hmem
  obtain ⟨hleads, hgoes⟩ := (defers_iff hsplit).mp hdefers
  obtain ⟨us, d, later, hdown, hlines, hlast, vs, hcollected⟩ :
      ∃ us d later, c :: after = us ++ d :: later ∧ (∀ y ∈ us ++ [d], line y = true) ∧
        (later.head?.any fun next => below d next && line next) = false ∧
        ∃ vs, collected line siblings.starts documented shares below (us.reverse ++ before.reverse)
          d later = if followed line siblings.starts below c after then
            vs ++ c :: linesAbove line shares below c before.reverse else [] :=
    Blocks.exists_collected not_shares_of_below before.reverse c after hline
      ((leads_iff hsplit).mpr hleads)
  have hsplitLast : siblings.places = (before ++ us) ++ d :: later := by
    rw [hsplit, hdown, List.append_assoc]
  have hd : isSphinxDocComment d.node = true := hlines d (by simp)
  have hstays : ¬ Defers d := by
    intro h
    rw [((defers_iff hsplitLast).mp h).2] at hlast
    cases hlast
  rw [← List.reverse_append, ← sphinxLines_eq hsplitLast] at hcollected
  refine ⟨d, ?_, hd, hstays, ?_⟩
  · rw [(Cursor.siblings_of_split hsplit).2]
    cases us with
    | nil =>
      obtain ⟨rfl, rfl⟩ := List.cons.inj hdown
      exact absurd hdefers hstays
    | cons x us =>
      rw [(List.cons.inj hdown).2]
      simp
  · by_cases hfollowed : followed line siblings.starts below c after = true
    · left
      rw [hcollected, if_pos hfollowed]
      simp
    · right
      refine ⟨fun h => hfollowed (followed_of_Followed h hsplit hline rfl), ?_⟩
      rw [hcollected, if_neg hfollowed]

/-- Asked about every comment, the code credits each `#:` comment beside or above an assignment
once and nothing else; and a line that leaves the answer to the next one is credited where its
block is decided, unless the block is above nothing. -/
theorem sphinx_comments_credited (siblings : Siblings) :
    (siblings.places.flatMap sphinxLines).Nodup ∧
    (∀ c : Place, c ∈ siblings.places.flatMap sphinxLines ↔
      c ∈ siblings.places ∧ isSphinxDocComment c.node = true ∧ siblings.Credited c) ∧
    ∀ c ∈ siblings.places, isSphinxDocComment c.node = true → Defers c →
      ∃ d ∈ c.siblingsAfter, isSphinxDocComment d.node = true ∧ ¬ Defers d ∧
        (c ∈ sphinxLines d ∨
          ¬ siblings.Followed (Node.endRow c.node + 1) ∧ sphinxLines d = []) := by
  have hperm : (siblings.places.flatMap sphinxLines).Perm
      (inContext (counted line siblings.starts documented shares below) [] siblings.places) := by
    rw [flatMap_sphinxLines]
    exact Blocks.collected_perm not_shares_of_below siblings.places
  refine ⟨?_, fun c => ?_, fun c hmem hsphinx hdefers => exists_deciding hmem hsphinx hdefers⟩
  · exact hperm.nodup_iff.mpr ((Blocks.inContext_counted_sublist [] _).nodup Cursor.nodup_children)
  · rw [hperm.mem_iff, Runs.mem_inContext]
    constructor
    · rintro ⟨us, x, after, hsplit, hx⟩
      rw [List.append_nil] at hx
      obtain ⟨rfl, h⟩ := (mem_counted hsplit).mp hx
      exact ⟨mem_of_split hsplit, h⟩
    · rintro ⟨hmem, h⟩
      obtain ⟨us, after, hsplit⟩ := List.append_of_mem hmem
      refine ⟨us, c, after, hsplit, ?_⟩
      rw [List.append_nil]
      exact (mem_counted hsplit).mpr ⟨rfl, h⟩

/-- The siblings of `x = 1; f()  #: y`. -/
def besideCall : Siblings where
  container :=
    let leaf (kind : Kind) (start stop : ℕ) (text : List UInt8) : Node :=
      .node ⟨⟨start, kind, start, stop, 0, 0, text⟩, none⟩ []
    let target : Node := .node ⟨⟨20, .identifier, 0, 1, 0, 0, [120]⟩, some "left"⟩ []
    let assignment : Node := .node ⟨⟨21, .assignment, 0, 5, 0, 0, []⟩, none⟩
      [target, leaf .eq 2 3 [61], leaf (.other 1 true) 4 5 [49]]
    .new (.node ⟨⟨22, .module, 0, 16, 0, 0, []⟩, none⟩
      [.node ⟨⟨23, .expressionStatement, 0, 5, 0, 0, []⟩, none⟩ [assignment],
        leaf (.other 2 false) 5 6 [59],
        .node ⟨⟨24, .expressionStatement, 7, 10, 0, 0, []⟩, none⟩
          [leaf (.other 3 true) 7 10 [102, 40, 41]],
        leaf .comment 12 16 [35, 58, 32, 121]])
  rows := by decide
  ordered := by decide
  endsRow := by decide

/-- A comment on the row where an assignment ends, with a call between them, is not credited. -/
theorem not_credited_beside_call :
    ∃ statement ∈ besideCall.places, ∃ comment ∈ besideCall.places,
      documented statement = true ∧ isSphinxDocComment comment.node = true ∧
      Node.endRow statement.node = Node.startRow comment.node ∧
      statement ∈ comment.siblingsBefore ∧
      comment ∉ besideCall.places.flatMap sphinxLines := by
  have hnone : besideCall.places.flatMap sphinxLines = [] := by rfl
  refine ⟨_, List.mem_cons_self, _, List.mem_cons_of_mem _ (List.mem_cons_of_mem _
    (List.mem_cons_of_mem _ List.mem_cons_self)), by rfl, by rfl, by rfl, ?_, ?_⟩
  · exact List.mem_cons_of_mem _ (List.mem_cons_of_mem _ List.mem_cons_self)
  · rw [hnone]
    exact List.not_mem_nil

end Siblings

end BigCodeAnalysis.Languages.Python
