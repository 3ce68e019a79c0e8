import BigCodeAnalysis.Vcs.Cochange

/-! What the co-change graph counts over a whole history. The weight of two paths is the
number of pairs of their entries, which is the number of commits that touch both exactly
where each of these commits lists either path once. -/

namespace BigCodeAnalysis.Vcs

variable {P : Type*} [DecidableEq P] {graph next : CochangeGraph P} {commit : CochangeCommit P}

/-! ### One commit -/

theorem count_ids {names : P → Option ℕ} {paths : List P} {ids : List ℕ}
    (h : List.Forall₂ (fun p a => names p = some a) paths ids)
    (hinj : ∀ p q a, names p = some a → names q = some a → p = q) {p : P} {a : ℕ}
    (hp : names p = some a) : ids.count a = paths.count p := by
  induction h with
  | nil => rfl
  | @cons q b paths ids hq _ ih =>
    rw [List.count_cons, List.count_cons, ih]
    congr 1
    by_cases hqp : q = p
    · subst hqp
      rw [hp] at hq
      cases hq
      simp
    · have hba : b ≠ a := fun h => hqp (hinj q p a (h ▸ hq) hp)
      simp [hqp, hba]

omit [DecidableEq P] in
theorem named_of_forall₂ {names : P → Option ℕ} {paths : List P} {ids : List ℕ}
    (h : List.Forall₂ (fun p a => names p = some a) paths ids) :
    (∀ p ∈ paths, ∃ a, names p = some a) ∧ ∀ a ∈ ids, ∃ p, names p = some a := by
  induction h with
  | nil => simp
  | @cons q b paths ids hq _ ih =>
    constructor
    · intro p hp
      rcases List.mem_cons.mp hp with rfl | hp
      · exact ⟨b, hq⟩
      · exact ih.1 p hp
    · intro a ha
      rcases List.mem_cons.mp ha with rfl | ha
      · exact ⟨q, hq⟩
      · exact ih.2 a ha

omit [DecidableEq P] in
theorem recordPairs_sound {inRecent : Bool} {ids : List ℕ} (h : graph.Sound)
    (hadded : Added inRecent (commitAdds ids) (InRange graph.long.length) graph next) :
    next.Sound := by
  have hsymm : ∀ x y, commitAdds ids x y = commitAdds ids y x := fun x y => by
    rw [commitAdds, commitAdds, Nat.mul_comm]
    simp only [eq_comm]
  have hlen := hadded.longLength
  have hkeys : ∀ {x y}, InRange graph.long.length x y → InRange next.long.length x y :=
    fun hin => ⟨hlen ▸ hin.1, hlen ▸ hin.2⟩
  refine ⟨by rw [hadded.recentLength, hlen, h.length], fun p a hp => ?_, fun x y hne => ?_,
    fun x y hne => ?_, fun x y => ?_, fun x y => ?_, fun x => ?_, hadded.recentLe h.recentLe⟩
  · rw [hadded.ids] at hp
    rw [hlen]
    exact h.valid p a hp
  · exact hkeys ((hadded.longKeys x y hne).elim id (h.longKeys x y))
  · exact hkeys ((hadded.recentKeys x y hne).elim id (h.recentKeys x y))
  · rw [hadded.long, hadded.long, h.longSymm, hsymm]
  · rw [hadded.recent, hadded.recent, h.recentSymm, hsymm]
  · rw [hadded.long, h.irrefl, commitAdds, if_pos rfl]

theorem recordCommit_sound (h : graph.Sound) (hnext : graph.recordCommit commit = some next) :
    next.Sound := by
  unfold CochangeGraph.recordCommit at hnext
  split_ifs at hnext with hadm
  · exact recordPairs_sound (internAll_spec commit.paths h).1 (recordPairs_spec hnext)
  · cases hnext
    exact h

/-- The entries of a commit that count towards a pair of paths. -/
def CochangeCommit.pairs (commit : CochangeCommit P) (p q : P) : ℕ :=
  if commit.admissible then commit.paths.count p * commit.paths.count q else 0

/-- The paths an admissible commit brings into the graph. -/
def CochangeCommit.counted (commit : CochangeCommit P) : List P :=
  if commit.admissible then commit.paths else []

/-- The graph after a history: its names, and between different paths its weights. -/
structure Counts (seen : Finset P) (long recent : P → P → ℕ) (graph : CochangeGraph P) : Prop where
  sound : graph.Sound
  interned : Interned seen graph
  long : ∀ p q, p ≠ q → graph.weight graph.long p q = long p q
  recent : ∀ p q, p ≠ q → graph.weight graph.recent p q = recent p q

omit [DecidableEq P] in
/-- A name the extension adds is of a node that had no edges. -/
theorem weight_of_extends {seen : Finset P} (h : graph.Sound) (hin : Interned seen graph)
    (hext : Extends graph next) (hinj : ∀ p q a, next.ids p = some a → next.ids q = some a → p = q)
    {p q : P} {a b : ℕ} (hp : next.ids p = some a) (hq : next.ids q = some b) :
    weightOf next.long a b = graph.weight graph.long p q ∧
    weightOf next.recent a b = graph.weight graph.recent p q := by
  have hfresh : ∀ {p a}, next.ids p = some a → graph.ids p = none → ¬ a < graph.long.length := by
    intro p a hp hnone ha
    obtain ⟨p', hp'⟩ := hin.onto a ha
    rw [hinj p p' a hp (hext.ids p' a hp'), hp'] at hnone
    cases hnone
  have hold : ∀ {p a id}, next.ids p = some a → graph.ids p = some id → id = a := by
    intro p a id hp hid
    have := hext.ids p id hid
    rw [hp] at this
    exact (Option.some_inj.mp this).symm
  have hzero : ∀ {adjacency : Adjacency},
      (∀ x y, edgeOf adjacency x y ≠ none → InRange graph.long.length x y) →
      ¬ InRange graph.long.length a b → weightOf adjacency a b = 0 := by
    intro adjacency hkeys hout
    rw [weightOf, not_not.mp (mt (hkeys a b) hout)]
    rfl
  have hlong : weightOf next.long a b = weightOf graph.long a b := by
    rw [weightOf, hext.long, weightOf]
  have hrecent : weightOf next.recent a b = weightOf graph.recent a b := by
    rw [weightOf, hext.recent, weightOf]
  rw [hlong, hrecent]
  unfold CochangeGraph.weight
  cases hgp : graph.ids p with
  | none =>
    have hout : ¬ InRange graph.long.length a b := fun hin => hfresh hp hgp hin.1
    exact ⟨hzero h.longKeys hout, hzero h.recentKeys hout⟩
  | some x =>
    cases hgq : graph.ids q with
    | none =>
      have hout : ¬ InRange graph.long.length a b := fun hin => hfresh hq hgq hin.2
      exact ⟨hzero h.longKeys hout, hzero h.recentKeys hout⟩
    | some y =>
      rw [hold hp hgp, hold hq hgq]
      exact ⟨rfl, rfl⟩

omit [DecidableEq P] in
theorem weight_of_unknown {adjacency : Adjacency} {p q : P}
    (h : graph.ids p = none ∨ graph.ids q = none) : graph.weight adjacency p q = 0 := by
  unfold CochangeGraph.weight
  rcases h with h | h
  · rw [h]
  · rw [h]
    cases graph.ids p <;> rfl

/-- The commit adds its pairs, and does not fail while the weights stay in range. -/
theorem recordCommit_counts {seen : Finset P} {long recent : P → P → ℕ}
    (h : Counts seen long recent graph)
    (hcard : (seen ∪ commit.counted.toFinset).card ≤ 2 ^ 32)
    (hbound : ∀ p q, p ≠ q → long p q + commit.pairs p q ≤ u32Max) :
    ∃ next, graph.recordCommit commit = some next ∧
      Counts (seen ∪ commit.counted.toFinset) (fun p q => long p q + commit.pairs p q)
        (fun p q => recent p q + if commit.inRecent then commit.pairs p q else 0) next := by
  unfold CochangeGraph.recordCommit CochangeCommit.counted CochangeCommit.pairs at *
  by_cases hadm : commit.admissible = true
  swap
  · simp only [hadm, Bool.false_eq_true, if_false, List.toFinset_nil, Finset.union_empty,
      Nat.add_zero, ite_self]
    exact ⟨graph, rfl, h⟩
  simp only [hadm, if_true] at hcard hbound ⊢
  obtain ⟨hsound, hext, hids⟩ := internAll_spec commit.paths h.sound
  have hin := internAll_interned commit.paths h.sound h.interned hcard
  set mid := (graph.internAll commit.paths).1 with hmid
  set ids := (graph.internAll commit.paths).2
  obtain ⟨hnamed, hused⟩ := named_of_forall₂ hids
  have hvalid : ∀ a ∈ ids, a < mid.long.length := by
    intro a ha
    obtain ⟨p, hp⟩ := hused a ha
    exact hsound.valid p a hp
  have hcount : ∀ {p q a b}, mid.ids p = some a → mid.ids q = some b → p ≠ q →
      commitAdds ids a b = commit.paths.count p * commit.paths.count q := by
    intro p q a b hp hq hpq
    have hab : a ≠ b := fun hab => hpq (hin.inj p q b (hab ▸ hp) hq)
    rw [commitAdds, if_neg hab, count_ids hids hin.inj hp, count_ids hids hin.inj hq]
  have hweight : ∀ {p q a b}, mid.ids p = some a → mid.ids q = some b → p ≠ q →
      weightOf mid.long a b = long p q ∧ weightOf mid.recent a b = recent p q := by
    intro p q a b hp hq hpq
    obtain ⟨hl, hr⟩ := weight_of_extends h.sound h.interned hext hin.inj hp hq
    exact ⟨hl.trans (h.long p q hpq), hr.trans (h.recent p q hpq)⟩
  obtain ⟨next, hnext⟩ : ∃ next,
      CochangeGraph.recordPairs commit.inRecent ids mid = some next := by
    refine recordPairs_isSome hsound.length hsound.recentLe hvalid fun x y => ?_
    by_cases hxy : x = y
    · rw [hxy, hsound.irrefl, commitAdds, if_pos rfl]
      exact Nat.zero_le _
    by_cases hrange : x < mid.long.length ∧ y < mid.long.length
    · obtain ⟨p, hp⟩ := hin.onto x hrange.1
      obtain ⟨q, hq⟩ := hin.onto y hrange.2
      have hpq : p ≠ q := by
        rintro rfl
        rw [hp] at hq
        exact hxy (Option.some_inj.mp hq)
      rw [hcount hp hq hpq, (hweight hp hq hpq).1]
      exact hbound p q hpq
    · have hzero : weightOf mid.long x y = 0 := by
        rw [weightOf, not_not.mp (mt (hsound.longKeys x y) hrange)]
        rfl
      have hnone : ids.count x * ids.count y = 0 := by
        rcases not_and_or.mp hrange with hx | hy
        · rw [List.count_eq_zero.mpr fun hmem => hx (hvalid x hmem), Nat.zero_mul]
        · rw [List.count_eq_zero.mpr fun hmem => hy (hvalid y hmem), Nat.mul_zero]
      rw [hzero, commitAdds, if_neg hxy, hnone]
      exact Nat.zero_le _
  have hadded := recordPairs_spec hnext
  -- a path without a name has neither weight nor entries
  have hunknown : ∀ {p}, mid.ids p = none → graph.ids p = none ∧ commit.paths.count p = 0 := by
    intro p hp
    constructor
    · cases hgp : graph.ids p with
      | none => rfl
      | some a =>
        rw [hext.ids p a hgp] at hp
        cases hp
    · refine List.count_eq_zero.mpr fun hmem => ?_
      obtain ⟨a, ha⟩ := hnamed p hmem
      rw [hp] at ha
      cases ha
  have hcases : ∀ p q, p ≠ q →
      (∃ a b, next.ids p = some a ∧ next.ids q = some b ∧
        commitAdds ids a b = commit.paths.count p * commit.paths.count q ∧
        weightOf mid.long a b = long p q ∧ weightOf mid.recent a b = recent p q) ∨
      ((next.ids p = none ∨ next.ids q = none) ∧
        commit.paths.count p * commit.paths.count q = 0 ∧ long p q = 0 ∧ recent p q = 0) := by
    intro p q hpq
    rw [hadded.ids]
    have hnone : (mid.ids p = none ∨ mid.ids q = none) →
        commit.paths.count p * commit.paths.count q = 0 ∧ long p q = 0 ∧ recent p q = 0 := by
      intro hor
      have hgraph : graph.ids p = none ∨ graph.ids q = none :=
        hor.imp (fun h => (hunknown h).1) fun h => (hunknown h).1
      refine ⟨?_, ?_, ?_⟩
      · rcases hor with hp | hq
        · rw [(hunknown hp).2, Nat.zero_mul]
        · rw [(hunknown hq).2, Nat.mul_zero]
      · rw [← h.long p q hpq, weight_of_unknown hgraph]
      · rw [← h.recent p q hpq, weight_of_unknown hgraph]
    cases hp : mid.ids p with
    | none => exact .inr ⟨.inl rfl, hnone (.inl hp)⟩
    | some a =>
      cases hq : mid.ids q with
      | none => exact .inr ⟨.inr rfl, hnone (.inr hq)⟩
      | some b =>
        exact .inl ⟨a, b, rfl, rfl, hcount hp hq hpq, hweight hp hq hpq⟩
  refine ⟨next, hnext, recordPairs_sound hsound hadded, ?_, fun p q hpq => ?_, fun p q hpq => ?_⟩
  · obtain ⟨hknown, hlen, honto, hinj⟩ := hin
    rw [← hadded.ids] at hknown honto hinj
    rw [← hadded.longLength] at hlen honto
    exact ⟨hknown, hlen, honto, hinj⟩
  · rcases hcases p q hpq with ⟨a, b, hp, hq, hadds, hl, -⟩ | ⟨hor, hzero, hl, -⟩
    · unfold CochangeGraph.weight
      rw [hp, hq]
      dsimp only
      rw [hadded.long, hadds, hl]
    · rw [weight_of_unknown hor, hzero, hl]
  · rcases hcases p q hpq with ⟨a, b, hp, hq, hadds, -, hr⟩ | ⟨hor, hzero, -, hr⟩
    · unfold CochangeGraph.weight
      rw [hp, hq]
      dsimp only
      rw [hadded.recent, hadds, hr]
    · rw [weight_of_unknown hor, hzero, hr, ite_self]

/-! ### A whole history -/

/-- The pairs of entries of two paths in all admissible commits. -/
def pairings (commits : List (CochangeCommit P)) (p q : P) : ℕ :=
  (commits.map fun c => c.pairs p q).sum

/-- The admissible commits that touch both paths. -/
def together (commits : List (CochangeCommit P)) (p q : P) : ℕ :=
  commits.countP fun c => c.admissible && p ∈ c.paths && q ∈ c.paths

/-- The paths the graph comes to know. -/
def pathsOf (commits : List (CochangeCommit P)) : Finset P :=
  (commits.flatMap CochangeCommit.counted).toFinset

/-- Either path stands once in each admissible commit that touches both. -/
def ListedOnce (commits : List (CochangeCommit P)) (p q : P) : Prop :=
  ∀ c ∈ commits, c.admissible = true → p ∈ c.paths → q ∈ c.paths →
    c.paths.count p = 1 ∧ c.paths.count q = 1

theorem pairings_concat (commits : List (CochangeCommit P)) (c : CochangeCommit P) (p q : P) :
    pairings (commits ++ [c]) p q = pairings commits p q + c.pairs p q := by
  simp [pairings]

/-- Each commit that touches both paths has a pair, and one only where it lists them once. -/
theorem together_le_pairings (commits : List (CochangeCommit P)) (p q : P) :
    together commits p q ≤ pairings commits p q ∧
    (pairings commits p q = together commits p q ↔ ListedOnce commits p q) := by
  induction commits with
  | nil => simp [together, pairings, ListedOnce]
  | cons c commits ih =>
    obtain ⟨hle, hiff⟩ := ih
    have hhead : ListedOnce (c :: commits) p q ↔
        (c.admissible = true → p ∈ c.paths → q ∈ c.paths →
          c.paths.count p = 1 ∧ c.paths.count q = 1) ∧ ListedOnce commits p q :=
      List.forall_mem_cons
    have hpairs : pairings (c :: commits) p q = c.pairs p q + pairings commits p q := by
      simp [pairings]
    rw [hhead, ← hiff, hpairs, together, List.countP_cons, ← together]
    by_cases hboth : c.admissible = true ∧ p ∈ c.paths ∧ q ∈ c.paths
    · obtain ⟨hadm, hp, hq⟩ := hboth
      have hcp := List.count_pos_iff.mpr hp
      have hcq := List.count_pos_iff.mpr hq
      have hpos : 1 ≤ c.paths.count p * c.paths.count q := Nat.mul_pos hcp hcq
      have hone : c.paths.count p * c.paths.count q = 1 ↔
          c.paths.count p = 1 ∧ c.paths.count q = 1 := by
        constructor
        · intro h
          exact ⟨Nat.dvd_one.mp (Dvd.intro _ h), Nat.dvd_one.mp (Dvd.intro_left _ h)⟩
        · rintro ⟨hp, hq⟩
          rw [hp, hq]
      simp only [CochangeCommit.pairs, hadm, hp, hq, decide_true, Bool.and_self, if_true,
        forall_true_left, ← hone]
      omega
    · have hnone : c.pairs p q = 0 := by
        rw [CochangeCommit.pairs]
        split_ifs with hadm
        · by_cases hp : p ∈ c.paths
          · rw [List.count_eq_zero.mpr fun hq => hboth ⟨hadm, hp, hq⟩, Nat.mul_zero]
          · rw [List.count_eq_zero.mpr hp, Nat.zero_mul]
        · rfl
      have hfalse : (c.admissible && decide (p ∈ c.paths) && decide (q ∈ c.paths)) = false := by
        refine Bool.eq_false_iff.mpr fun htrue => hboth ?_
        simp only [Bool.and_eq_true, decide_eq_true_eq] at htrue
        exact ⟨htrue.1.1, htrue.1.2, htrue.2⟩
      simp only [hnone, hfalse, Bool.false_eq_true, if_false, Nat.add_zero, Nat.zero_add]
      refine ⟨hle, ⟨fun heq => ⟨fun hadm hp hq => absurd ⟨hadm, hp, hq⟩ hboth, heq⟩, And.right⟩⟩

omit [DecidableEq P] in
theorem counts_new : Counts ∅ (fun _ _ => 0) (fun _ _ => 0) (CochangeGraph.new : CochangeGraph P)
    where
  sound := by
    refine ⟨rfl, nofun, ?_, ?_, fun _ _ => rfl, fun _ _ => rfl, fun _ => rfl, fun _ _ => le_rfl⟩
    · intro x y hne
      exact absurd rfl hne
    · intro x y hne
      exact absurd rfl hne
  interned := ⟨fun p => by simp [CochangeGraph.new], rfl, fun a ha => absurd ha (Nat.not_lt_zero a),
    nofun⟩
  long := fun _ _ _ => rfl
  recent := fun _ _ _ => rfl

theorem recordAll_sound (commits : List (CochangeCommit P)) :
    ∀ {graph}, recordAll commits = some graph → graph.Sound := by
  induction commits using List.reverseRecOn with
  | nil =>
    intro graph h
    cases h
    exact counts_new.sound
  | append_singleton commits c ih =>
    intro graph h
    rw [recordAll, List.foldlM_append] at h
    obtain ⟨mid, hmid, hlast⟩ := Option.bind_eq_some_iff.mp h
    rw [List.foldlM_cons] at hlast
    obtain ⟨last, hlast, hnil⟩ := Option.bind_eq_some_iff.mp hlast
    cases hnil
    exact recordCommit_sound (ih hmid) hlast

theorem recordAll_counts (commits : List (CochangeCommit P)) :
    (pathsOf commits).card ≤ 2 ^ 32 →
    (∀ p q, p ≠ q → pairings commits p q ≤ u32Max) →
    ∃ graph, recordAll commits = some graph ∧
      Counts (pathsOf commits) (pairings commits)
        (pairings (commits.filter CochangeCommit.inRecent)) graph := by
  induction commits using List.reverseRecOn with
  | nil => exact fun _ _ => ⟨_, rfl, counts_new⟩
  | append_singleton commits c ih =>
    intro hcard hbound
    have hpaths : pathsOf (commits ++ [c]) = pathsOf commits ∪ c.counted.toFinset := by
      rw [pathsOf, List.flatMap_append, List.toFinset_append, pathsOf]
      simp
    rw [hpaths] at hcard ⊢
    have hsum : ∀ p q, p ≠ q → pairings commits p q + c.pairs p q ≤ u32Max := by
      intro p q hpq
      rw [← pairings_concat]
      exact hbound p q hpq
    obtain ⟨mid, hmid, hcounts⟩ := ih
      ((Finset.card_le_card Finset.subset_union_left).trans hcard) fun p q hpq => by
        have := hsum p q hpq
        omega
    obtain ⟨next, hnext, hcounts⟩ := recordCommit_counts hcounts hcard hsum
    refine ⟨next, ?_, ?_⟩
    · rw [recordAll] at hmid
      rw [recordAll, List.foldlM_append, hmid]
      simp [hnext]
    · have hlong : pairings (commits ++ [c]) = fun p q => pairings commits p q + c.pairs p q := by
        funext p q
        exact pairings_concat commits c p q
      have hrecent : pairings ((commits ++ [c]).filter CochangeCommit.inRecent) = fun p q =>
          pairings (commits.filter CochangeCommit.inRecent) p q +
            if c.inRecent then c.pairs p q else 0 := by
        funext p q
        rw [List.filter_append]
        cases hc : c.inRecent with
        | true => rw [List.filter_cons_of_pos hc, List.filter_nil, pairings_concat, if_pos rfl]
        | false =>
          rw [List.filter_cons_of_neg (by simp [hc]), List.filter_nil, List.append_nil]
          rfl
      rw [hlong, hrecent]
      exact hcounts

/-- Every graph of a history is symmetric and without self edges, and its recent weights are
no larger than the long ones. The weight of two paths is the number of commits that touch
both exactly where each of them lists either path once. -/
theorem recordAll_weights (commits : List (CochangeCommit P)) :
    (∀ graph, recordAll commits = some graph → graph.Sound) ∧
    ((pathsOf commits).card ≤ 2 ^ 32 → (∀ p q, p ≠ q → pairings commits p q ≤ u32Max) →
      ∃ graph, recordAll commits = some graph ∧ ∀ p q, p ≠ q →
        (graph.weight graph.long p q = together commits p q ↔ ListedOnce commits p q) ∧
        (graph.weight graph.recent p q =
            together (commits.filter CochangeCommit.inRecent) p q ↔
          ListedOnce (commits.filter CochangeCommit.inRecent) p q)) := by
  refine ⟨fun graph h => recordAll_sound commits h, fun hcard hbound => ?_⟩
  obtain ⟨graph, hgraph, hcounts⟩ := recordAll_counts commits hcard hbound
  refine ⟨graph, hgraph, fun p q hpq => ?_⟩
  rw [hcounts.long p q hpq, hcounts.recent p q hpq]
  exact ⟨(together_le_pairings _ p q).2, (together_le_pairings _ p q).2⟩

theorem recordAll_weights_two :
    ∃ graph, recordAll [⟨[false, true], true⟩, ⟨[true, false], false⟩] = some graph ∧
      graph.weight graph.long false true =
        together [⟨[false, true], true⟩, ⟨[true, false], false⟩] false true := by
  obtain ⟨graph, hgraph, hweights⟩ := (recordAll_weights
    [⟨[false, true], true⟩, ⟨[true, false], false⟩]).2 (by decide) (by decide)
  refine ⟨graph, hgraph, ((hweights false true (by decide)).1).mpr ?_⟩
  unfold ListedOnce
  decide

/-- One commit that lists a path twice beside another one counts twice. -/
theorem recordAll_repeated :
    (recordAll [⟨[false, false, true], true⟩]).map (fun graph =>
      graph.weight graph.long false true) = some 2 ∧
    together [⟨[false, false, true], true⟩] false true = 1 := by
  constructor <;> decide

/-! ### The replay -/

section Replay

variable {Oid : Type*} (windows : Windows) (now : ℤ)

/-- The part of `fold_commit` that feeds the graph. -/
def foldCochange (touched : List (P × ℕ)) (context : FoldContext)
    (graph : Option (CochangeGraph P)) : Option (CochangeGraph P) :=
  graph.bind fun graph => graph.recordCommit ⟨touched.map Prod.fst, context.inRecent⟩

/-- The graph of a replay is that of the commits it credits. -/
theorem replay_foldCochange (events : List (CommitEvent Oid P)) :
    replay foldCochange windows now (some .new) events =
      recordAll ((replayCalls windows now events).map fun call =>
        ⟨call.1.map Prod.fst, call.2.inRecent⟩) := by
  rw [replay_eq_foldl_calls, recordAll]
  generalize (CochangeGraph.new : CochangeGraph P) = graph
  induction replayCalls windows now events generalizing graph with
  | nil => rfl
  | cons call calls ih =>
    rw [List.foldl_cons, List.map_cons, List.foldlM_cons]
    cases hcommit : graph.recordCommit ⟨call.1.map Prod.fst, call.2.inRecent⟩ with
    | some next =>
      have hcall : foldCochange call.1 call.2 (some graph) = some next := hcommit
      rw [hcall, ih next]
      rfl
    | none =>
      have hcall : foldCochange call.1 call.2 (some graph) = none := hcommit
      have hnone : ∀ calls : List (List (P × ℕ) × FoldContext),
          calls.foldl (fun folded call => foldCochange call.1 call.2 folded) none = none := by
        intro calls
        induction calls with
        | nil => rfl
        | cons call calls ih => exact ih
      rw [hcall, hnone]
      rfl

end Replay

end BigCodeAnalysis.Vcs
