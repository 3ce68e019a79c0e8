import BigCodeAnalysis.Baseline.Diff
import BigCodeAnalysis.Baseline.SelfCoverage
import Mathlib.Data.List.Zip

/-! Laws of the baseline diff. The entries of both sides are grouped by symbol, each group is
sorted by value and then by line, and the two are zipped; what is left of the longer one is gone
or new. One list of pairs and two lists of leftovers therefore give the diff, and read backwards
they give the diff of the exchanged baselines. That an empty diff means equal contents follows
group by group, since groups whose pairs did not move have the same values. -/

namespace BigCodeAnalysis.Baseline

open Sequences Catalog

/-! ### The two comparisons -/

/-- The direction a metric's values are compared in. -/
def directionOf (metric : String) : Direction :=
  ((lookup metric).map (·.direction)).getD .higherIsWorse

theorem worseOrder_eq_cmp {metric : String} {new old : F64} (hnew : new.isNan = false)
    (hold : old.isNan = false) :
    worseOrder metric new old =
      some (cmp (badness (directionOf metric) new) (badness (directionOf metric) old)) := by
  rw [worseOrder, hnew, hold, directionOf]
  cases h : lookup metric with
  | none =>
    show new.partialCmp old = _
    rw [F64.partialCmp, hnew, hold, numeric_eq_cmp hnew hold]
    rfl
  | some info =>
    show some (info.cmpWorse new old) = _
    rw [MetricInfo.cmpWorse, cmpWorse_eq_cmp]
    rfl

/-- What the entries of a group are paired by. -/
def pairingRank (e : DiffEntry) : (ℕ ×ₗ ℚ) ×ₗ WithBot ℕ :=
  toLex (badness .higherIsWorse e.value, lineRank e.startLine)

theorem cmpForPairing_ne_gt_iff {a b : DiffEntry} (ha : a.value.isNan = false)
    (hb : b.value.isNan = false) :
    cmpForPairing a b ≠ .gt ↔ pairingRank a ≤ pairingRank b := by
  rw [cmpForPairing, F64.partialCmp, ha, hb, numeric_eq_cmp ha hb, pairingRank, pairingRank,
    Prod.Lex.toLex_le_toLex]
  rcases lt_trichotomy (badness .higherIsWorse a.value) (badness .higherIsWorse b.value)
    with h | h | h
  · rw [h.cmp_eq_lt]
    exact iff_of_true (fun hgt => by cases hgt) (.inl h)
  · rw [h, cmp_self_eq_eq]
    show cmp _ _ ≠ .gt ↔ _
    rw [Ne, cmp_eq_gt_iff, not_lt]
    exact ⟨fun hle => .inr ⟨rfl, hle⟩, fun hle => (hle.resolve_left (lt_irrefl _)).2⟩
  · rw [h.cmp_eq_gt]
    refine iff_of_false (fun hne => hne rfl) ?_
    rintro (hlt | ⟨heq, -⟩)
    · exact lt_asymm h hlt
    · exact h.ne' heq

theorem eq_of_pairingRank_eq {a b : DiffEntry} (hkey : a.key = b.key)
    (hrank : pairingRank a = pairingRank b) : a = b := by
  obtain ⟨path, qualified, metric, startLine, value⟩ := a
  obtain ⟨path', qualified', metric', startLine', value'⟩ := b
  simp only [DiffEntry.key, pairingRank, EmbeddingLike.apply_eq_iff_eq, Prod.mk.injEq] at hkey hrank
  obtain ⟨rfl, rfl, rfl⟩ := hkey
  obtain ⟨hvalue, rfl⟩ := hrank
  obtain rfl := badness_injective _ hvalue
  rfl

/-! ### Sorting a group -/

theorem sortForPairing_perm (l : List DiffEntry) : (sortForPairing l).Perm l :=
  List.perm_insertionSort _ _

theorem sortForPairing_sorted {l : List DiffEntry} (h : ∀ e ∈ l, e.value.isNan = false) :
    (sortForPairing l).Pairwise fun a b => pairingRank a ≤ pairingRank b := by
  have hsort : sortForPairing l = l.insertionSort fun a b => pairingRank a ≤ pairingRank b := by
    have hmap := List.map_insertionSort (fun a b => cmpForPairing a b ≠ .gt)
      (fun a b => pairingRank a ≤ pairingRank b) id l
      fun a ha b hb => cmpForPairing_ne_gt_iff (h a ha) (h b hb)
    rw [List.map_id, List.map_id] at hmap
    exact hmap
  rw [hsort]
  exact List.pairwise_insertionSort _ _

/-- The entries with a key, as they are paired. -/
def group (l : List DiffEntry) (key : SymbolKey) : List DiffEntry :=
  sortForPairing (l.filter fun e => e.key = key)

theorem group_perm (l : List DiffEntry) (key : SymbolKey) :
    (group l key).Perm (l.filter fun e => e.key = key) :=
  sortForPairing_perm _

theorem mem_group {l : List DiffEntry} {key : SymbolKey} {e : DiffEntry} :
    e ∈ group l key ↔ e ∈ l ∧ e.key = key := by
  rw [(group_perm l key).mem_iff, List.mem_filter, decide_eq_true_iff]

theorem group_sorted {l : List DiffEntry} (h : ∀ e ∈ l, e.value.isNan = false) (key : SymbolKey) :
    (group l key).Pairwise fun a b => pairingRank a ≤ pairingRank b :=
  sortForPairing_sorted fun e he => h e (List.mem_of_mem_filter he)

theorem group_congr {l l' : List DiffEntry} (h : ∀ e ∈ l, e.value.isNan = false)
    (hperm : l'.Perm l) (key : SymbolKey) : group l' key = group l key := by
  have hgroups : (group l' key).Perm (group l key) :=
    (group_perm l' key).trans ((hperm.filter _).trans (group_perm l key).symm)
  apply hgroups.eq_of_pairwise _ (group_sorted (fun e he => h e (hperm.mem_iff.mp he)) key)
    (group_sorted h key)
  intro a b ha hb hab hba
  exact eq_of_pairingRank_eq ((mem_group.mp ha).2.trans (mem_group.mp hb).2.symm)
    (le_antisymm hab hba)

/-! ### The loop over the groups -/

def groupKeys (old new : List DiffEntry) : List SymbolKey := keysOf DiffEntry.key (old ++ new)

theorem groupKeys_comm (old new : List DiffEntry) : groupKeys new old = groupKeys old new := by
  apply keysOf_congr
  intro k
  simp only [List.mem_append, or_comm]

theorem groupKeys_congr {old old' new new' : List DiffEntry} (hold : old'.Perm old)
    (hnew : new'.Perm new) : groupKeys old' new' = groupKeys old new := by
  apply keysOf_congr
  intro k
  simp only [(hold.append hnew).mem_iff]

/-- The entries paired, old with new. -/
def pairsOf (old new : List DiffEntry) : List (DiffEntry × DiffEntry) :=
  (groupKeys old new).flatMap fun key => (group old key).zip (group new key)

/-- The entries of the first list left without a partner. -/
def surplus (xs ys : List DiffEntry) : List DiffEntry :=
  (groupKeys xs ys).flatMap fun key =>
    (group xs key).drop (min (group xs key).length (group ys key).length)

/-- A diff reports these pairs and these unpaired entries. -/
structure Reports (diff : BaselineDiff) (pairs : List (DiffEntry × DiffEntry))
    (gone come : List DiffEntry) : Prop where
  added : diff.added = sortByIdentity EntryDelta.identity (come.map entryDelta)
  removed : diff.removed = sortByIdentity EntryDelta.identity (gone.map entryDelta)
  worsened : diff.worsened =
    sortByIdentity ValueDelta.identity (BaselineDiff.moved .gt pairs)
  improved : diff.improved =
    sortByIdentity ValueDelta.identity (BaselineDiff.moved .lt pairs)

theorem foldl_pairGroup (old new : List DiffEntry) (keys : List SymbolKey) :
    ∀ diff : BaselineDiff,
    keys.foldl (fun diff key => BaselineDiff.pairGroup diff
      (old.filter fun e => e.key = key) (new.filter fun e => e.key = key)) diff =
    { added := diff.added ++ (keys.flatMap fun key => (group new key).drop
        (min (group old key).length (group new key).length)).map entryDelta
      removed := diff.removed ++ (keys.flatMap fun key => (group old key).drop
        (min (group old key).length (group new key).length)).map entryDelta
      worsened := diff.worsened ++ BaselineDiff.moved .gt
        (keys.flatMap fun key => (group old key).zip (group new key))
      improved := diff.improved ++ BaselineDiff.moved .lt
        (keys.flatMap fun key => (group old key).zip (group new key)) } := by
  induction keys with
  | nil => intro diff; simp [BaselineDiff.moved]
  | cons key keys ih =>
    intro diff
    rw [List.foldl_cons, ih]
    simp only [BaselineDiff.pairGroup, BaselineDiff.moved, group, List.flatMap_cons,
      List.filterMap_append, List.map_append, List.append_assoc]

theorem compute_reports (old new : List DiffEntry) :
    Reports (BaselineDiff.compute old new) (pairsOf old new) (surplus old new)
      (surplus new old) := by
  have hfold := foldl_pairGroup old new (groupKeys old new) ⟨[], [], [], []⟩
  rw [groupKeys] at hfold
  unfold BaselineDiff.compute
  rw [hfold]
  have hcome : surplus new old = (groupKeys old new).flatMap fun key => (group new key).drop
      (min (group old key).length (group new key).length) := by
    rw [surplus, groupKeys_comm]
    simp only [min_comm]
  constructor
  · rw [hcome]
    rfl
  · rfl
  · rfl
  · rfl

theorem pairsOf_comm (old new : List DiffEntry) :
    pairsOf new old = (pairsOf old new).map Prod.swap := by
  rw [pairsOf, groupKeys_comm, pairsOf, List.map_flatMap]
  congr 1
  funext key
  rw [List.zip_swap]

/-! ### Accounting -/

theorem pairs_old (old new : List DiffEntry) :
    ((pairsOf old new).map Prod.fst ++ surplus old new).Perm old := by
  have hgroups : ((pairsOf old new).map Prod.fst ++ surplus old new).Perm
      ((groupKeys old new).flatMap fun key => group old key) := by
    rw [pairsOf, surplus, List.map_flatMap]
    refine (List.flatMap_append_perm _ _ _).trans (List.Perm.flatMap_left _ fun key _ => ?_)
    rw [map_fst_zip_append]
  refine hgroups.trans ((List.Perm.flatMap_left _ fun key _ => group_perm old key).trans ?_)
  exact flatMap_filter_keysOf DiffEntry.key fun e he => List.mem_append_left new he

theorem pairs_new (old new : List DiffEntry) :
    ((pairsOf old new).map Prod.snd ++ surplus new old).Perm new := by
  have h := pairs_old new old
  rw [pairsOf_comm old new, List.map_map] at h
  exact h

theorem key_eq_of_mem_pairsOf {old new : List DiffEntry} {p : DiffEntry × DiffEntry}
    (h : p ∈ pairsOf old new) : p.1.key = p.2.key := by
  obtain ⟨key, -, hzip⟩ := List.mem_flatMap.mp h
  have hmem := List.of_mem_zip hzip
  exact (mem_group.mp hmem.1).2.trans (mem_group.mp hmem.2).2.symm

theorem mem_of_mem_pairsOf {old new : List DiffEntry} {p : DiffEntry × DiffEntry}
    (h : p ∈ pairsOf old new) : p.1 ∈ old ∧ p.2 ∈ new := by
  obtain ⟨key, -, hzip⟩ := List.mem_flatMap.mp h
  have hmem := List.of_mem_zip hzip
  exact ⟨(mem_group.mp hmem.1).1, (mem_group.mp hmem.2).1⟩

/-! ### Order independence -/

theorem compute_congr {old old' new new' : List DiffEntry}
    (hold : ∀ e ∈ old, e.value.isNan = false) (hnew : ∀ e ∈ new, e.value.isNan = false)
    (hold' : old'.Perm old) (hnew' : new'.Perm new) :
    BaselineDiff.compute old' new' = BaselineDiff.compute old new := by
  have hkeys := groupKeys_congr hold' hnew'
  have hkeys' := groupKeys_congr hnew' hold'
  have hpairs : pairsOf old' new' = pairsOf old new := by
    simp only [pairsOf, hkeys, group_congr hold hold', group_congr hnew hnew']
  have hgone : surplus old' new' = surplus old new := by
    simp only [surplus, hkeys, group_congr hold hold', group_congr hnew hnew']
  have hcome : surplus new' old' = surplus new old := by
    simp only [surplus, hkeys', group_congr hold hold', group_congr hnew hnew']
  have h := compute_reports old new
  have h' := compute_reports old' new'
  rw [hpairs, hgone, hcome] at h'
  cases hdiff : BaselineDiff.compute old' new'
  cases hdiff' : BaselineDiff.compute old new
  rw [hdiff] at h'
  rw [hdiff'] at h
  rw [BaselineDiff.mk.injEq]
  exact ⟨h'.added.trans h.added.symm, h'.removed.trans h.removed.symm,
    h'.worsened.trans h.worsened.symm, h'.improved.trans h.improved.symm⟩

/-! ### Exchanging the sides -/

/-- A moved value without its line. -/
def ValueDelta.unplaced (d : ValueDelta) : ValueDelta := { d with startLine := none }

/-- A moved value read backwards, without its line. -/
def ValueDelta.reversed (d : ValueDelta) : ValueDelta :=
  { d with startLine := none, old := d.new, new := d.old }

theorem worseOrder_swap {metric : String} {a b : F64} (ha : a.isNan = false)
    (hb : b.isNan = false) (sense : Ordering) :
    worseOrder metric b a = some sense.swap ↔ worseOrder metric a b = some sense := by
  rw [worseOrder_eq_cmp hb ha, worseOrder_eq_cmp ha hb, Option.some_inj, Option.some_inj,
    ← cmp_swap, Ordering.swap_inj]

theorem moved_swap {pairs : List (DiffEntry × DiffEntry)}
    (hkey : ∀ p ∈ pairs, p.1.key = p.2.key)
    (hvalue : ∀ p ∈ pairs, p.1.value.isNan = false ∧ p.2.value.isNan = false) (sense : Ordering) :
    (BaselineDiff.moved sense.swap (pairs.map Prod.swap)).map ValueDelta.unplaced =
      (BaselineDiff.moved sense pairs).map ValueDelta.reversed := by
  induction pairs with
  | nil => rfl
  | cons p pairs ih =>
    obtain ⟨o, n⟩ := p
    have ih := ih (fun p hp => hkey p (List.mem_cons_of_mem _ hp))
      fun p hp => hvalue p (List.mem_cons_of_mem _ hp)
    have hon : o.key = n.key := hkey _ (List.mem_cons_self ..)
    obtain ⟨ho, hn⟩ := hvalue _ (List.mem_cons_self ..)
    simp only [DiffEntry.key, EmbeddingLike.apply_eq_iff_eq, Prod.mk.injEq] at hon
    obtain ⟨hpath, hqualified, hmetric⟩ := hon
    have hiff : worseOrder n.metric o.value n.value = some sense.swap ↔
        worseOrder n.metric n.value o.value = some sense := worseOrder_swap hn ho sense
    simp only [BaselineDiff.moved, List.map_cons, List.filterMap_cons, Prod.fst_swap,
      Prod.snd_swap] at ih ⊢
    rw [hmetric]
    by_cases h : worseOrder n.metric n.value o.value = some sense
    · rw [if_pos h, if_pos (hiff.mpr h), List.map_cons, List.map_cons, ih]
      simp only [ValueDelta.unplaced, ValueDelta.reversed, valueDelta, hpath, hqualified, hmetric]
    · rw [if_neg h, if_neg (mt hiff.mp h), ih]

theorem sortByIdentity_perm {α : Type*} (identity : α → Identity) (l : List α) :
    (sortByIdentity identity l).Perm l :=
  List.perm_insertionSort _ _

/-! ### The empty diff -/

/-- What an empty diff compares. -/
def DiffEntry.tagged (e : DiffEntry) : SymbolKey × F64 := (e.key, e.value)

theorem sortByIdentity_eq_nil {α : Type*} {identity : α → Identity} {l : List α} :
    sortByIdentity identity l = [] ↔ l = [] := by
  rw [← List.length_eq_zero_iff, (sortByIdentity_perm identity l).length_eq,
    List.length_eq_zero_iff]

/-- Groups with the same values are paired value by value. -/
theorem group_values_eq {old new : List DiffEntry} (hold : ∀ e ∈ old, e.value.isNan = false)
    (hnew : ∀ e ∈ new, e.value.isNan = false)
    (h : (old.map DiffEntry.tagged).Perm (new.map DiffEntry.tagged)) (key : SymbolKey) :
    (group old key).map DiffEntry.value = (group new key).map DiffEntry.value := by
  have hvalues : ∀ l : List DiffEntry, ((group l key).map DiffEntry.value).Perm
      (((l.map DiffEntry.tagged).filter fun t => t.1 = key).map Prod.snd) := by
    intro l
    rw [List.filter_map, List.map_map]
    exact (group_perm l key).map _
  have hsorted : ∀ l : List DiffEntry, (∀ e ∈ l, e.value.isNan = false) →
      ((group l key).map DiffEntry.value).Pairwise fun a b =>
        badness .higherIsWorse a ≤ badness .higherIsWorse b := by
    intro l hl
    rw [List.pairwise_map]
    refine (group_sorted hl key).imp fun {a b} hab => ?_
    rw [pairingRank, pairingRank, Prod.Lex.toLex_le_toLex] at hab
    rcases hab with hlt | ⟨heq, -⟩
    · exact hlt.le
    · exact heq.le
  have hperm : ((group old key).map DiffEntry.value).Perm
      ((group new key).map DiffEntry.value) :=
    (hvalues old).trans (((h.filter _).map _).trans (hvalues new).symm)
  exact hperm.eq_of_pairwise (fun a b _ _ hab hba => badness_injective _ (le_antisymm hab hba))
    (hsorted old hold) (hsorted new hnew)

theorem surplus_eq_nil {xs ys : List DiffEntry}
    (h : ∀ key, (group xs key).length ≤ (group ys key).length) : surplus xs ys = [] := by
  rw [surplus, List.flatMap_eq_nil_iff]
  intro key _
  rw [min_eq_left (h key), List.drop_length]

theorem moved_eq_nil {sense : Ordering} {pairs : List (DiffEntry × DiffEntry)} :
    BaselineDiff.moved sense pairs = [] ↔
      ∀ p ∈ pairs, worseOrder p.2.metric p.2.value p.1.value ≠ some sense := by
  rw [BaselineDiff.moved, List.filterMap_eq_nil_iff]
  apply forall₂_congr
  intro p _
  by_cases h : worseOrder p.2.metric p.2.value p.1.value = some sense <;> simp [h]

/-- Pairs that did not move either way have one value. -/
theorem values_eq_iff {metric : String} {a b : F64} (ha : a.isNan = false) (hb : b.isNan = false) :
    worseOrder metric a b ≠ some .gt ∧ worseOrder metric a b ≠ some .lt ↔ a = b := by
  rw [worseOrder_eq_cmp ha hb, Ne, Ne, Option.some_inj, Option.some_inj, cmp_eq_gt_iff,
    cmp_eq_lt_iff, not_lt, not_lt]
  constructor
  · rintro ⟨hle, hge⟩
    exact badness_injective _ (le_antisymm hle hge)
  · rintro rfl
    exact ⟨le_rfl, le_rfl⟩

theorem isEmptyUnder_iff (diff : BaselineDiff) :
    diff.isEmptyUnder (.fromFlags false false false false) ↔
      diff.added = [] ∧ diff.removed = [] ∧ diff.worsened = [] ∧ diff.improved = [] := by
  obtain ⟨added, removed, worsened, improved⟩ := diff
  cases added <;> cases removed <;> cases worsened <;> cases improved <;>
    simp [BaselineDiff.isEmptyUnder, SectionFilter.fromFlags]

/-- The diff is empty when no entry is left over and no pair moved. -/
theorem isEmpty_iff_still (old new : List DiffEntry) (hold : ∀ e ∈ old, e.value.isNan = false)
    (hnew : ∀ e ∈ new, e.value.isNan = false) :
    (BaselineDiff.compute old new).isEmptyUnder (.fromFlags false false false false) ↔
      surplus new old = [] ∧ surplus old new = [] ∧
        ∀ p ∈ pairsOf old new, p.2.value = p.1.value := by
  have hreports := compute_reports old new
  rw [isEmptyUnder_iff, hreports.added, hreports.removed, hreports.worsened, hreports.improved,
    sortByIdentity_eq_nil, sortByIdentity_eq_nil, sortByIdentity_eq_nil, sortByIdentity_eq_nil,
    List.map_eq_nil_iff, List.map_eq_nil_iff, moved_eq_nil, moved_eq_nil]
  refine and_congr_right fun _ => and_congr_right fun _ => ?_
  rw [← forall₂_and]
  apply forall₂_congr
  intro p hp
  exact values_eq_iff (hnew _ (mem_of_mem_pairsOf hp).2) (hold _ (mem_of_mem_pairsOf hp).1)

theorem isEmpty_iff_perm (old new : List DiffEntry) (hold : ∀ e ∈ old, e.value.isNan = false)
    (hnew : ∀ e ∈ new, e.value.isNan = false) :
    (BaselineDiff.compute old new).isEmptyUnder (.fromFlags false false false false) ↔
      (old.map DiffEntry.tagged).Perm (new.map DiffEntry.tagged) := by
  rw [isEmpty_iff_still old new hold hnew]
  constructor
  · rintro ⟨hcome, hgone, hvalues⟩
    have hpairs_old := pairs_old old new
    have hpairs_new := pairs_new old new
    rw [hgone, List.append_nil] at hpairs_old
    rw [hcome, List.append_nil] at hpairs_new
    have hsame : ((pairsOf old new).map Prod.fst).map DiffEntry.tagged =
        ((pairsOf old new).map Prod.snd).map DiffEntry.tagged := by
      rw [List.map_map, List.map_map]
      apply List.map_congr_left
      intro p hp
      simp only [Function.comp_apply, DiffEntry.tagged, key_eq_of_mem_pairsOf hp, hvalues p hp]
    exact (hpairs_old.map _).symm.trans (hsame ▸ hpairs_new.map _)
  · intro h
    have hvalues := group_values_eq hold hnew h
    have hlength : ∀ key, (group old key).length = (group new key).length := by
      intro key
      have hmap := congrArg List.length (hvalues key)
      rwa [List.length_map, List.length_map] at hmap
    refine ⟨surplus_eq_nil fun key => (hlength key).ge, surplus_eq_nil fun key => (hlength key).le,
      ?_⟩
    intro p hp
    obtain ⟨key, -, hzip⟩ := List.mem_flatMap.mp hp
    have hmem : (p.1.value, p.2.value) ∈
        ((group old key).map DiffEntry.value).zip ((group new key).map DiffEntry.value) := by
      rw [List.zip_map]
      exact List.mem_map_of_mem hzip
    rw [hvalues key] at hmem
    obtain ⟨i, hi, heq⟩ := List.mem_iff_getElem.mp hmem
    rw [List.getElem_zip] at heq
    exact (Prod.mk.inj heq).2.symm.trans (Prod.mk.inj heq).1

/-! ### The laws -/

/-- The diff accounts for every entry once, exchanged sides read the same pairs backwards, the
order of the entries is immaterial, and an empty diff means equal contents. -/
theorem compute_laws (old new : List DiffEntry) (hold : ∀ e ∈ old, e.value.isFinite)
    (hnew : ∀ e ∈ new, e.value.isFinite) :
    (∃ (pairs : List (DiffEntry × DiffEntry)) (gone come : List DiffEntry),
      (pairs.map Prod.fst ++ gone).Perm old ∧ (pairs.map Prod.snd ++ come).Perm new ∧
      (∀ p ∈ pairs, p.1.key = p.2.key) ∧
      Reports (BaselineDiff.compute old new) pairs gone come ∧
      Reports (BaselineDiff.compute new old) (pairs.map Prod.swap) come gone) ∧
    (BaselineDiff.compute new old).added = (BaselineDiff.compute old new).removed ∧
    (BaselineDiff.compute new old).removed = (BaselineDiff.compute old new).added ∧
    ((BaselineDiff.compute new old).worsened.map ValueDelta.unplaced).Perm
      ((BaselineDiff.compute old new).improved.map ValueDelta.reversed) ∧
    ((BaselineDiff.compute new old).improved.map ValueDelta.unplaced).Perm
      ((BaselineDiff.compute old new).worsened.map ValueDelta.reversed) ∧
    (∀ old' new', old'.Perm old → new'.Perm new →
      BaselineDiff.compute old' new' = BaselineDiff.compute old new) ∧
    ((BaselineDiff.compute old new).isEmptyUnder (.fromFlags false false false false) ↔
      (old.map DiffEntry.tagged).Perm (new.map DiffEntry.tagged)) := by
  have hold' : ∀ e ∈ old, e.value.isNan = false := fun e he => isNan_of_isFinite (hold e he)
  have hnew' : ∀ e ∈ new, e.value.isNan = false := fun e he => isNan_of_isFinite (hnew e he)
  have hforward := compute_reports old new
  have hbackward := compute_reports new old
  rw [pairsOf_comm] at hbackward
  have hkey : ∀ p ∈ pairsOf old new, p.1.key = p.2.key := fun p hp => key_eq_of_mem_pairsOf hp
  have hvalue : ∀ p ∈ pairsOf old new, p.1.value.isNan = false ∧ p.2.value.isNan = false :=
    fun p hp => ⟨hold' _ (mem_of_mem_pairsOf hp).1, hnew' _ (mem_of_mem_pairsOf hp).2⟩
  refine ⟨⟨_, _, _, pairs_old old new, pairs_new old new, hkey, hforward, hbackward⟩,
    hbackward.added.trans hforward.removed.symm, hbackward.removed.trans hforward.added.symm,
    ?_, ?_, fun old' new' => compute_congr hold' hnew', isEmpty_iff_perm old new hold' hnew'⟩
  · rw [hbackward.worsened, hforward.improved]
    refine ((sortByIdentity_perm _ _).map _).trans ?_
    rw [show Ordering.gt = Ordering.lt.swap from rfl, moved_swap hkey hvalue .lt]
    exact ((sortByIdentity_perm _ _).map _).symm
  · rw [hbackward.improved, hforward.worsened]
    refine ((sortByIdentity_perm _ _).map _).trans ?_
    rw [show Ordering.lt = Ordering.gt.swap from rfl, moved_swap hkey hvalue .gt]
    exact ((sortByIdentity_perm _ _).map _).symm

/-- Two overloads whose complexities rose and which changed places, and one that is new. -/
def overloadsBefore : List DiffEntry :=
  [⟨"a", "f", "cyclomatic", some 1, .finite 5⟩, ⟨"a", "f", "cyclomatic", some 9, .finite 1⟩]

def overloadsAfter : List DiffEntry :=
  [⟨"a", "f", "cyclomatic", some 2, .finite 2⟩, ⟨"a", "f", "cyclomatic", some 8, .finite 6⟩,
    ⟨"a", "f", "cyclomatic", some 20, .finite 7⟩]

/-- They are paired by value, across their lines, whichever side is the new one. -/
theorem compute_laws_moved :
    (BaselineDiff.compute overloadsBefore overloadsAfter).worsened =
      [⟨"a", "f", "cyclomatic", some 2, .finite 1, .finite 2⟩,
        ⟨"a", "f", "cyclomatic", some 8, .finite 5, .finite 6⟩] ∧
    ((BaselineDiff.compute overloadsAfter overloadsBefore).improved.map ValueDelta.unplaced).Perm
      ((BaselineDiff.compute overloadsBefore overloadsAfter).worsened.map ValueDelta.reversed) ∧
    BaselineDiff.compute overloadsBefore.reverse overloadsAfter.reverse =
      BaselineDiff.compute overloadsBefore overloadsAfter := by
  have hlaws := compute_laws overloadsBefore overloadsAfter (by decide) (by decide)
  exact ⟨by decide +kernel, hlaws.2.2.2.2.1,
    hlaws.2.2.2.2.2.1 _ _ (List.reverse_perm _) (List.reverse_perm _)⟩

/-- One function whose complexity rose and which moved down a line. -/
def before : List DiffEntry := [⟨"a", "f", "cyclomatic", some 1, .finite 1⟩]

def after : List DiffEntry := [⟨"a", "f", "cyclomatic", some 2, .finite 2⟩]

/-- The line reported is that of the new side, so it does not follow the values. -/
theorem improved_line_of_new :
    ¬ ∀ old new : List DiffEntry, (∀ e ∈ old, e.value.isFinite) → (∀ e ∈ new, e.value.isFinite) →
      (BaselineDiff.compute new old).improved.Perm
        ((BaselineDiff.compute old new).worsened.map fun d => { d with old := d.new, new := d.old }) := by
  intro h
  have hperm := h before after (by decide) (by decide)
  have himproved : (BaselineDiff.compute after before).improved =
      [⟨"a", "f", "cyclomatic", some 1, .finite 2, .finite 1⟩] := by decide +kernel
  have hworsened : (BaselineDiff.compute before after).worsened =
      [⟨"a", "f", "cyclomatic", some 2, .finite 1, .finite 2⟩] := by decide +kernel
  rw [himproved, hworsened] at hperm
  exact absurd (List.singleton_perm_singleton.mp hperm) (by decide)

end BigCodeAnalysis.Baseline
