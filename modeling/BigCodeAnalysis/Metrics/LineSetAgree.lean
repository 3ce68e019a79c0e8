import BigCodeAnalysis.Metrics.LineSetWords
import BigCodeAnalysis.Metrics.Loc
import Mathlib.Data.Finset.Card
import Mathlib.Data.Finset.Sort

/-! The bitset agrees with the plain set of rows: row `r` is a member when bit
`r % 64` of the word `r / 64` is set. Each operation acts on the rows as the plain
operation does, the counts are cardinalities and equality is equality of rows, for
every sequence of operations on any number of sets. -/

namespace BigCodeAnalysis.Metrics

theorem getLsbD_bitOf (row row' : ℕ) :
    (bitOf row).getLsbD (row' % bitsPerWord) = decide (row' % 64 = row % 64) := by
  have hlt : row' % 64 < 64 := Nat.mod_lt _ (by decide)
  have hlt' : row % 64 < 64 := Nat.mod_lt _ (by decide)
  simp only [bitOf, bitsPerWord, BitVec.getLsbD_shiftLeft, BitVec.getLsbD_one]
  by_cases h : row' % 64 = row % 64
  · simp [h, hlt']
  · simp only [h, decide_false, hlt, decide_true, Bool.true_and]
    by_cases hle : row' % 64 < row % 64
    · simp [hle]
    · have hne : ¬row' % 64 - row % 64 = 0 := by omega
      simp [hne]

theorem getLsbD_fromMask (row row' : ℕ) :
    (fromMask row).getLsbD (row' % bitsPerWord) = decide (row % 64 ≤ row' % 64) := by
  have hlt : row' % 64 < 64 := Nat.mod_lt _ (by decide)
  simp only [fromMask, bitsPerWord, BitVec.getLsbD_shiftLeft, BitVec.getLsbD_allOnes]
  by_cases h : row % 64 ≤ row' % 64
  · have hge : ¬row' % 64 < row % 64 := by omega
    have hin : row' % 64 - row % 64 < 64 := by omega
    simp [h, hlt, hge, hin]
  · have hlow : row' % 64 < row % 64 := by omega
    simp [h, hlow]

theorem getLsbD_throughMask (row row' : ℕ) :
    (throughMask row).getLsbD (row' % bitsPerWord) = decide (row' % 64 ≤ row % 64) := by
  have hlt : row' % 64 < 64 := Nat.mod_lt _ (by decide)
  have hlt' : row % 64 < 64 := Nat.mod_lt _ (by decide)
  simp only [throughMask, bitsPerWord, BitVec.getLsbD_ushiftRight, BitVec.getLsbD_allOnes]
  rw [decide_eq_decide]
  omega

theorem countOnes_eq_countP (w : Word) : countOnes w = (List.range 64).countP (w.getLsbD ·) := by
  have hrec : ∀ k, w.cpopNatRec k 0 = (List.range k).countP (w.getLsbD ·) := by
    intro k
    induction k with
    | zero => rfl
    | succ k ih =>
      rw [BitVec.cpopNatRec_succ, BitVec.cpopNatRec_add, ih, List.range_succ,
        List.countP_append, List.countP_singleton]
      cases w.getLsbD k <;> rfl
  have hcpop : countOnes w = w.cpopNatRec 64 0 := by
    have hle := BitVec.cpopNatRec_zero_le (x := w) (n := 64)
    rw [countOnes, BitVec.cpop, BitVec.toNat_ofNat]
    exact Nat.mod_eq_of_lt (by omega)
  rw [hcpop, hrec]

namespace LineSet

/-- Whether the bit of `row` is set. -/
def bit (s : LineSet) (row : ℕ) : Bool := (s.word (wordOf row)).getLsbD (row % bitsPerWord)

/-- The plain set a bitset stands for. -/
def rowSet (s : LineSet) : Finset ℕ := s.rows.toFinset

theorem testBit_word (w : Word) (b : ℕ) : (w >>> b &&& 1#64 == 1#64) = w.getLsbD b := by
  have hone : w >>> b &&& 1#64 = if w.getLsbD b then 1#64 else 0#64 := by
    ext i hi
    cases i with
    | zero => cases h : w.getLsbD b <;> simp [h]
    | succ i => cases w.getLsbD b <;> simp
  rw [hone]
  cases w.getLsbD b <;> rfl

theorem mem_rows {s : LineSet} {row : ℕ} : row ∈ s.rows ↔ s.bit row = true := by
  simp only [rows, testBit_word, List.mem_flatMap, List.mem_map, List.mem_filter, List.mem_range,
    Prod.exists, List.mem_zipIdx_iff_getElem?]
  constructor
  · rintro ⟨word, index, hget, b, ⟨hb, hset⟩, rfl⟩
    have hword : wordOf ((s.firstWord + index) * bitsPerWord + b) = s.firstWord + index := by
      simp only [wordOf, bitsPerWord] at hb ⊢
      omega
    have hbit : ((s.firstWord + index) * bitsPerWord + b) % bitsPerWord = b := by
      simp only [bitsPerWord] at hb ⊢
      omega
    rw [bit, hword, hbit, word_of_le (Nat.le_add_right _ _), Nat.add_sub_cancel_left, hget]
    exact hset
  · intro hset
    have hcov : s.Covers (wordOf row) := by
      by_contra hcov
      rw [bit, word_of_not_covers hcov] at hset
      simp at hset
    have hslot : wordOf row - s.firstWord < s.words.length := by
      have := hcov.1
      have := hcov.2
      omega
    refine ⟨s.word (wordOf row), wordOf row - s.firstWord, ?_, row % bitsPerWord,
      ⟨Nat.mod_lt _ (by decide), hset⟩, ?_⟩
    · rw [word_of_le hcov.1, List.getElem?_eq_getElem hslot]
      rfl
    · rw [Nat.add_sub_cancel' hcov.1, wordOf]
      exact Nat.div_add_mod' row bitsPerWord

@[simp] theorem mem_rowSet {s : LineSet} {row : ℕ} : row ∈ s.rowSet ↔ s.bit row = true := by
  rw [rowSet, List.mem_toFinset, mem_rows]

/-- The rows come out ascending, each once. -/
theorem rows_pairwise (s : LineSet) : s.rows.Pairwise (· < ·) := by
  rw [rows, List.pairwise_flatMap]
  constructor
  · rintro ⟨word, index⟩ -
    refine List.Pairwise.map _ (fun a b h => Nat.add_lt_add_left h _) ?_
    exact List.Pairwise.filter _ List.pairwise_lt_range
  · have hidx : s.words.zipIdx.Pairwise fun a b => a.2 < b.2 := by
      rw [← List.pairwise_map, List.zipIdx_map_snd]
      exact List.pairwise_lt_range'
    refine hidx.imp ?_
    rintro ⟨w, i⟩ ⟨w', j⟩ hij x hx y hy
    simp only [List.mem_map, List.mem_filter, List.mem_range, bitsPerWord] at hx hy hij
    obtain ⟨b, ⟨hb, -⟩, rfl⟩ := hx
    obtain ⟨b', ⟨hb', -⟩, rfl⟩ := hy
    omega

theorem rows_eq_sort (s : LineSet) : s.rows = s.rowSet.sort (· ≤ ·) := by
  have hnodup : s.rows.Nodup := s.rows_pairwise.imp Nat.ne_of_lt
  have hsorted : s.rows.Pairwise (· ≤ ·) := s.rows_pairwise.imp Nat.le_of_lt
  exact ((List.toFinset_sort (· ≤ ·) hnodup).mpr hsorted).symm

theorem rowSet_card (s : LineSet) : s.rowSet.card = s.len := by
  have hnodup : s.rows.Nodup := s.rows_pairwise.imp Nat.ne_of_lt
  rw [rowSet, List.toFinset_card_of_nodup hnodup, rows, List.length_flatMap, len]
  congr 1
  have hcount : ∀ p : Word × ℕ, ((((List.range bitsPerWord).filter fun bit =>
      p.1 >>> bit &&& 1#64 == 1#64).map ((s.firstWord + p.2) * bitsPerWord + ·)).length) =
      countOnes p.1 := by
    intro p
    rw [List.length_map, ← List.countP_eq_length_filter, countOnes_eq_countP]
    simp only [testBit_word, bitsPerWord]
  conv_rhs => rw [← List.zipIdx_map_fst 0 s.words, List.map_map]
  exact List.map_congr_left fun p _ => hcount p

theorem insert_rowSet (s : LineSet) (row : ℕ) :
    ∃ s', s.insert row = some s' ∧ s'.rowSet = s.rowSet ∪ {row} := by
  obtain ⟨s', h', hword⟩ := s.insert_spec row
  refine ⟨s', h', ?_⟩
  ext r
  rw [Finset.mem_union, Finset.mem_singleton, mem_rowSet, mem_rowSet, bit, bit, hword]
  by_cases hw : wordOf r = wordOf row
  · rw [if_pos hw, BitVec.getLsbD_or, getLsbD_bitOf, Bool.or_eq_true, decide_eq_true_iff]
    simp only [wordOf, bitsPerWord] at hw
    have hsame : r % 64 = row % 64 ↔ r = row := by omega
    rw [hsame]
  · have hne : r ≠ row := fun h => hw (by rw [h])
    simp [hw, hne]

theorem remove_rowSet (s : LineSet) (row : ℕ) :
    ∃ s', s.remove row = some s' ∧ s'.rowSet = s.rowSet.erase row := by
  obtain ⟨s', h', hword⟩ := s.remove_spec row
  refine ⟨s', h', ?_⟩
  ext r
  rw [Finset.mem_erase, mem_rowSet, mem_rowSet, bit, bit, hword]
  by_cases hw : wordOf r = wordOf row
  · have hlt : r % bitsPerWord < 64 := Nat.mod_lt _ (by decide)
    rw [if_pos hw, BitVec.getLsbD_and, BitVec.getLsbD_not, getLsbD_bitOf, Bool.and_eq_true]
    simp only [wordOf, bitsPerWord] at hw
    have hsame : r % 64 = row % 64 ↔ r = row := by omega
    simp only [hlt, decide_true, Bool.true_and, Bool.not_eq_true', decide_eq_false_iff_not,
      hsame, ne_eq]
    exact and_comm
  · have hne : r ≠ row := fun h => hw (by rw [h])
    simp [hw, hne]

theorem insertRange_rowSet (s : LineSet) (start stop : ℕ) :
    ∃ s', s.insertRange start stop = some s' ∧
      s'.rowSet = Loc.LineSet.insertRange s.rowSet start stop := by
  by_cases hinv : stop < start
  · refine ⟨s, if_pos hinv, ?_⟩
    rw [Loc.LineSet.insertRange, Finset.Icc_eq_empty (by omega), Finset.union_empty]
  obtain ⟨s', h', hword⟩ := s.insertRange_spec (Nat.le_of_not_lt hinv)
  refine ⟨s', h', ?_⟩
  ext r
  rw [Loc.LineSet.insertRange, Finset.mem_union, Finset.mem_Icc, mem_rowSet, mem_rowSet, bit, bit,
    hword]
  have hlt : r % bitsPerWord < 64 := Nat.mod_lt _ (by decide)
  -- one case for each position of the word of `r` against the two end words
  by_cases hs : wordOf r = wordOf start
  · by_cases he : wordOf r = wordOf stop
    · rw [if_pos ⟨hs, he⟩, BitVec.getLsbD_or, BitVec.getLsbD_and, getLsbD_fromMask,
        getLsbD_throughMask, Bool.or_eq_true, Bool.and_eq_true, decide_eq_true_iff,
        decide_eq_true_iff]
      simp only [wordOf, bitsPerWord] at hs he
      have hboth : start % 64 ≤ r % 64 ∧ r % 64 ≤ stop % 64 ↔ start ≤ r ∧ r ≤ stop := by omega
      rw [hboth]
    · rw [if_neg (fun h => he h.2), if_pos hs, BitVec.getLsbD_or, getLsbD_fromMask,
        Bool.or_eq_true, decide_eq_true_iff]
      simp only [wordOf, bitsPerWord] at hs he
      have hfrom : start % 64 ≤ r % 64 ↔ start ≤ r ∧ r ≤ stop := by omega
      rw [hfrom]
  rw [if_neg (fun h => hs h.1), if_neg hs]
  by_cases he : wordOf r = wordOf stop
  · rw [if_pos he, BitVec.getLsbD_or, getLsbD_throughMask, Bool.or_eq_true, decide_eq_true_iff]
    simp only [wordOf, bitsPerWord] at hs he
    have hthrough : r % 64 ≤ stop % 64 ↔ start ≤ r ∧ r ≤ stop := by omega
    rw [hthrough]
  rw [if_neg he]
  by_cases hmid : wordOf start < wordOf r ∧ wordOf r < wordOf stop
  · rw [if_pos hmid, BitVec.getLsbD_allOnes, decide_eq_true hlt]
    simp only [wordOf, bitsPerWord] at hmid
    have hin : start ≤ r ∧ r ≤ stop := by omega
    exact iff_of_true rfl (.inr hin)
  · rw [if_neg hmid]
    simp only [wordOf, bitsPerWord] at hs he hmid
    have hout : ¬(start ≤ r ∧ r ≤ stop) := by omega
    exact (or_iff_left hout).symm

/-- Cutting the first word of a range below `first` keeps the rows from `first` on. -/
theorem getLsbD_cut_from (w : Word) {first r : ℕ} (h : wordOf first ≤ wordOf r) :
    (if wordOf r = wordOf first then w &&& fromMask first else w).getLsbD (r % bitsPerWord) =
      (w.getLsbD (r % bitsPerWord) && decide (first ≤ r)) := by
  by_cases hs : wordOf r = wordOf first
  · rw [if_pos hs, BitVec.getLsbD_and, getLsbD_fromMask]
    simp only [wordOf, bitsPerWord] at hs
    have hsame : first % 64 ≤ r % 64 ↔ first ≤ r := by omega
    simp only [hsame]
  · simp only [wordOf, bitsPerWord] at h hs ⊢
    have hle : first ≤ r := by omega
    simp [hs, hle]

theorem getLsbD_cut_through (w : Word) {last r : ℕ} (h : wordOf r ≤ wordOf last) :
    (if wordOf r = wordOf last then w &&& throughMask last else w).getLsbD (r % bitsPerWord) =
      (w.getLsbD (r % bitsPerWord) && decide (r ≤ last)) := by
  by_cases hs : wordOf r = wordOf last
  · rw [if_pos hs, BitVec.getLsbD_and, getLsbD_throughMask]
    simp only [wordOf, bitsPerWord] at hs
    have hsame : r % 64 ≤ last % 64 ↔ r ≤ last := by omega
    simp only [hsame]
  · simp only [wordOf, bitsPerWord] at h hs ⊢
    have hle : r ≤ last := by omega
    simp [hs, hle]

theorem retainRange_rowSet (s : LineSet) (first last : ℕ) :
    (s.retainRange first last).rowSet = Loc.LineSet.retainRange s.rowSet first last := by
  ext r
  rw [Loc.LineSet.retainRange, Finset.mem_filter, mem_rowSet, mem_rowSet, bit, bit]
  by_cases hinv : last < first
  · have hout : ¬(first ≤ r ∧ r ≤ last) := by omega
    rw [word_retainRange_inverted s hinv]
    simp [hout]
  rw [word_retainRange s (Nat.le_of_not_lt hinv), retained]
  by_cases hcov : wordOf first ≤ wordOf r ∧ wordOf r ≤ wordOf last
  · rw [if_pos hcov]
    simp only [getLsbD_cut_through _ hcov.2, getLsbD_cut_from _ hcov.1, Bool.and_eq_true,
      decide_eq_true_iff, and_assoc]
  · rw [if_neg hcov]
    simp only [wordOf, bitsPerWord] at hcov
    have hout : ¬(first ≤ r ∧ r ≤ last) := by omega
    simp [hout]

theorem unionWith_rowSet (s t : LineSet) :
    ∃ s', s.unionWith t = some s' ∧ s'.rowSet = s.rowSet ∪ t.rowSet := by
  obtain ⟨s', h', hword⟩ := s.unionWith_spec t
  refine ⟨s', h', ?_⟩
  ext r
  rw [Finset.mem_union, mem_rowSet, mem_rowSet, mem_rowSet, bit, hword, BitVec.getLsbD_or,
    Bool.or_eq_true]
  rfl

theorem subtract_rowSet (s t : LineSet) :
    ∃ s', s.subtract t = some s' ∧ s'.rowSet = s.rowSet \ t.rowSet := by
  obtain ⟨s', h', hword⟩ := s.subtract_spec t
  refine ⟨s', h', ?_⟩
  ext r
  have hlt : r % bitsPerWord < 64 := Nat.mod_lt _ (by decide)
  rw [Finset.mem_sdiff, mem_rowSet, mem_rowSet, mem_rowSet, bit, hword, BitVec.getLsbD_and,
    BitVec.getLsbD_not, Bool.and_eq_true, decide_eq_true hlt, Bool.true_and, Bool.not_eq_true',
    Bool.not_eq_true]
  rfl

theorem contains_rowSet (s : LineSet) (row : ℕ) :
    s.contains row = some (decide (row ∈ s.rowSet)) := by
  have hlt : row % bitsPerWord < 64 := Nat.mod_lt _ (by decide)
  rw [contains_eq, Option.some_inj, decide_eq_decide, mem_rowSet, bit]
  constructor
  · intro hne
    by_contra hclear
    refine hne (BitVec.eq_of_getLsbD_eq fun i hi => ?_)
    have hi' : i = i % bitsPerWord := (Nat.mod_eq_of_lt hi).symm
    rw [BitVec.getLsbD_and, hi', getLsbD_bitOf]
    by_cases hrow : i % 64 = row % 64
    · simp only [bitsPerWord] at hclear ⊢
      simp [hrow, hclear]
    · simp [hrow]
  · intro hset hzero
    have hbit := congrArg (fun w => w.getLsbD (row % bitsPerWord)) hzero
    simp only [BitVec.getLsbD_and, hset, getLsbD_bitOf, decide_true, Bool.and_self] at hbit
    exact Bool.noConfusion (hbit.trans BitVec.getLsbD_zero)

/-- The words both sets cover, each cut to the common bits. -/
def meet (s t : LineSet) : LineSet where
  firstWord := max s.firstWord t.firstWord
  words := (s.overlappingWords t).map fun w => s.word w &&& t.word w

theorem word_meet (s t : LineSet) (w : ℕ) : (s.meet t).word w = s.word w &&& t.word w := by
  by_cases hcov : s.Covers w ∧ t.Covers w
  · have hin := hcov
    simp only [Covers] at hin
    have hle : (s.meet t).firstWord ≤ w := max_le hin.1.1 hin.2.1
    have hidx : (s.overlappingWords t)[w - max s.firstWord t.firstWord]? = some w := by
      rw [overlappingWords, List.getElem?_range' (by omega)]
      exact congrArg some (by omega)
    rw [word_of_le hle, meet, List.getElem?_map, hidx]
    rfl
  · have hout : ¬(s.meet t).Covers w := by
      simp only [Covers, meet, overlappingWords, List.length_map, List.length_range'] at hcov ⊢
      omega
    rw [word_of_not_covers hout]
    rcases not_and_or.mp hcov with hs | ht
    · rw [word_of_not_covers hs]
      exact BitVec.zero_and.symm
    · rw [word_of_not_covers ht]
      exact BitVec.and_zero.symm

theorem meet_rowSet (s t : LineSet) : (s.meet t).rowSet = s.rowSet ∩ t.rowSet := by
  ext r
  rw [Finset.mem_inter, mem_rowSet, mem_rowSet, mem_rowSet, bit, word_meet, BitVec.getLsbD_and,
    Bool.and_eq_true]
  rfl

theorem intersectionLen_rowSet (s t : LineSet) :
    s.intersectionLen t = some (s.rowSet ∩ t.rowSet).card := by
  rw [intersectionLen_eq, ← meet_rowSet, rowSet_card, len, meet, List.map_map]
  rfl

theorem unionLen_rowSet (s t : LineSet) : s.unionLen t = some (s.rowSet ∪ t.rowSet).card := by
  have hcard := Finset.card_union_add_card_inter s.rowSet t.rowSet
  rw [unionLen, intersectionLen_rowSet, ← rowSet_card, ← rowSet_card]
  have hle : (s.rowSet ∩ t.rowSet).card ≤ s.rowSet.card + t.rowSet.card := by omega
  have hsub : s.rowSet.card + t.rowSet.card - (s.rowSet ∩ t.rowSet).card =
      (s.rowSet ∪ t.rowSet).card := by omega
  exact (checkedSub_of_le hle).trans (congrArg some hsub)

/-- The words are fixed by the rows. -/
theorem word_ext_iff (s t : LineSet) : (∀ w, s.word w = t.word w) ↔ s.rowSet = t.rowSet := by
  constructor
  · intro h
    ext r
    rw [mem_rowSet, mem_rowSet, bit, bit, h]
  · intro h w
    refine BitVec.eq_of_getLsbD_eq fun i hi => ?_
    have hword : wordOf (w * bitsPerWord + i) = w := by
      simp only [wordOf, bitsPerWord]
      omega
    have hbit : (w * bitsPerWord + i) % bitsPerWord = i := by
      simp only [bitsPerWord]
      omega
    have hmem : s.bit (w * bitsPerWord + i) = true ↔ t.bit (w * bitsPerWord + i) = true := by
      rw [← mem_rowSet, h, mem_rowSet]
    rw [bit, bit, hword, hbit] at hmem
    exact Bool.eq_iff_iff.mpr hmem

/-- Equality reads the rows only: neither the offset nor zero words at either end. -/
theorem beq_iff (s t : LineSet) : s.beq t = true ↔ s.rowSet = t.rowSet := by
  rw [← word_ext_iff, beq, List.all_eq_true]
  constructor
  · intro h w
    by_cases hcov : s.Covers w ∨ t.Covers w
    · refine beq_iff_eq.mp (h w ?_)
      simp only [Covers] at hcov
      rw [List.mem_range'_1]
      omega
    · rw [not_or] at hcov
      rw [word_of_not_covers hcov.1, word_of_not_covers hcov.2]
  · intro h w _
    exact beq_iff_eq.mpr (h w)

variable {ι : Type*} [DecidableEq ι]

/-- The writing operations, over any number of named sets. -/
inductive Op (ι : Type*)
  | insert (i : ι) (row : ℕ)
  | insertRange (i : ι) (start stop : ℕ)
  | remove (i : ι) (row : ℕ)
  | retainRange (i : ι) (first last : ℕ)
  | unionWith (i j : ι)
  | subtract (i j : ι)

def Op.run : Op ι → (ι → LineSet) → Option (ι → LineSet)
  | .insert i row, store => ((store i).insert row).map (Function.update store i)
  | .insertRange i start stop, store =>
    ((store i).insertRange start stop).map (Function.update store i)
  | .remove i row, store => ((store i).remove row).map (Function.update store i)
  | .retainRange i first last, store =>
    some (Function.update store i ((store i).retainRange first last))
  | .unionWith i j, store => ((store i).unionWith (store j)).map (Function.update store i)
  | .subtract i j, store => ((store i).subtract (store j)).map (Function.update store i)

/-- The same operations on plain sets. -/
def Op.plain : Op ι → (ι → Finset ℕ) → ι → Finset ℕ
  | .insert i row, sets => Function.update sets i (sets i ∪ {row})
  | .insertRange i start stop, sets => Function.update sets i (sets i ∪ Finset.Icc start stop)
  | .remove i row, sets => Function.update sets i ((sets i).erase row)
  | .retainRange i first last, sets =>
    Function.update sets i ((sets i).filter fun row => first ≤ row ∧ row ≤ last)
  | .unionWith i j, sets => Function.update sets i (sets i ∪ sets j)
  | .subtract i j, sets => Function.update sets i (sets i \ sets j)

def run (ops : List (Op ι)) (store : ι → LineSet) : Option (ι → LineSet) :=
  ops.foldlM (fun store op => op.run store) store

def plainRun (ops : List (Op ι)) (sets : ι → Finset ℕ) : ι → Finset ℕ :=
  ops.foldl (fun sets op => op.plain sets) sets

/-- Every bitset of the store stands for the plain set of its name. -/
def Represents (store : ι → LineSet) (sets : ι → Finset ℕ) : Prop :=
  ∀ i, (store i).rowSet = sets i

theorem Represents.update {store : ι → LineSet} {sets : ι → Finset ℕ} (h : Represents store sets)
    {i : ι} {s : LineSet} {rows : Finset ℕ} (hs : s.rowSet = rows) :
    Represents (Function.update store i s) (Function.update sets i rows) := by
  intro k
  by_cases hk : k = i
  · subst hk
    simpa using hs
  · simpa [hk] using h k

/-- One operation stays in range and keeps the sets represented. -/
theorem Op.run_represents (op : Op ι) {store : ι → LineSet} {sets : ι → Finset ℕ}
    (h : Represents store sets) :
    ∃ store', op.run store = some store' ∧ Represents store' (op.plain sets) := by
  cases op with
  | insert i row =>
    obtain ⟨s', hs, hrows⟩ := (store i).insert_rowSet row
    exact ⟨_, congrArg (Option.map _) hs, h.update (by rw [hrows, h i])⟩
  | insertRange i start stop =>
    obtain ⟨s', hs, hrows⟩ := (store i).insertRange_rowSet start stop
    exact ⟨_, congrArg (Option.map _) hs, h.update (by rw [hrows, h i]; rfl)⟩
  | remove i row =>
    obtain ⟨s', hs, hrows⟩ := (store i).remove_rowSet row
    exact ⟨_, congrArg (Option.map _) hs, h.update (by rw [hrows, h i])⟩
  | retainRange i first last =>
    have hrows := (store i).retainRange_rowSet first last
    exact ⟨_, rfl, h.update (by rw [hrows, h i]; rfl)⟩
  | unionWith i j =>
    obtain ⟨s', hs, hrows⟩ := (store i).unionWith_rowSet (store j)
    exact ⟨_, congrArg (Option.map _) hs, h.update (by rw [hrows, h i, h j])⟩
  | subtract i j =>
    obtain ⟨s', hs, hrows⟩ := (store i).subtract_rowSet (store j)
    exact ⟨_, congrArg (Option.map _) hs, h.update (by rw [hrows, h i, h j])⟩

theorem run_represents (ops : List (Op ι)) {store : ι → LineSet} {sets : ι → Finset ℕ}
    (h : Represents store sets) :
    ∃ store', run ops store = some store' ∧ Represents store' (plainRun ops sets) := by
  induction ops generalizing store sets with
  | nil => exact ⟨store, rfl, h⟩
  | cons op ops ih =>
    obtain ⟨store₁, h₁, hrep⟩ := op.run_represents h
    obtain ⟨store', h', hrep'⟩ := ih hrep
    refine ⟨store', ?_, hrep'⟩
    rw [run, List.foldlM_cons, h₁]
    exact h'

/-- What the reading operations answer of a store, against the plain sets. -/
structure ReadsAs (store : ι → LineSet) (sets : ι → Finset ℕ) : Prop where
  rows : ∀ i, (store i).rows = (sets i).sort (· ≤ ·)
  contains : ∀ i row, (store i).contains row = some (decide (row ∈ sets i))
  len : ∀ i, (store i).len = (sets i).card
  unionLen : ∀ i j, (store i).unionLen (store j) = some (sets i ∪ sets j).card
  intersectionLen : ∀ i j, (store i).intersectionLen (store j) = some (sets i ∩ sets j).card
  beq : ∀ i j, (store i).beq (store j) = decide (sets i = sets j)

omit [DecidableEq ι] in
theorem Represents.readsAs {store : ι → LineSet} {sets : ι → Finset ℕ}
    (h : Represents store sets) : ReadsAs store sets where
  rows i := by rw [rows_eq_sort, h i]
  contains i row := by rw [contains_rowSet, h i]
  len i := by rw [← rowSet_card, h i]
  unionLen i j := by rw [unionLen_rowSet, h i, h j]
  intersectionLen i j := by rw [intersectionLen_rowSet, h i, h j]
  beq i j := by
    rw [Bool.eq_iff_iff, beq_iff, decide_eq_true_iff, h i, h j]

/-- From empty sets, and from any stored arrays, every sequence of operations stays in
range and is read as the plain sets it gives. -/
theorem run_readsAs (ops : List (Op ι)) :
    (∃ store, run ops (fun _ => default) = some store ∧
      ReadsAs store (plainRun ops fun _ => ∅)) ∧
    ∀ start : ι → LineSet, ∃ store, run ops start = some store ∧
      ReadsAs store (plainRun ops fun i => (start i).rowSet) := by
  have hrun : ∀ start : ι → LineSet, ∃ store, run ops start = some store ∧
      ReadsAs store (plainRun ops fun i => (start i).rowSet) := by
    intro start
    obtain ⟨store, hstore, hrep⟩ := run_represents ops (fun i => rfl : Represents start _)
    exact ⟨store, hstore, hrep.readsAs⟩
  exact ⟨hrun fun _ => default, hrun⟩

end LineSet

end BigCodeAnalysis.Metrics
