import BigCodeAnalysis.Metrics.LineSet
import BigCodeAnalysis.Sequences.Fallible
import Mathlib.Data.List.Sort
import Mathlib.Tactic.Common

/-! What each operation of the bitset does to the words, read at absolute indices.
Reserving changes no word; the other operations change the words they name and are
never out of range. The offset and the padding are forgotten from here on. -/

namespace BigCodeAnalysis.Metrics

theorem checkedSub_of_le {a b : ℕ} (h : b ≤ a) : checkedSub a b = some (a - b) := by
  rw [checkedSub, if_pos h]

theorem checkedSub_of_lt {a b : ℕ} (h : a < b) : checkedSub a b = none := by
  rw [checkedSub, if_neg (by omega)]

namespace LineSet

/-- The absolute index `w` is one of the array. -/
def Covers (s : LineSet) (w : ℕ) : Prop :=
  s.firstWord ≤ w ∧ w < s.firstWord + s.words.length

theorem word_of_le {s : LineSet} {w : ℕ} (h : s.firstWord ≤ w) :
    s.word w = (s.words[w - s.firstWord]?).getD 0 := by
  rw [word, checkedSub_of_le h]
  rfl

theorem word_of_lt {s : LineSet} {w : ℕ} (h : w < s.firstWord) : s.word w = 0 := by
  rw [word, checkedSub_of_lt h]
  rfl

theorem word_of_not_covers {s : LineSet} {w : ℕ} (h : ¬s.Covers w) : s.word w = 0 := by
  by_cases hle : s.firstWord ≤ w
  · have hlen : s.words.length ≤ w - s.firstWord := by
      simp only [Covers] at h
      omega
    rw [word_of_le hle, List.getElem?_eq_none hlen]
    rfl
  · exact word_of_lt (by omega)

theorem wordIn_of_covers {s : LineSet} {w : ℕ} (h : s.Covers w) :
    s.wordIn w = some (s.word w) := by
  obtain ⟨hle, hlt⟩ := h
  have hslot : w - s.firstWord < s.words.length := by omega
  rw [wordIn, word_of_le hle, checkedSub_of_le hle, List.getElem?_eq_getElem hslot]
  simp [List.getElem?_eq_getElem hslot]

/-- A word read in an array that starts lower and agrees from there on. -/
theorem word_append_left (a b : ℕ) (words : List Word) (v : ℕ) :
    (LineSet.mk a (List.replicate b 0 ++ words)).word v = (LineSet.mk (a + b) words).word v := by
  by_cases hv : a + b ≤ v
  · rw [word_of_le (show a ≤ v by omega), word_of_le hv]
    have hb : b ≤ v - a := by omega
    simp only [List.getElem?_append_right (show (List.replicate b (0 : Word)).length ≤ v - a by
      simpa using hb), List.length_replicate]
    rw [Nat.sub_sub]
  · rw [word_of_lt (s := ⟨a + b, words⟩) (Nat.lt_of_not_le hv)]
    by_cases ha : a ≤ v
    · have hb : v - a < b := by omega
      rw [word_of_le ha]
      simp [List.getElem?_append_left, hb]
    · exact word_of_lt (by simpa using ha)

theorem word_append_right (a n : ℕ) (words : List Word) (v : ℕ) :
    (LineSet.mk a (words ++ List.replicate n 0)).word v = (LineSet.mk a words).word v := by
  by_cases ha : a ≤ v
  · rw [word_of_le ha, word_of_le ha]
    by_cases hv : v - a < words.length
    · simp [List.getElem?_append_left hv]
    · rw [List.getElem?_append_right (by simpa using hv), List.getElem?_replicate,
        List.getElem?_eq_none (l := words) (by simpa using hv)]
      split <;> rfl
  · rw [word_of_lt (by simpa using ha), word_of_lt (by simpa using ha)]

/-- Reserving covers the index, keeps what was covered and changes no word. -/
theorem reserve_spec (s : LineSet) (w : ℕ) :
    ∃ s', s.reserve w = some s' ∧ s'.Covers w ∧ (∀ v, s.Covers v → s'.Covers v) ∧
      ∀ v, s'.word v = s.word v := by
  obtain ⟨first, words⟩ := s
  by_cases hempty : words = []
  · subst hempty
    refine ⟨⟨w, [0]⟩, by simp [reserve], by simp [Covers], by simp [Covers], fun v => ?_⟩
    rw [word_of_not_covers (s := ⟨first, []⟩) (by simp [Covers])]
    by_cases hv : v = w
    · subst hv
      rw [word_of_le le_rfl]
      simp
    · exact word_of_not_covers (by simp [Covers]; omega)
  by_cases hlow : w < first
  · refine ⟨⟨w, List.replicate (first - w) 0 ++ words⟩, ?_, ?_, ?_, fun v => ?_⟩
    · simp [reserve, hempty, hlow, checkedSub_of_le (Nat.le_of_lt hlow)]
    · simp only [Covers, List.length_append, List.length_replicate]
      omega
    · intro v hv
      simp only [Covers, List.length_append, List.length_replicate] at hv ⊢
      omega
    · rw [word_append_left, Nat.add_sub_cancel' (Nat.le_of_lt hlow)]
  have hle : first ≤ w := by omega
  by_cases hhigh : words.length ≤ w - first
  · refine ⟨⟨first, words ++ List.replicate (w - first + 1 - words.length) 0⟩, ?_, ?_, ?_,
      word_append_right first _ words⟩
    · simp [reserve, hempty, hlow, checkedSub_of_le hle, hhigh]
    · simp only [Covers, List.length_append, List.length_replicate]
      omega
    · intro v hv
      simp only [Covers, List.length_append, List.length_replicate] at hv ⊢
      omega
  · refine ⟨⟨first, words⟩, ?_, ?_, fun v hv => hv, fun v => rfl⟩
    · simp [reserve, hempty, hlow, checkedSub_of_le hle, hhigh]
    · simp only [Covers]
      omega

/-- Writing the word at a covered index changes that word only. -/
theorem updateSlot_spec {s : LineSet} {w : ℕ} (h : s.Covers w) (f : Word → Word) :
    ∃ words, updateSlot s.words (w - s.firstWord) f = some words ∧
      words.length = s.words.length ∧
      ∀ v, (LineSet.mk s.firstWord words).word v = if v = w then f (s.word v) else s.word v := by
  obtain ⟨hle, hlt⟩ := h
  have hslot : w - s.firstWord < s.words.length := by omega
  refine ⟨s.words.set (w - s.firstWord) (f s.words[w - s.firstWord]), ?_, by simp, fun v => ?_⟩
  · rw [updateSlot, List.getElem?_eq_getElem hslot]
    rfl
  have hset : (s.words.set (w - s.firstWord) (f s.words[w - s.firstWord]))[v - s.firstWord]? =
      if w - s.firstWord = v - s.firstWord then some (f s.words[w - s.firstWord])
      else s.words[v - s.firstWord]? := by
    rw [List.getElem?_set, if_pos hslot]
  by_cases hv : s.firstWord ≤ v
  · have hold : s.word v = (s.words[v - s.firstWord]?).getD 0 := word_of_le hv
    have hnew := word_of_le
      (s := ⟨s.firstWord, s.words.set (w - s.firstWord) (f s.words[w - s.firstWord])⟩) hv
    rw [hnew, hold]
    simp only [hset]
    by_cases hvw : v = w
    · subst hvw
      simp [List.getElem?_eq_getElem hslot]
    · rw [if_neg hvw, if_neg (by omega)]
  · have hold : s.word v = 0 := word_of_lt (Nat.lt_of_not_le hv)
    rw [if_neg (by omega), hold]
    exact word_of_lt (Nat.lt_of_not_le hv)

theorem fillSlots_spec (a : ℕ) {first last : ℕ} {words : List Word} (hle : first ≤ last)
    (hlast : last ≤ words.length) (w : Word) :
    ∃ filled, fillSlots words first last w = some filled ∧ filled.length = words.length ∧
      ∀ v, (LineSet.mk a filled).word v =
        if a + first ≤ v ∧ v < a + last then w else (LineSet.mk a words).word v := by
  refine ⟨_, if_pos ⟨hle, hlast⟩, ?_, fun v => ?_⟩
  · simp only [List.length_append, List.length_take, List.length_replicate, List.length_drop]
    omega
  by_cases ha : a ≤ v
  · rw [word_of_le (s := ⟨a, _⟩) ha, word_of_le (s := ⟨a, words⟩) ha]
    have htake : (words.take first).length = first := by
      rw [List.length_take]
      omega
    by_cases hlow : v - a < first
    · rw [if_neg (by omega), List.append_assoc,
        List.getElem?_append_left (hlow.trans_eq htake.symm), List.getElem?_take_of_lt hlow]
    by_cases hmid : v - a < last
    · rw [if_pos (by omega)]
      have hin : v - a - first < last - first := by omega
      simp [List.getElem?_append, htake, hlow, hin]
    · rw [if_neg (by omega)]
      have hout : ¬v - a - first < last - first := by omega
      have hidx : last + (v - a - first - (last - first)) = v - a := by omega
      simp [List.getElem?_append, htake, hlow, hout, hidx]
  · rw [word_of_lt (s := ⟨a, _⟩) (Nat.lt_of_not_le ha),
      word_of_lt (s := ⟨a, words⟩) (Nat.lt_of_not_le ha), if_neg (by omega)]

theorem insert_spec (s : LineSet) (row : ℕ) :
    ∃ s', s.insert row = some s' ∧ ∀ v, s'.word v =
      if v = wordOf row then s.word v ||| bitOf row else s.word v := by
  obtain ⟨s₁, h₁, hcov, -, hword⟩ := s.reserve_spec (wordOf row)
  obtain ⟨words, hset, -, hnew⟩ := updateSlot_spec hcov (· ||| bitOf row)
  refine ⟨⟨s₁.firstWord, words⟩, ?_, fun v => ?_⟩
  · simp [insert, h₁, checkedSub_of_le hcov.1, hset]
  · rw [hnew v, hword v]

/-- The word of a range insertion: the masks of the end words, all ones between. -/
theorem insertRange_spec (s : LineSet) {start stop : ℕ} (h : start ≤ stop) :
    ∃ s', s.insertRange start stop = some s' ∧ ∀ v, s'.word v =
      if v = wordOf start ∧ v = wordOf stop then
        s.word v ||| (fromMask start &&& throughMask stop)
      else if v = wordOf start then s.word v ||| fromMask start
      else if v = wordOf stop then s.word v ||| throughMask stop
      else if wordOf start < v ∧ v < wordOf stop then BitVec.allOnes 64
      else s.word v := by
  have hwords : wordOf start ≤ wordOf stop := Nat.div_le_div_right h
  obtain ⟨s₁, h₁, hcov₁, -, hword₁⟩ := s.reserve_spec (wordOf start)
  obtain ⟨s₂, h₂, hstop, hkeep, hword₂⟩ := s₁.reserve_spec (wordOf stop)
  have hstart : s₂.Covers (wordOf start) := hkeep _ hcov₁
  have hold : ∀ v, s₂.word v = s.word v := fun v => (hword₂ v).trans (hword₁ v)
  by_cases hsame : wordOf start - s₂.firstWord = wordOf stop - s₂.firstWord
  · have heq : wordOf start = wordOf stop := by
      have := hstart.1
      have := hstop.1
      omega
    obtain ⟨words, hset, -, hnew⟩ :=
      updateSlot_spec hstart (· ||| (fromMask start &&& throughMask stop))
    refine ⟨⟨s₂.firstWord, words⟩, ?_, fun v => ?_⟩
    · rw [insertRange, if_neg (by omega)]
      simp only [h₁, h₂, checkedSub_of_le hstart.1, checkedSub_of_le hstop.1, if_pos hsame,
        Option.bind_eq_bind, Option.bind_some, hset]
      rfl
    · rw [hnew v, hold v, ← heq]
      by_cases hv : v = wordOf start
      · simp [hv]
      · rw [if_neg hv, if_neg (fun h => hv h.1), if_neg hv, if_neg hv, if_neg (by omega)]
  have hlt : wordOf start < wordOf stop := by
    have := hstart.1
    have := hstop.1
    omega
  -- the three writes, each on the array the one before it left
  obtain ⟨words₃, hset₃, hlen₃, hnew₃⟩ := updateSlot_spec hstart (· ||| fromMask start)
  have hfirst : wordOf start - s₂.firstWord + 1 ≤ wordOf stop - s₂.firstWord := by
    have := hstart.1
    omega
  have hlast : wordOf stop - s₂.firstWord ≤ words₃.length := by
    have := hstop.2
    omega
  obtain ⟨words₄, hset₄, hlen₄, hnew₄⟩ :=
    fillSlots_spec s₂.firstWord hfirst hlast (BitVec.allOnes 64)
  have hcov₄ : (LineSet.mk s₂.firstWord words₄).Covers (wordOf stop) := by
    simp only [Covers, hlen₄, hlen₃]
    exact hstop
  obtain ⟨words₅, hset₅, -, hnew₅⟩ := updateSlot_spec hcov₄ (· ||| throughMask stop)
  refine ⟨⟨s₂.firstWord, words₅⟩, ?_, fun v => ?_⟩
  · rw [insertRange, if_neg (by omega)]
    simp only [h₁, h₂, checkedSub_of_le hstart.1, checkedSub_of_le hstop.1, if_neg hsame,
      Option.bind_eq_bind, Option.bind_some, hset₃, hset₄]
    simp only [] at hset₅
    rw [hset₅]
    rfl
  · have hge := hstart.1
    rw [hnew₅ v, hnew₄ v, hnew₃ v, hold v]
    by_cases hv : v = wordOf start
    · have hne : v ≠ wordOf stop := by omega
      rw [if_neg hne, if_neg (by omega), if_pos hv, if_neg (fun h => hne h.2), if_pos hv]
    · have hboth : ¬(v = wordOf start ∧ v = wordOf stop) := fun h => hv h.1
      simp only [if_neg hv, if_neg hboth]
      by_cases hv' : v = wordOf stop
      · rw [if_pos hv', if_pos hv', if_neg (by omega)]
      · rw [if_neg hv', if_neg hv']
        by_cases hin : wordOf start < v ∧ v < wordOf stop
        · rw [if_pos (by omega), if_pos hin]
        · rw [if_neg (by omega), if_neg hin]

theorem slot_of_covers {s : LineSet} {row : ℕ} (h : s.Covers (wordOf row)) :
    s.slot row = some (wordOf row - s.firstWord) := by
  have hlt : wordOf row - s.firstWord < s.words.length := by
    have := h.1
    have := h.2
    omega
  rw [slot, checkedSub_of_le h.1, Option.filter_some, if_pos (by simpa using hlt)]

theorem slot_of_not_covers {s : LineSet} {row : ℕ} (h : ¬s.Covers (wordOf row)) :
    s.slot row = none := by
  by_cases hle : s.firstWord ≤ wordOf row
  · have hlen : ¬wordOf row - s.firstWord < s.words.length := by
      simp only [Covers] at h
      omega
    rw [slot, checkedSub_of_le hle, Option.filter_some, if_neg (by simpa using hlen)]
  · rw [slot, checkedSub_of_lt (Nat.lt_of_not_le hle)]
    rfl

theorem remove_spec (s : LineSet) (row : ℕ) :
    ∃ s', s.remove row = some s' ∧ ∀ v, s'.word v =
      if v = wordOf row then s.word v &&& ~~~bitOf row else s.word v := by
  by_cases hcov : s.Covers (wordOf row)
  · obtain ⟨words, hset, -, hnew⟩ := updateSlot_spec hcov (· &&& ~~~bitOf row)
    refine ⟨⟨s.firstWord, words⟩, ?_, hnew⟩
    simp [remove, slot_of_covers hcov, hset]
  · refine ⟨s, by simp [remove, slot_of_not_covers hcov], fun v => ?_⟩
    by_cases hv : v = wordOf row
    · rw [if_pos hv, hv, word_of_not_covers hcov]
      exact BitVec.zero_and.symm
    · rw [if_neg hv]

theorem contains_eq (s : LineSet) (row : ℕ) :
    s.contains row = some (decide (s.word (wordOf row) &&& bitOf row ≠ 0)) := by
  by_cases hcov : s.Covers (wordOf row)
  · have hword := wordIn_of_covers hcov
    rw [wordIn, checkedSub_of_le hcov.1] at hword
    replace hword : s.words[wordOf row - s.firstWord]? = some (s.word (wordOf row)) := hword
    simp [contains, slot_of_covers hcov, hword]
  · simp [contains, slot_of_not_covers hcov, word_of_not_covers hcov]

theorem word_retainRange (s : LineSet) {first last : ℕ} (h : first ≤ last) (v : ℕ) :
    (s.retainRange first last).word v = retained first last v (s.word v) := by
  have hzero : retained first last v 0 = 0 := by
    simp [retained]
  have hnew : (s.retainRange first last).words =
      s.words.mapIdx fun index word => retained first last (s.firstWord + index) word := by
    rw [retainRange, if_neg (by omega)]
  have hfirst : (s.retainRange first last).firstWord = s.firstWord := by
    rw [retainRange, if_neg (by omega)]
  by_cases hle : s.firstWord ≤ v
  · have hold : s.word v = (s.words[v - s.firstWord]?).getD 0 := word_of_le hle
    rw [word_of_le (hfirst.le.trans hle), hold, hfirst, hnew, List.getElem?_mapIdx,
      Nat.add_sub_cancel' hle]
    cases s.words[v - s.firstWord]? with
    | none => exact hzero.symm
    | some word => rfl
  · have hlt : v < s.firstWord := Nat.lt_of_not_le hle
    rw [word_of_lt (hlt.trans_eq hfirst.symm), word_of_lt hlt, hzero]

theorem word_retainRange_inverted (s : LineSet) {first last : ℕ} (h : last < first) (v : ℕ) :
    (s.retainRange first last).word v = 0 := by
  rw [retainRange, if_pos h]
  exact word_of_not_covers (by simp [Covers])

theorem mem_overlappingWords {s t : LineSet} {w : ℕ} :
    w ∈ s.overlappingWords t ↔ s.Covers w ∧ t.Covers w := by
  simp only [overlappingWords, List.mem_range'_1, Covers]
  omega

theorem nodup_overlappingWords (s t : LineSet) : (s.overlappingWords t).Nodup :=
  List.nodup_range'

theorem intersectionLen_eq (s t : LineSet) :
    s.intersectionLen t =
      some ((s.overlappingWords t).map fun w => countOnes (s.word w &&& t.word w)).sum := by
  have hall : ∀ w ∈ s.overlappingWords t,
      (do let mine ← s.wordIn w; let theirs ← t.wordIn w
          return countOnes (mine &&& theirs)) = some (countOnes (s.word w &&& t.word w)) := by
    intro w hw
    obtain ⟨hs, ht⟩ := mem_overlappingWords.mp hw
    rw [wordIn_of_covers hs, wordIn_of_covers ht]
    rfl
  rw [intersectionLen, Sequences.mapM_eq_some hall]
  rfl

theorem subtractWord_spec {s t : LineSet} {w : ℕ} (hs : s.Covers w) (ht : t.Covers w) :
    ∃ s', subtractWord t s w = some s' ∧ (∀ v, s'.Covers v ↔ s.Covers v) ∧
      ∀ v, s'.word v = if v = w then s.word v &&& ~~~t.word w else s.word v := by
  obtain ⟨words, hset, hlen, hnew⟩ := updateSlot_spec hs (· &&& ~~~t.word w)
  refine ⟨⟨s.firstWord, words⟩, ?_, fun v => by simp only [Covers, hlen], hnew⟩
  rw [subtractWord, checkedSub_of_le hs.1, wordIn_of_covers ht]
  simp only [Option.bind_eq_bind, Option.bind_some, hset]
  rfl

/-- `subtract` along a list of words both sets cover. -/
theorem foldlM_subtractWord {t : LineSet} {ws : List ℕ} (hnodup : ws.Nodup) {s : LineSet}
    (hcov : ∀ w ∈ ws, s.Covers w ∧ t.Covers w) :
    ∃ s', ws.foldlM (subtractWord t) s = some s' ∧
      ∀ v, s'.word v = if v ∈ ws then s.word v &&& ~~~t.word v else s.word v := by
  induction ws generalizing s with
  | nil => exact ⟨s, rfl, fun v => (if_neg List.not_mem_nil).symm⟩
  | cons w ws ih =>
    obtain ⟨hs, ht⟩ := hcov w List.mem_cons_self
    obtain ⟨s₁, h₁, hkeep, hword₁⟩ := subtractWord_spec hs ht
    have hnotin : w ∉ ws := (List.nodup_cons.mp hnodup).1
    have hcov₁ : ∀ v ∈ ws, s₁.Covers v ∧ t.Covers v := fun v hv =>
      ⟨(hkeep v).mpr (hcov v (List.mem_cons_of_mem w hv)).1,
        (hcov v (List.mem_cons_of_mem w hv)).2⟩
    obtain ⟨s', h', hword⟩ := ih (List.nodup_cons.mp hnodup).2 hcov₁
    refine ⟨s', by rw [List.foldlM_cons, h₁]; exact h', fun v => ?_⟩
    rw [hword v, hword₁ v]
    by_cases hv : v = w
    · subst hv
      rw [if_neg hnotin, if_pos rfl, if_pos List.mem_cons_self]
    · simp [hv]

theorem subtract_spec (s t : LineSet) :
    ∃ s', s.subtract t = some s' ∧ ∀ v, s'.word v = s.word v &&& ~~~t.word v := by
  obtain ⟨s', h', hword⟩ := foldlM_subtractWord (s := s) (t := t) (nodup_overlappingWords s t)
    fun w hw => mem_overlappingWords.mp hw
  refine ⟨s', h', fun v => ?_⟩
  rw [hword v]
  by_cases hv : v ∈ s.overlappingWords t
  · rw [if_pos hv]
  rw [if_neg hv]
  -- outside the overlap one of the two words is zero
  rcases not_and_or.mp (fun h => hv (mem_overlappingWords.mpr h)) with hs | ht
  · rw [word_of_not_covers hs]
    exact BitVec.zero_and.symm
  · rw [word_of_not_covers ht]
    exact BitVec.and_allOnes.symm

theorem getElem?_orWords (dsts srcs : List Word) (i : ℕ) :
    (orWords dsts srcs)[i]? = dsts[i]?.map (· ||| (srcs[i]?).getD 0) := by
  induction dsts generalizing srcs i with
  | nil => simp [orWords]
  | cons dst dsts ih =>
    cases srcs with
    | nil =>
      have hzero : (fun w : Word => w ||| (([] : List Word)[i]?).getD 0) = id := by
        funext w
        exact BitVec.or_zero
      rw [orWords, hzero, Option.map_id_apply]
      simp
    | cons src srcs =>
      cases i with
      | zero => rfl
      | succ i => simpa [orWords] using ih srcs i

theorem lastWord_eq {s : LineSet} (h : s.words ≠ []) :
    s.lastWord = some (some (s.firstWord + s.words.length - 1)) := by
  have hpos : 0 < s.words.length := List.length_pos_iff.mpr h
  rw [lastWord, if_neg h, checkedSub_of_le (by omega)]
  rfl

theorem unionWith_spec (s t : LineSet) :
    ∃ s', s.unionWith t = some s' ∧ ∀ v, s'.word v = s.word v ||| t.word v := by
  by_cases hempty : t.words = []
  · refine ⟨s, ?_, fun v => ?_⟩
    · rw [unionWith, lastWord, if_pos hempty]
      rfl
    · rw [word_of_not_covers (s := t) (by simp [Covers, hempty])]
      exact BitVec.or_zero.symm
  have hpos : 0 < t.words.length := List.length_pos_iff.mpr hempty
  obtain ⟨s₁, h₁, hcov₁, -, hword₁⟩ := s.reserve_spec t.firstWord
  obtain ⟨s₂, h₂, hlast, hkeep, hword₂⟩ :=
    s₁.reserve_spec (t.firstWord + t.words.length - 1)
  have hfirst : s₂.Covers t.firstWord := hkeep _ hcov₁
  have hbase : t.firstWord - s₂.firstWord ≤ s₂.words.length := by
    have := hfirst.1
    have := hfirst.2
    omega
  set base := t.firstWord - s₂.firstWord with hdef
  set joined := s₂.words.take base ++ orWords (s₂.words.drop base) t.words with hjoined
  refine ⟨⟨s₂.firstWord, joined⟩, ?_, fun v => ?_⟩
  · simp only [unionWith, lastWord_eq hempty, Option.bind_eq_bind, Option.bind_some, h₁, h₂,
      checkedSub_of_le hfirst.1, ← hdef, if_pos hbase]
    rfl
  have hge := hfirst.1
  have htake : (s₂.words.take base).length = base := by
    rw [List.length_take]
    omega
  have hold : s₂.word v = s.word v := (hword₂ v).trans (hword₁ v)
  rw [← hold]
  by_cases hv : s₂.firstWord ≤ v
  · have hread : s₂.word v = (s₂.words[v - s₂.firstWord]?).getD 0 := word_of_le hv
    have hnew : (LineSet.mk s₂.firstWord joined).word v = (joined[v - s₂.firstWord]?).getD 0 :=
      word_of_le hv
    rw [hnew, hread, hjoined]
    by_cases hlow : v - s₂.firstWord < base
    · rw [word_of_lt (s := t) (by omega), List.getElem?_append_left (hlow.trans_eq htake.symm),
        List.getElem?_take_of_lt hlow]
      exact BitVec.or_zero.symm
    · have hin : t.word v = (t.words[v - t.firstWord]?).getD 0 := word_of_le (by omega)
      have hidx : v - s₂.firstWord - base = v - t.firstWord := by omega
      have hback : base + (v - t.firstWord) = v - s₂.firstWord := by omega
      rw [List.getElem?_append_right (by omega), htake, hidx, getElem?_orWords,
        List.getElem?_drop, hback, hin]
      by_cases hlen : v - s₂.firstWord < s₂.words.length
      · rw [List.getElem?_eq_getElem hlen]
        rfl
      · -- past the last word of the receiver, which reaches the last word of `t`
        have hlast' := hlast.2
        rw [List.getElem?_eq_none (Nat.le_of_not_lt hlen),
          List.getElem?_eq_none (l := t.words) (by omega)]
        exact BitVec.or_zero.symm
  · have hlt : v < s₂.firstWord := Nat.lt_of_not_le hv
    have hnew : (LineSet.mk s₂.firstWord joined).word v = 0 := word_of_lt hlt
    rw [hnew, word_of_lt hlt, word_of_lt (s := t) (by omega)]
    exact BitVec.or_zero.symm

end LineSet

end BigCodeAnalysis.Metrics
