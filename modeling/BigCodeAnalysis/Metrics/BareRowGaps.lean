import BigCodeAnalysis.Metrics.BareRows

/-! What the scan of one gap finds: the rows of the file that are bare and lie in the gap from
their first byte to their line feed. A file with such a row passes the filter. -/

namespace BigCodeAnalysis.Metrics.BareRows

open Baseline (backslash)
open Comments (Bytes lineFeed carriageReturn Node rowAt)
open Sequences Trees

/-- Blanks, one backslash and an optional carriage return. -/
def Bare (text : Bytes) : Prop :=
  ∃ blanks tail, (∀ b ∈ blanks, isHorizontalSpace b = true) ∧
    (tail = [] ∨ tail = [carriageReturn]) ∧ text = blanks ++ backslash :: tail

/-! ### The shape of a text -/

theorem foldl_step_other (text : Bytes) : text.foldl RowShape.step .other = .other := by
  induction text with
  | nil => rfl
  | cons b text ih => exact ih

theorem isBare_backslashCr (text : Bytes) :
    (text.foldl RowShape.step .backslashCr).isBare = true ↔ text = [] := by
  cases text with
  | nil => simp [RowShape.isBare]
  | cons b text =>
    rw [List.foldl_cons, RowShape.step, foldl_step_other]
    simp [RowShape.isBare]

theorem isBare_backslash (text : Bytes) :
    (text.foldl RowShape.step .backslash).isBare = true ↔ text = [] ∨ text = [carriageReturn] := by
  cases text with
  | nil => simp [RowShape.isBare]
  | cons b text =>
    rw [List.foldl_cons, RowShape.step]
    by_cases hb : b = carriageReturn
    · rw [if_pos hb, isBare_backslashCr, hb]
      simp
    · rw [if_neg hb, foldl_step_other]
      simp [RowShape.isBare, hb]

theorem not_bare_nil : ¬ Bare [] := by
  rintro ⟨blanks, tail, -, -, h⟩
  exact absurd h.symm (by simp)

theorem isHorizontalSpace_backslash : isHorizontalSpace backslash = false := by decide

theorem bare_cons (b : UInt8) (text : Bytes) : Bare (b :: text) ↔
    (b = backslash ∧ (text = [] ∨ text = [carriageReturn])) ∨
      isHorizontalSpace b = true ∧ Bare text := by
  constructor
  · rintro ⟨blanks, tail, hblanks, htail, h⟩
    cases blanks with
    | nil =>
      obtain ⟨rfl, rfl⟩ := List.cons_eq_cons.mp h
      exact .inl ⟨rfl, htail⟩
    | cons c blanks =>
      obtain ⟨rfl, rfl⟩ := List.cons_eq_cons.mp h
      exact .inr ⟨hblanks b List.mem_cons_self,
        blanks, tail, fun c hc => hblanks c (List.mem_cons_of_mem b hc), htail, rfl⟩
  · rintro (⟨rfl, htail⟩ | ⟨hb, blanks, tail, hblanks, htail, rfl⟩)
    · exact ⟨[], text, nofun, htail, rfl⟩
    · exact ⟨b :: blanks, tail, List.forall_mem_cons.mpr ⟨hb, hblanks⟩, htail, rfl⟩

/-- The shape of a row tells whether it is bare. -/
theorem isBare_iff (text : Bytes) :
    (text.foldl RowShape.step .blank).isBare = true ↔ Bare text := by
  induction text with
  | nil => simpa [RowShape.isBare] using not_bare_nil
  | cons b text ih =>
    rw [List.foldl_cons, bare_cons, RowShape.step]
    by_cases hb : b = backslash
    · rw [if_pos hb, isBare_backslash, hb, isHorizontalSpace_backslash]
      simp
    · rw [if_neg hb]
      by_cases hspace : isHorizontalSpace b = true
      · rw [if_pos hspace, ih]
        simp [hb, hspace]
      · rw [if_neg hspace, foldl_step_other]
        simp [RowShape.isBare, hb, hspace]

/-- A file with a bare row passes the filter. -/
theorem mayHoldBareRows_of_bare {before text after : Bytes}
    (hrow : IsRow lineFeed before text after) (h : Bare text) :
    mayHoldBareRows (before ++ text ++ after) = true := by
  obtain ⟨blanks, tail, -, htail, rfl⟩ := h
  refine List.any_eq_true.mpr ⟨(before ++ blanks).length, List.mem_range.mpr ?_, ?_⟩
  · simp only [List.length_append, List.length_cons]
    omega
  · have hdrop : (before ++ (blanks ++ backslash :: tail) ++ after).drop (before ++ blanks).length =
        backslash :: (tail ++ after) := by
      rw [← List.append_assoc, List.append_assoc (before ++ blanks), List.drop_left,
        List.cons_append]
    rw [hdrop]
    rcases hrow.ends with rfl | hfeed
    · rcases htail with rfl | rfl <;> simp
    · obtain ⟨rest, rfl⟩ := List.head?_eq_some_iff.mp hfeed
      rcases htail with rfl | rfl <;> simp

/-! ### Reading the rows of a gap -/

section Reading

variable {base : Bytes} {row : ℕ}

/-- The reading of the bytes `done`, in a gap that follows `base` and starts on `row`. -/
def Reads (base : Bytes) (row : ℕ) (done : Bytes) (r : Reading) : Prop :=
  ∃ before line, done = before ++ line ∧ lineFeed ∉ line ∧ base.length ≤ before.length ∧
    r.row + base.count lineFeed = row + before.count lineFeed ∧
    r.shape = line.foldl RowShape.step .blank ∧
    (BeginsRow lineFeed before ∧ r.rowStart = some before.length ∨
      ¬ BeginsRow lineFeed before ∧ before.length = base.length ∧ r.rowStart = none)

/-- A bare row behind `before`, as the reading of the gap reports it. -/
structure Found (base : Bytes) (row : ℕ) (before text : Bytes) (p : ℕ × ℕ) : Prop where
  begins : BeginsRow lineFeed before
  notMem : lineFeed ∉ text
  bare : Bare text
  within : base.length ≤ before.length
  first : p.2 = before.length
  number : p.1 + base.count lineFeed = row + before.count lineFeed

theorem Reads.mem_bare {done : Bytes} {r : Reading} (h : Reads base row done r) (p : ℕ × ℕ) :
    p ∈ r.bare ↔ ∃ before text, done = before ++ text ∧ Found base row before text p := by
  obtain ⟨before, line, rfl, hline, hwithin, hnumber, hshape, ⟨hbegins, hstart⟩ |
    ⟨hinside, hlength, hstart⟩⟩ := h
  · unfold Reading.bare
    rw [hstart, hshape]
    dsimp only
    constructor
    · intro hp
      split_ifs at hp with hbare
      · obtain rfl := List.mem_singleton.mp hp
        exact ⟨before, line, rfl, hbegins, hline, (isBare_iff line).mp hbare, hwithin, rfl, hnumber⟩
      · cases hp
    · rintro ⟨before', text, hdone, hfound⟩
      obtain ⟨rfl, rfl⟩ := hbegins.unique hfound.begins hline hfound.notMem hdone
      rw [if_pos ((isBare_iff line).mpr hfound.bare)]
      have hnumber' := hfound.number
      exact List.mem_singleton.mpr (Prod.ext (by dsimp only; omega) hfound.first)
  · unfold Reading.bare
    rw [hstart]
    refine iff_of_false (by simp) ?_
    rintro ⟨before', text, hdone, hfound⟩
    have hlonger := hfound.within
    obtain ⟨between, rfl, rfl⟩ : ∃ between, before' = before ++ between ∧ line = between ++ text := by
      rcases List.append_eq_append_iff.mp hdone with hcut | ⟨between, rfl, rfl⟩
      · exact hcut
      · have hnil : between = [] := by
          rw [List.length_append] at hlength
          exact List.length_eq_zero_iff.mp (by omega)
        exact ⟨[], by simp [hnil], by simp [hnil]⟩
    have hnil := hfound.begins.eq_nil_of_append fun hmem => hline (List.mem_append_left _ hmem)
    rw [hnil, List.append_nil] at hfound
    exact hinside hfound.begins

/-- One byte takes the reading on. -/
theorem Reads.next {done : Bytes} {r : Reading} (h : Reads base row done r) (byte : UInt8) :
    Reads base row (done ++ [byte]) (r.next done.length byte) := by
  obtain ⟨before, line, rfl, hline, hwithin, hnumber, hshape, hstart⟩ := h
  unfold Reading.next
  by_cases hbyte : byte = lineFeed
  · rw [if_pos hbyte, hbyte]
    refine ⟨before ++ line ++ [lineFeed], [], by simp, by simp, ?_, ?_, rfl,
      .inl ⟨beginsRow_concat, congrArg some (by simp only [List.length_append, List.length_singleton])⟩⟩
    · rw [List.length_append, List.length_append]
      omega
    · have hnone : line.count lineFeed = 0 := List.count_eq_zero.mpr hline
      rw [List.count_append, List.count_append, hnone, List.count_singleton_self]
      dsimp only
      omega
  · rw [if_neg hbyte]
    refine ⟨before, line ++ [byte], by simp, ?_, hwithin, hnumber, ?_, hstart⟩
    · simp [hline, Ne.symm hbyte]
    · rw [List.foldl_append, hshape]
      rfl

/-- The rows read are the bare rows that end among the bytes. -/
theorem readRows_spec (bytes : Bytes) : ∀ {done : Bytes} {r : Reading}, Reads base row done r →
    (∀ p, p ∈ (readRows done.length r bytes).1 ↔ ∃ before text rest,
      done ++ bytes = before ++ text ++ lineFeed :: rest ∧
        done.length ≤ before.length + text.length ∧ Found base row before text p) ∧
    Reads base row (done ++ bytes) (readRows done.length r bytes).2 := by
  induction bytes with
  | nil =>
    intro done r h
    refine ⟨fun p => iff_of_false List.not_mem_nil ?_, by rwa [List.append_nil]⟩
    rintro ⟨before, text, rest, hdone, hlength, -⟩
    have hsize := congrArg List.length hdone
    simp only [List.length_append, List.length_cons, List.length_nil] at hsize
    omega
  | cons byte bytes ih =>
    intro done r h
    obtain ⟨hrows, hlast⟩ := ih (h.next byte)
    rw [List.length_append, List.length_singleton] at hrows hlast
    rw [List.append_assoc, List.singleton_append] at hrows hlast
    refine ⟨fun p => ?_, hlast⟩
    rw [readRows]
    dsimp only
    rw [List.mem_append, hrows]
    constructor
    · rintro (hnow | ⟨before, text, rest, hdone, hlength, hfound⟩)
      · split_ifs at hnow with hbyte
        · obtain ⟨before, text, rfl, hfound⟩ := (h.mem_bare p).mp hnow
          exact ⟨before, text, bytes, by rw [hbyte], by simp, hfound⟩
        · cases hnow
      · exact ⟨before, text, rest, hdone, by omega, hfound⟩
    · rintro ⟨before, text, rest, hdone, hlength, hfound⟩
      by_cases hlater : done.length + 1 ≤ before.length + text.length
      · exact .inr ⟨before, text, rest, hdone, hlater, hfound⟩
      · obtain ⟨rfl, hrest⟩ := List.append_inj hdone (by rw [List.length_append]; omega)
        obtain ⟨rfl, rfl⟩ := List.cons_eq_cons.mp hrest
        rw [if_pos rfl]
        exact .inl ((h.mem_bare p).mpr ⟨before, text, rfl, hfound⟩)

end Reading

/-- The rows come in order. -/
theorem readRows_ascending (bytes : Bytes) : ∀ (offset : ℕ) (r : Reading),
    (∀ first, r.rowStart = some first → first ≤ offset) →
    ((readRows offset r bytes).1 ++ (readRows offset r bytes).2.bare).Pairwise (·.2 < ·.2) ∧
    ∀ p ∈ (readRows offset r bytes).1 ++ (readRows offset r bytes).2.bare,
      r.rowStart = some p.2 ∨ offset < p.2 := by
  have hopen : ∀ (r : Reading), r.bare.Pairwise (·.2 < ·.2) ∧
      ∀ p ∈ r.bare, r.rowStart = some p.2 := by
    intro r
    unfold Reading.bare
    cases hstart : r.rowStart with
    | none => simp
    | some first => dsimp only; split_ifs <;> simp
  induction bytes with
  | nil =>
    intro offset r _
    exact ⟨(hopen r).1, fun p hp => .inl ((hopen r).2 p hp)⟩
  | cons byte bytes ih =>
    intro offset r hr
    rw [readRows]
    dsimp only
    by_cases hbyte : byte = lineFeed
    · have hnext : r.next offset byte = ⟨r.row + 1, some (offset + 1), .blank⟩ := if_pos hbyte
      obtain ⟨hpairs, hafter⟩ := ih (offset + 1) (r.next offset byte) (by
        rw [hnext]
        rintro first ⟨⟩
        exact Nat.le_refl _)
      have hlater : ∀ p ∈ (readRows (offset + 1) (r.next offset byte) bytes).1 ++
          (readRows (offset + 1) (r.next offset byte) bytes).2.bare, offset < p.2 := by
        intro p hp
        rcases hafter p hp with hfirst | hfirst
        · rw [hnext] at hfirst
          have hfirst := Option.some.inj hfirst
          omega
        · omega
      rw [if_pos hbyte, List.append_assoc]
      refine ⟨List.pairwise_append.mpr ⟨(hopen r).1, hpairs, fun p hp q hq => ?_⟩, fun p hp => ?_⟩
      · exact Nat.lt_of_le_of_lt (hr _ ((hopen r).2 p hp)) (hlater q hq)
      · rcases List.mem_append.mp hp with hp | hp
        · exact .inl ((hopen r).2 p hp)
        · exact .inr (hlater p hp)
    · have hnext : (r.next offset byte).rowStart = r.rowStart := by rw [Reading.next, if_neg hbyte]
      obtain ⟨hpairs, hafter⟩ := ih (offset + 1) (r.next offset byte) (by
        intro first hfirst
        have hle := hr first (by rw [← hnext, hfirst])
        omega)
      rw [if_neg hbyte, List.nil_append]
      refine ⟨hpairs, fun p hp => ?_⟩
      rcases hafter p hp with hfirst | hfirst
      · exact .inl (by rw [← hnext, hfirst])
      · exact .inr (by omega)

/-! ### Scanning a gap -/

/-- The row `text` behind `before` lies in a gap with its line feed, and at the end of the file
without one. -/
def Gap.Holds (gap : Gap) (before text after : Bytes) : Prop :=
  gap.start ≤ before.length ∧ rowEnd before text after ≤ gap.stop

variable {code : Bytes} {gap : Gap}

theorem reads_start (h : gap.start ≤ code.length) :
    Reads (code.take gap.start) gap.row (code.take gap.start) (gap.reading code) := by
  have hlength : (code.take gap.start).length = gap.start := List.length_take_of_le h
  refine ⟨code.take gap.start, [], by simp, by simp, Nat.le_refl _, rfl, rfl, ?_⟩
  dsimp only [Gap.reading]
  rw [beginsRow_take h, hlength]
  split_ifs with hstart
  · exact .inl ⟨hstart, rfl⟩
  · exact .inr ⟨hstart, rfl, rfl⟩

/-- A row that ends with its line feed lies in a prefix of the file, or in the whole of it. -/
theorem holds_iff (hstop : gap.stop ≤ code.length) (before text : Bytes) :
    (∃ after, code = before ++ text ++ after ∧ (after = [] ∨ after.head? = some lineFeed) ∧
      rowEnd before text after ≤ gap.stop) ↔
    (∃ rest, code.take gap.stop = before ++ text ++ lineFeed :: rest) ∨
      gap.stop = code.length ∧ code = before ++ text := by
  have hlength : (code.take gap.stop).length = gap.stop := List.length_take_of_le hstop
  constructor
  · rintro ⟨after, rfl, hends, hend⟩
    unfold rowEnd at hend
    rcases hends with rfl | hfeed
    · simp only [List.append_nil, List.length_append, List.take_nil, List.length_nil] at hstop hend ⊢
      exact .inr ⟨by omega, trivial⟩
    · obtain ⟨rest, rfl⟩ := List.head?_eq_some_iff.mp hfeed
      rw [List.take_succ_cons, List.take_zero, List.length_singleton] at hend
      have hsize : (before ++ text ++ [lineFeed]).length ≤ gap.stop := by
        simpa only [List.length_append, List.length_singleton] using hend
      refine .inl ⟨rest.take (gap.stop - (before ++ text ++ [lineFeed]).length), ?_⟩
      have hsplit : before ++ text ++ lineFeed :: rest = before ++ text ++ [lineFeed] ++ rest :=
        List.append_cons ..
      rw [hsplit, List.take_append, List.take_of_length_le hsize, List.append_assoc,
        List.singleton_append]
  · rintro (⟨rest, hcut⟩ | ⟨hstop', rfl⟩)
    · refine ⟨lineFeed :: (rest ++ code.drop gap.stop), ?_, .inr rfl, ?_⟩
      · rw [← List.cons_append, ← List.append_assoc, ← hcut, List.take_append_drop]
      · have hsize := congrArg List.length hcut
        simp only [hlength, List.length_append, List.length_cons] at hsize
        simp only [rowEnd, List.take_succ_cons, List.take_zero, List.length_singleton]
        omega
    · refine ⟨[], by rw [List.append_nil], .inl rfl, ?_⟩
      rw [rowEnd, hstop', List.length_append]
      exact Nat.le_refl _

/-- The scan of a gap credits the bare rows in it. -/
theorem mem_scanGap (code : Bytes) (gap : Gap) (c : Credit) : c ∈ scanGap code gap ↔
    gap.stop ≤ code.length ∧ ∃ before text after, code = before ++ text ++ after ∧
      IsRow lineFeed before text after ∧ Bare text ∧ gap.Holds before text after ∧
      c = ⟨c.row, before.length, gap.start, gap.next⟩ ∧
      c.row + rowAt code gap.start = gap.row + before.count lineFeed := by
  by_cases hrange : gap.start ≤ gap.stop ∧ gap.stop ≤ code.length
  · have hbase : (code.take gap.start).length = gap.start :=
      List.length_take_of_le (Nat.le_trans hrange.1 hrange.2)
    have hread := reads_start (Nat.le_trans hrange.1 hrange.2)
    obtain ⟨hrows, hlast⟩ := readRows_spec ((code.take gap.stop).drop gap.start) hread
    rw [hbase] at hrows hlast
    have hall : code.take gap.start ++ (code.take gap.stop).drop gap.start = code.take gap.stop := by
      have hcut := List.take_append_drop gap.start (code.take gap.stop)
      rwa [List.take_take, Nat.min_eq_left hrange.1] at hcut
    rw [hall] at hrows hlast
    unfold scanGap
    rw [slice_eq_some hrange.1 hrange.2]
    dsimp only
    rw [List.mem_map]
    constructor
    · rintro ⟨p, hp, rfl⟩
      have hfound : ∃ before text, ((∃ rest, code.take gap.stop = before ++ text ++ lineFeed :: rest) ∨
          gap.stop = code.length ∧ code = before ++ text) ∧
          Found (code.take gap.start) gap.row before text p := by
        rcases List.mem_append.mp hp with hp | hp
        · obtain ⟨before, text, rest, hcut, -, hfound⟩ := (hrows p).mp hp
          exact ⟨before, text, .inl ⟨rest, hcut⟩, hfound⟩
        · by_cases hstop : gap.stop = code.length
          · rw [if_pos hstop] at hp
            obtain ⟨before, text, hcut, hfound⟩ := (hlast.mem_bare p).mp hp
            rw [hstop, List.take_length] at hcut
            exact ⟨before, text, .inr ⟨hstop, hcut⟩, hfound⟩
          · rw [if_neg hstop] at hp
            cases hp
      obtain ⟨before, text, hcut, hfound⟩ := hfound
      obtain ⟨after, hcode, hends, hend⟩ := (holds_iff hrange.2 before text).mpr hcut
      have hwithin := hfound.within
      rw [hbase] at hwithin
      exact ⟨hrange.2, before, text, after, hcode, ⟨hfound.begins, hfound.notMem, hends⟩, hfound.bare,
        ⟨hwithin, hend⟩, by rw [← hfound.first], hfound.number⟩
    · rintro ⟨-, before, text, after, hcode, hrow, hbare, ⟨hwithin, hend⟩, hc, hnumber⟩
      have hfound : Found (code.take gap.start) gap.row before text (c.row, before.length) :=
        ⟨hrow.begins, hrow.notMem, hbare, by rwa [hbase], rfl, hnumber⟩
      refine ⟨(c.row, before.length), List.mem_append.mpr ?_, hc.symm⟩
      rcases (holds_iff hrange.2 before text).mp ⟨after, hcode, hrow.ends, hend⟩ with
        ⟨rest, hcut⟩ | ⟨hstop, hcut⟩
      · exact .inl ((hrows _).mpr ⟨before, text, rest, hcut, by omega, hfound⟩)
      · rw [if_pos hstop]
        exact .inr ((hlast.mem_bare _).mpr ⟨before, text, by rw [hstop, List.take_length, hcut], hfound⟩)
  · have hnone : slice code gap.start gap.stop = none := if_neg hrange
    unfold scanGap
    rw [hnone]
    refine iff_of_false List.not_mem_nil ?_
    rintro ⟨hstop, before, text, after, -, -, -, ⟨hwithin, hend⟩, -⟩
    unfold rowEnd at hend
    exact hrange ⟨by omega, hstop⟩

/-- The rows of a gap are credited in order. -/
theorem scanGap_ascending (code : Bytes) (gap : Gap) :
    (scanGap code gap).Pairwise (·.rowStart < ·.rowStart) := by
  unfold scanGap
  cases slice code gap.start gap.stop with
  | none => exact .nil
  | some bytes =>
    dsimp only
    obtain ⟨hpairs, -⟩ := readRows_ascending bytes gap.start (gap.reading code) (by
      intro first hfirst
      dsimp only [Gap.reading] at hfirst
      split_ifs at hfirst
      exact Nat.le_of_eq (Option.some.inj hfirst).symm)
    refine List.pairwise_map.mpr (hpairs.sublist ((List.Sublist.refl _).append ?_))
    by_cases hstop : gap.stop = code.length
    · rw [if_pos hstop]
    · rw [if_neg hstop]
      exact List.nil_sublist _

/-- A file that does not pass the filter has no row to credit, whatever its gaps are. -/
theorem scanGap_eq_nil (h : mayHoldBareRows code = false) : scanGap code gap = [] := by
  refine List.eq_nil_iff_forall_not_mem.mpr fun c hc => ?_
  obtain ⟨-, before, text, after, rfl, hrow, hbare, -⟩ := (mem_scanGap code gap c).mp hc
  rw [mayHoldBareRows_of_bare hrow hbare] at h
  cases h

end BigCodeAnalysis.Metrics.BareRows
