import BigCodeAnalysis.Baseline.Match
import Mathlib.Tactic.IntervalCases

/-! A baseline read against the violations it was written from. Loading files the entries of each
symbol in the order they were written in, so every violation finds a record. A symbol with one
record is compared with it; one with several is searched by body before it is searched by line. A
violation is covered unless its body leads it to an earlier twin with a better value, and that is
exactly when a written baseline does not cover its own violations. -/

namespace BigCodeAnalysis.Baseline

open Sequences Catalog

/-! ### Body hashes survive the file -/

theorem hexValue_hexChar {n : ℕ} (h : n < 16) : hexValue (hexChar n) = some n := by
  interval_cases n <;> rfl

theorem foldl_hexDigits (len : ℕ) : ∀ n, n < 16 ^ len →
    (hexDigits len n).foldl (fun acc c => acc.bind fun n => (hexValue c).map (16 * n + ·))
      (some 0) = some n := by
  induction len with
  | zero =>
    intro n h
    obtain rfl : n = 0 := by simpa using h
    rfl
  | succ len ih =>
    intro n h
    have hdiv : n / 16 < 16 ^ len := by
      rw [pow_succ] at h
      omega
    rw [hexDigits, List.foldl_append, ih _ hdiv, List.foldl_cons, List.foldl_nil,
      Option.bind_some, hexValue_hexChar (Nat.mod_lt _ (by norm_num)), Option.map_some]
    congr 1
    omega

theorem length_hexDigits (len : ℕ) : ∀ n, (hexDigits len n).length = len := by
  induction len with
  | zero => intro n; rfl
  | succ len ih => intro n; rw [hexDigits, List.length_append, ih]; rfl

theorem hexChar_ascii {n : ℕ} (h : n < 16) : (hexChar n).utf8Size = 1 ∧ hexChar n ≠ '+' := by
  interval_cases n <;> decide

theorem mem_hexDigits (len : ℕ) : ∀ n, ∀ c ∈ hexDigits len n, ∃ d < 16, c = hexChar d := by
  induction len with
  | zero => intro n c hc; cases hc
  | succ len ih =>
    intro n c hc
    rcases List.mem_append.mp hc with hc | hc
    · exact ih _ c hc
    · exact ⟨n % 16, Nat.mod_lt _ (by norm_num), by simpa using hc⟩

theorem utf8ByteSize_ofList {cs : List Char} (h : ∀ c ∈ cs, c.utf8Size = 1) :
    (String.ofList cs).utf8ByteSize = cs.length := by
  induction cs with
  | nil => rfl
  | cons c cs ih =>
    have hcons : String.ofList (c :: cs) = String.singleton c ++ String.ofList cs := by
      rw [← String.toList_inj]
      simp
    rw [hcons, String.utf8ByteSize_append, String.utf8ByteSize_singleton,
      h c (List.mem_cons_self ..), ih fun d hd => h d (List.mem_cons_of_mem _ hd),
      List.length_cons, Nat.add_comm]

theorem decodeBodyHash_encode (h : UInt64) : decodeBodyHash (encodeBodyHash h) = some h := by
  have hdigit : ∀ c ∈ hexDigits 16 h.toNat, c.utf8Size = 1 ∧ c ≠ '+' := by
    intro c hc
    obtain ⟨d, hd, rfl⟩ := mem_hexDigits 16 _ c hc
    exact hexChar_ascii hd
  have hsize : (encodeBodyHash h).utf8ByteSize = 16 := by
    rw [encodeBodyHash, utf8ByteSize_ofList fun c hc => (hdigit c hc).1, length_hexDigits]
  have hlist : (encodeBodyHash h).toList = hexDigits 16 h.toNat := String.toList_ofList
  have hlt : h.toNat < 2 ^ 64 := h.toNat_lt
  have hfold := foldl_hexDigits 16 h.toNat (by simpa using hlt)
  rw [decodeBodyHash, if_pos hsize, hlist]
  unfold fromStrRadix16
  cases hdigits : hexDigits 16 h.toNat with
  | nil =>
    have hlength := length_hexDigits 16 h.toNat
    rw [hdigits] at hlength
    cases hlength
  | cons c cs =>
    rw [hdigits] at hdigit hfold
    have hplus : dropPlus (c :: cs) = c :: cs := by
      unfold dropPlus
      split
      · next heq => exact absurd (List.cons.inj heq).1 (hdigit c (List.mem_cons_self ..)).2
      · rfl
    rw [hplus]
    dsimp only
    rw [if_neg (List.cons_ne_nil _ _), hfold]
    dsimp only
    rw [if_pos hlt, UInt64.ofNat_toNat]

/-! ### The smallest record -/

theorem cmpPlaced_ne_gt_iff {direction : Direction} {a b : ℕ × F64} :
    cmpPlaced direction a b ≠ .gt ↔
      a.1 < b.1 ∨ a.1 = b.1 ∧ badness direction b.2 ≤ badness direction a.2 := by
  rcases lt_trichotomy a.1 b.1 with h | h | h
  · rw [cmpPlaced, h.cmp_eq_lt]
    simp [h]
  · rw [cmpPlaced, h, cmp_self_eq_eq, Ordering.eq_then, cmpWorse_ne_gt_iff]
    simp
  · rw [cmpPlaced, h.cmp_eq_gt]
    simp [h.not_gt, h.ne']

/-- A record on the violation's own line leaves only records at least as lenient. -/
theorem minBy_own {direction : Direction} {value : F64} {l : List (ℕ × F64)}
    (hown : (0, value) ∈ l) :
    ∃ recorded, (minBy (cmpPlaced direction) l).map (·.2) = some recorded ∧
      cmpWorse direction value recorded ≠ .gt := by
  obtain ⟨a, as, rfl⟩ := List.exists_cons_of_ne_nil (List.ne_nil_of_mem hown)
  obtain ⟨m, -, hm, hle⟩ := minBy_spec (cmpPlaced direction)
    (by
      intro a b hab
      have hnot := mt cmpPlaced_ne_gt_iff.mpr (not_not.mpr hab)
      rw [cmpPlaced_ne_gt_iff]
      push Not at hnot
      rcases hnot.1.lt_or_eq with h | h
      · exact .inl h
      · exact .inr ⟨h, (hnot.2 h.symm).le⟩)
    (by
      intro a b c hab hbc
      rw [cmpPlaced_ne_gt_iff] at *
      rcases hab with hab | ⟨hab, hle⟩ <;> rcases hbc with hbc | ⟨hbc, hle'⟩
      · exact .inl (hab.trans hbc)
      · exact .inl (hbc ▸ hab)
      · exact .inl (hab ▸ hbc)
      · exact .inr ⟨hab.trans hbc, hle'.trans hle⟩)
    (by
      intro a
      rw [cmpPlaced_ne_gt_iff]
      exact .inr ⟨rfl, le_rfl⟩) a as
  refine ⟨m.2, by rw [hm, Option.map_some], ?_⟩
  rcases cmpPlaced_ne_gt_iff.mp (hle _ hown) with h | ⟨-, h⟩
  · exact absurd h (Nat.not_lt_zero _)
  · exact cmpWorse_ne_gt_iff.mpr h

/-! ### The tables loaded from a written file -/

def recordOf (e : BaselineEntry) : Record := ⟨e.startLine, e.value, e.bodyHash.bind decodeBodyHash⟩

/-- Loading files every entry of a current baseline under its own key. -/
theorem foldl_loadEntry (entries : List BaselineEntry) : ∀ b : Baseline,
    (∀ e ∈ entries, e.value.isFinite) →
    let loaded := entries.foldl (loadEntry false) b
    (∀ key, loaded.bySymbol key =
      b.bySymbol key ++ (entries.filter fun e => e.key = key).map recordOf) ∧
    loaded.anchor = b.anchor ∧ loaded.tolerance = b.tolerance ∧ loaded.fuzzy = b.fuzzy ∧
      loaded.legacySymbolMatch = b.legacySymbolMatch := by
  induction entries with
  | nil =>
    intro b _
    simp
  | cons e entries ih =>
    intro b hfinite
    have hvalue : recordable e.value = some e.value :=
      if_pos (hfinite e (List.mem_cons_self ..))
    obtain ⟨hkey, hrest⟩ := ih (loadEntry false b e) fun e he =>
      hfinite e (List.mem_cons_of_mem _ he)
    have hload : (loadEntry false b e).bySymbol =
        Function.update b.bySymbol e.key (b.bySymbol e.key ++ [recordOf e]) := by
      simp only [loadEntry, hvalue]
      rfl
    have hframe : (loadEntry false b e).anchor = b.anchor ∧
        (loadEntry false b e).tolerance = b.tolerance ∧
        (loadEntry false b e).fuzzy = b.fuzzy ∧
        (loadEntry false b e).legacySymbolMatch = b.legacySymbolMatch := by
      simp only [loadEntry, hvalue, and_self]
    rw [hframe.1, hframe.2.1, hframe.2.2.1, hframe.2.2.2] at hrest
    refine ⟨?_, hrest⟩
    intro key
    rw [List.foldl_cons, hkey key, hload]
    by_cases h : e.key = key
    · subst h
      rw [Function.update_self, List.filter_cons_of_pos (by simp), List.map_cons,
        List.append_assoc]
      rfl
    · rw [Function.update_of_ne (Ne.symm h), List.filter_cons_of_neg (by simpa using h)]

/-! ### The groups of a written file -/

section Written
variable (anchor : PathBytes)

/-- The key a violation is matched by. -/
def symbolOf (v : Violation) : SymbolKey :=
  toLex (normalizePath (lexicalNormalize anchor) v.path, toLex (v.function, v.metric))

/-- Violations in the order their entries are written in. -/
def lineUp (violations : List Violation) : List Violation :=
  violations.insertionSort fun v w =>
    (toLex (normalizePath (lexicalNormalize anchor) v.path,
      toLex (v.function, toLex (v.metric, (v.startLine : WithBot ℕ)))) : Identity) ≤
    toLex (normalizePath (lexicalNormalize anchor) w.path,
      toLex (w.function, toLex (w.metric, (w.startLine : WithBot ℕ))))

/-- The first violation of the same symbol with the same body hash. -/
def firstTwin (violations : List Violation) (v : Violation) : Option Violation :=
  (lineUp anchor violations).find? fun u =>
    symbolOf anchor u = symbolOf anchor v ∧ u.bodyHash = v.bodyHash

def writtenEntry (v : Violation) : BaselineEntry where
  path := normalizePath (lexicalNormalize anchor) v.path
  qualified := v.function
  startLine := some v.startLine
  metric := v.metric
  value := v.value
  bodyHash := v.bodyHash.map encodeBodyHash

theorem recordOf_writtenEntry (v : Violation) :
    recordOf (writtenEntry anchor v) = ⟨some v.startLine, v.value, v.bodyHash⟩ := by
  cases h : v.bodyHash with
  | none => simp [recordOf, writtenEntry, h]
  | some hash => simp [recordOf, writtenEntry, h, decodeBodyHash_encode]

theorem filterMap_entryOf {violations : List Violation}
    (hfinite : ∀ v ∈ violations, v.value.isFinite) :
    violations.filterMap (entryOf (lexicalNormalize anchor)) =
      violations.map (writtenEntry anchor) := by
  rw [← List.filterMap_eq_map]
  apply List.filterMap_congr
  intro v hv
  have hvalue : recordable v.value = some v.value := if_pos (hfinite v hv)
  rw [entryOf, hvalue]
  rfl

theorem key_le_of_identity_le {a b : BaselineEntry} (h : a.identity ≤ b.identity) :
    a.key ≤ b.key := by
  simp only [BaselineEntry.identity, BaselineEntry.key, Prod.Lex.toLex_le_toLex] at h ⊢
  rcases h with h | ⟨hpath, h | ⟨hqualified, h | ⟨hmetric, -⟩⟩⟩
  · exact .inl h
  · exact .inr ⟨hpath, .inl h⟩
  · exact .inr ⟨hpath, .inr ⟨hqualified, h.le⟩⟩
  · exact .inr ⟨hpath, .inr ⟨hqualified, hmetric.le⟩⟩

theorem clearRun_key {run : List BaselineEntry} {k : SymbolKey} (h : ∀ e ∈ run, e.key = k) :
    ∀ e ∈ clearRun run, e.key = k := by
  intro e he
  match run, h, he with
  | [], h, he => cases he
  | [only], h, he =>
    rw [clearRun, List.mem_singleton] at he
    rw [he]
    exact h only (List.mem_cons_self ..)
  | a :: b :: rest, h, he => exact h e he

theorem clearRun_value {run : List BaselineEntry} {e : BaselineEntry} (h : e ∈ clearRun run) :
    ∃ e' ∈ run, e.value = e'.value := by
  match run, h with
  | [], h => cases h
  | [only], h =>
    rw [clearRun, List.mem_singleton] at h
    exact ⟨only, List.mem_cons_self .., by rw [h]⟩
  | a :: b :: rest, h => exact ⟨e, h, rfl⟩

/-- The entries of one symbol in the written file. -/
theorem filter_fromViolations {violations : List Violation}
    (hfinite : ∀ v ∈ violations, v.value.isFinite) (k : SymbolKey) :
    (fromViolations violations anchor).entries.filter (fun e => e.key = k) =
      clearRun (((lineUp anchor violations).filter fun v => symbolOf anchor v = k).map
        (writtenEntry anchor)) := by
  have hsorted : (violations.map (writtenEntry anchor)).insertionSort
      (fun a b => a.identity ≤ b.identity) =
        (lineUp anchor violations).map (writtenEntry anchor) :=
    (List.map_insertionSort _ (fun a b : BaselineEntry => a.identity ≤ b.identity)
      (writtenEntry anchor) violations fun _ _ _ _ => Iff.rfl).symm
  have hpairwise : ((violations.map (writtenEntry anchor)).insertionSort
      (fun a b => a.identity ≤ b.identity)).Pairwise fun a b => a.key ≤ b.key := by
    have h := List.pairwise_insertionSort (fun a b : BaselineEntry => a.identity ≤ b.identity)
      (violations.map (writtenEntry anchor))
    exact h.imp fun hab => key_le_of_identity_le hab
  have hfilter := filter_flatMap_chunkBy BaselineEntry.key BaselineEntry.key clearRun rfl
    (fun run k h => clearRun_key h) k _ _ le_rfl hpairwise
  rw [fromViolations, filterMap_entryOf anchor hfinite]
  refine hfilter.trans ?_
  rw [hsorted, List.filter_map]
  rfl

/-! ### Matching against one's own group -/

/-- A group of several records is searched by body and then by line. -/
theorem matchInGroup_of_two (b : Baseline) {key : SymbolKey} {v : Violation} {r s : Record}
    {rest : List Record} (h : b.bySymbol key = r :: s :: rest) :
    b.matchInGroup key v =
      (if b.fuzzy ∧ v.bodyHash.isSome then
        (r :: s :: rest).find? (·.bodyHash = v.bodyHash) else none).elim
        ((minBy (cmpPlaced v.direction) (b.placed v (r :: s :: rest))).map (·.2))
        fun record => some record.value := by
  rw [Baseline.matchInGroup, h]
  dsimp only
  generalize (if b.fuzzy ∧ v.bodyHash.isSome then
    (r :: s :: rest).find? (·.bodyHash = v.bodyHash) else none) = byBody
  cases byBody <;> rfl

variable {anchor}

theorem classify_covered_iff {b : Baseline} {v : Violation} {recorded : F64}
    (h : b.matchInGroup (b.symbolKey v) v = some recorded) :
    (∃ r, b.classify v = .covered r) ↔ cmpWorse v.direction v.value recorded ≠ .gt := by
  rw [Baseline.classify, h, Option.some_or]
  dsimp only
  by_cases hgt : cmpWorse v.direction v.value recorded = .gt
  · simp [hgt]
  · simp [hgt]

/-- What the condition says of one violation. -/
def MeetsTwin (anchor : PathBytes) (violations : List Violation) (v : Violation) : Prop :=
  v.bodyHash.isSome → 2 ≤ (violations.filter fun u => symbolOf anchor u = symbolOf anchor v).length →
    ∀ u, firstTwin anchor violations v = some u → cmpWorse v.direction v.value u.value ≠ .gt

/-- The record written for a violation. -/
def ownRecord (v : Violation) : Record := ⟨some v.startLine, v.value, v.bodyHash⟩

theorem matchInGroup_own {violations : List Violation} {b : Baseline} {v : Violation}
    (hv : v ∈ violations)
    (hgroup : b.bySymbol (symbolOf anchor v) =
      (clearRun (((lineUp anchor violations).filter fun u =>
        symbolOf anchor u = symbolOf anchor v).map (writtenEntry anchor))).map recordOf) :
    ∃ recorded, b.matchInGroup (symbolOf anchor v) v = some recorded ∧
      (cmpWorse v.direction v.value recorded ≠ .gt ↔
        (b.fuzzy = true → MeetsTwin anchor violations v)) := by
  have hperm := (List.perm_insertionSort (fun v w : Violation =>
    (toLex (normalizePath (lexicalNormalize anchor) v.path,
      toLex (v.function, toLex (v.metric, (v.startLine : WithBot ℕ)))) : Identity) ≤
    toLex (normalizePath (lexicalNormalize anchor) w.path,
      toLex (w.function, toLex (w.metric, (w.startLine : WithBot ℕ))))) violations)
  have hlength := (hperm.filter fun u => symbolOf anchor u = symbolOf anchor v).length_eq
  have hmem : v ∈ (lineUp anchor violations).filter fun u =>
      symbolOf anchor u = symbolOf anchor v :=
    List.mem_filter.mpr ⟨hperm.mem_iff.mpr hv, by simp⟩
  have hrefl : cmpWorse v.direction v.value v.value ≠ .gt := cmpWorse_ne_gt_iff.mpr le_rfl
  have htwin : firstTwin anchor violations v = ((lineUp anchor violations).filter fun u =>
      symbolOf anchor u = symbolOf anchor v).find? fun u => u.bodyHash = v.bodyHash := by
    rw [List.find?_filter]
    simp [firstTwin]
  change _ = List.length (List.filter _ violations) at hlength
  rw [← lineUp] at hlength
  cases hfilter : (lineUp anchor violations).filter fun u =>
      symbolOf anchor u = symbolOf anchor v with
  | nil =>
    rw [hfilter] at hmem
    cases hmem
  | cons w ws =>
    rw [hfilter] at hgroup hmem hlength htwin
    cases ws with
    | nil =>
      obtain rfl : v = w := by simpa using hmem
      refine ⟨v.value, ?_, ?_⟩
      · rw [Baseline.matchInGroup, hgroup]
        rfl
      · refine iff_of_true hrefl fun _ _ htwo => ?_
        rw [← hlength] at htwo
        simp at htwo
    | cons w' ws =>
      have hrecords : b.bySymbol (symbolOf anchor v) = (w :: w' :: ws).map ownRecord := by
        rw [hgroup]
        simp only [List.map_cons, clearRun, recordOf_writtenEntry, List.map_map, ownRecord]
        congr 2
        apply List.map_congr_left
        intro u _
        exact recordOf_writtenEntry anchor u
      have hfind : ((w :: w' :: ws).map ownRecord).find? (·.bodyHash = v.bodyHash) =
          (firstTwin anchor violations v).map ownRecord := by
        rw [List.find?_map, htwin]
        rfl
      have hown : (0, v.value) ∈ b.placed v ((w :: w' :: ws).map ownRecord) := by
        refine List.mem_filterMap.mpr ⟨ownRecord v, List.mem_map_of_mem hmem, ?_⟩
        simp [ownRecord, absDiff]
      have hmatch : b.matchInGroup (symbolOf anchor v) v = _ := matchInGroup_of_two b hrecords
      rw [← List.map_cons, ← List.map_cons, hfind] at hmatch
      by_cases hfuzzy : b.fuzzy ∧ v.bodyHash.isSome
      · -- by the body: the first twin decides
        obtain ⟨u, hu⟩ : ∃ u, firstTwin anchor violations v = some u := by
          rw [← Option.isSome_iff_exists, htwin, List.find?_isSome]
          exact ⟨v, hmem, by simp⟩
        rw [if_pos hfuzzy, hu] at hmatch
        refine ⟨u.value, hmatch, ?_⟩
        constructor
        · rintro hle - - - u' hu'
          rw [hu] at hu'
          obtain rfl := Option.some.inj hu'
          exact hle
        · intro h
          exact h hfuzzy.1 hfuzzy.2 (by rw [← hlength]; simp) u hu
      · -- by the line: the own record is at distance zero
        obtain ⟨recorded, hrecorded, hle⟩ :
            ∃ recorded, (minBy (cmpPlaced v.direction) _).map (·.2) = some recorded ∧
              cmpWorse v.direction v.value recorded ≠ .gt := minBy_own hown
        rw [if_neg hfuzzy] at hmatch
        refine ⟨recorded, hmatch.trans hrecorded, ?_⟩
        exact iff_of_true hle fun hf hsome => absurd ⟨hf, hsome⟩ hfuzzy

theorem fromViolations_finite {violations : List Violation}
    (hfinite : ∀ v ∈ violations, v.value.isFinite) :
    ∀ e ∈ (fromViolations violations anchor).entries, e.value.isFinite := by
  intro e he
  have hfilter : e ∈ (fromViolations violations anchor).entries.filter (fun e' => e'.key = e.key) :=
    List.mem_filter.mpr ⟨he, by simp⟩
  rw [filter_fromViolations anchor hfinite] at hfilter
  obtain ⟨e', he', hvalue⟩ := clearRun_value hfilter
  obtain ⟨v, hv, rfl⟩ := List.mem_map.mp he'
  have hmem : v ∈ violations := by
    have h := (List.mem_filter.mp hv).1
    rwa [lineUp, List.mem_insertionSort] at h
  rw [hvalue]
  exact hfinite v hmem

end Written

/-- A written baseline loads, and its tables hold the entries of every symbol. -/
theorem fromStr_fromViolations {D : Type*} (toml : Toml D) {violations : List Violation}
    (hfinite : ∀ v ∈ violations, v.value.isFinite) (anchor : PathBytes) (tolerance : ℕ)
    (fuzzy : Bool) :
    ∃ b, fromStr toml (toml.render (fromViolations violations anchor)) anchor tolerance fuzzy =
        .ok b ∧
      (∀ key, b.bySymbol key = (clearRun (((lineUp anchor violations).filter fun u =>
        symbolOf anchor u = key).map (writtenEntry anchor))).map recordOf) ∧
      b.fuzzy = fuzzy ∧ ∀ v, b.symbolKey v = symbolOf anchor v := by
  have hload := foldl_loadEntry (fromViolations violations anchor).entries
    ⟨fun _ => [], fun _ => none, lexicalNormalize anchor, tolerance, fuzzy, false⟩
    (fromViolations_finite hfinite)
  generalize hb : (fromViolations violations anchor).entries.foldl (loadEntry false)
    ⟨fun _ => [], fun _ => none, lexicalNormalize anchor, tolerance, fuzzy, false⟩ = b at hload
  obtain ⟨hbySymbol, hanchor, -, hfuzzy, hlegacy⟩ := hload
  refine ⟨b, ?_, ?_, hfuzzy, ?_⟩
  · rw [fromStr, toml.round_trip, ← hb]
    rfl
  · intro key
    rw [hbySymbol, List.nil_append, filter_fromViolations anchor hfinite]
  · intro v
    rw [Baseline.symbolKey, hanchor, hlegacy]
    rfl

/-- A baseline read back covers the violations it was written from exactly when, in fuzzy mode,
no violation of a repeated symbol is worse than the first one there with its body. -/
theorem selfCoverage_iff {D : Type*} (toml : Toml D) (violations : List Violation)
    (hfinite : ∀ v ∈ violations, v.value.isFinite) (anchor : PathBytes) (tolerance : ℕ)
    (fuzzy : Bool) :
    ∃ baseline, fromStr toml (toml.render (fromViolations violations anchor)) anchor tolerance
        fuzzy = .ok baseline ∧
      ((∀ v ∈ violations, ∃ recorded, baseline.classify v = .covered recorded) ↔
        (fuzzy = true → ∀ v ∈ violations, MeetsTwin anchor violations v)) := by
  obtain ⟨b, hb, hbySymbol, rfl, hkey⟩ :=
    fromStr_fromViolations toml hfinite anchor tolerance fuzzy
  have hown : ∀ v ∈ violations, (∃ recorded, b.classify v = .covered recorded) ↔
      (b.fuzzy = true → MeetsTwin anchor violations v) := by
    intro v hv
    obtain ⟨recorded, hmatch, hiff⟩ := matchInGroup_own hv (hbySymbol _)
    rw [← hkey v] at hmatch
    exact (classify_covered_iff hmatch).trans hiff
  refine ⟨b, hb, ?_, ?_⟩
  · intro h hf v hv
    exact (hown v hv).mp (h v hv) hf
  · intro h v hv
    exact (hown v hv).mpr fun hf => h hf v hv

/-- Documents that are the file itself. -/
def identityToml : Toml BaselineFile := ⟨id, .ok, fun _ => rfl⟩

/-- Two offenders of one symbol with one body, the second one worse. -/
def twins : List Violation :=
  [⟨"/a".toUTF8.toList, "f", 1, .finite 10, "loc.sloc", .higherIsWorse, some 7⟩,
    ⟨"/a".toUTF8.toList, "f", 5, .finite 20, "loc.sloc", .higherIsWorse, some 7⟩]

theorem selfCoverage_iff_twins :
    ∃ baseline, fromStr identityToml (identityToml.render (fromViolations twins [])) [] 3
        false = .ok baseline ∧
      ((∀ v ∈ twins, ∃ recorded, baseline.classify v = .covered recorded) ↔
        (false = true → ∀ v ∈ twins, MeetsTwin [] twins v)) :=
  selfCoverage_iff identityToml twins (by decide) [] 3 false

/-- What the loaded baseline says of the worse twin. -/
def worseTwinVerdict : Except String Coverage :=
  (fromStr identityToml (identityToml.render (fromViolations twins [])) [] 3 true).map fun b =>
    b.classify ⟨"/a".toUTF8.toList, "f", 5, .finite 20, "loc.sloc", .higherIsWorse, some 7⟩

theorem worseTwinVerdict_eq : worseTwinVerdict.toOption = some (.regressed (.finite 10)) := by
  decide +kernel

/-- Matched by body, the worse twin is measured against the better one. -/
theorem worseTwin_regresses :
    ¬ ∀ (violations : List Violation), (∀ v ∈ violations, v.value.isFinite) →
      ∀ (anchor : PathBytes) (tolerance : ℕ) (fuzzy : Bool), ∃ baseline,
        fromStr identityToml (identityToml.render (fromViolations violations anchor)) anchor
          tolerance fuzzy = .ok baseline ∧
        ∀ v ∈ violations, ∃ recorded, baseline.classify v = .covered recorded := by
  intro h
  obtain ⟨baseline, hok, hcovered⟩ := h twins (by decide) [] 3 true
  obtain ⟨recorded, hrecorded⟩ := hcovered _ (List.mem_cons_of_mem _ (List.mem_cons_self ..))
  have hverdict := worseTwinVerdict_eq
  rw [worseTwinVerdict, hok, Except.map, hrecorded] at hverdict
  cases hverdict

end BigCodeAnalysis.Baseline
