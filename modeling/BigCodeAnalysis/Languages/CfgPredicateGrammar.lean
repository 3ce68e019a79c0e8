import BigCodeAnalysis.Languages.CfgPredicateNaive

/-! Well-formed predicates: words, `key = "value"` pairs and calls with an argument
list, with any white space between the tokens. Where no value holds a parenthesis or a
comma the walk answers whether a leaf `test` is reached through `all`, `any` and bare
lists alone. -/

namespace BigCodeAnalysis.Languages.CfgPredicate

open Sequences Spaces

/-- Characters that separate tokens. -/
def isDelimiter (c : Char) : Bool :=
  isWhitespace c || c = '(' || c = ')' || c = ',' || c = '='

/-- An identifier. -/
structure Word where
  text : List Char
  ne_nil : text ≠ []
  plain : ∀ c ∈ text, isDelimiter c = false

def Word.ofString (text : String) (ne_nil : text.toList ≠ [])
    (plain : (text.toList.all fun c => !isDelimiter c) = true) : Word where
  text := text.toList
  ne_nil := ne_nil
  plain := by simpa using plain

/-- White space between two tokens. -/
structure Gap where
  text : List Char
  blank : Blank text

def Gap.none : Gap := ⟨[], by simp [Blank]⟩

def Gap.space : Gap := ⟨[' '], by simp [Blank]; decide⟩

/-- The text of a string literal, quotes included, that holds no structure. -/
structure Literal where
  text : List Char
  plain : ∀ c ∈ text, c ≠ '(' ∧ c ≠ ')' ∧ c ≠ ','

def Literal.ofString (text : String)
    (plain : (text.toList.all fun c => decide (c ≠ '(' ∧ c ≠ ')' ∧ c ≠ ',')) = true) : Literal where
  text := text.toList
  plain := by simpa using plain

mutual

/-- A predicate with the white space around its tokens. -/
inductive Pred
  | word (lead : Gap) (name : Word) (trail : Gap)
  | pair (lead : Gap) (key : Word) (beforeEq afterEq : Gap) (value : Literal) (trail : Gap)
  | call (lead : Gap) (name : Word) (gap : Gap) (args : Args) (trail : Gap)

/-- A comma-separated list; its end is empty or white space, behind a trailing comma when
there are predicates in front of it. -/
inductive Args
  | blank (gap : Gap)
  | last (pred : Pred)
  | cons (pred : Pred) (rest : Args)

end

mutual

def Pred.text : Pred → List Char
  | .word lead name trail => lead.text ++ name.text ++ trail.text
  | .pair lead key beforeEq afterEq value trail =>
    lead.text ++ key.text ++ beforeEq.text ++ ['='] ++ afterEq.text ++ value.text ++ trail.text
  | .call lead name gap args trail =>
    lead.text ++ name.text ++ gap.text ++ ['('] ++ args.text ++ [')'] ++ trail.text

def Args.text : Args → List Char
  | .blank gap => gap.text
  | .last pred => pred.text
  | .cons pred rest => pred.text ++ ',' :: rest.text

end

mutual

/-- A leaf `test` is reached through `all` and `any` alone. -/
def Pred.reachesTest : Pred → Bool
  | .word _ name _ => name.text = "test".toList
  | .pair _ _ _ _ _ _ => false
  | .call _ name _ args _ =>
    (name.text = "all".toList || name.text = "any".toList) && args.reachesTest

def Args.reachesTest : Args → Bool
  | .blank _ => false
  | .last pred => pred.reachesTest
  | .cons pred rest => pred.reachesTest || rest.reachesTest

end

/-! ### Balance -/

/-- No comma of the text is at depth 0 when it starts at `depth`. -/
def NoTop : ℤ → List Char → Prop
  | _, [] => True
  | depth, c :: text => ¬(c = ',' ∧ depth = 0) ∧ NoTop (depth + charDelta c) text

theorem noTop_append {depth : ℤ} {a b : List Char} :
    NoTop depth (a ++ b) ↔ NoTop depth a ∧ NoTop (depth + textDelta a) b := by
  induction a generalizing depth with
  | nil => simp [NoTop]
  | cons c a ih => simp [NoTop, ih, and_assoc, Int.add_assoc]

theorem splitTop_of_noTop {depth : ℤ} {text : List Char} (h : NoTop depth text) :
    splitTop depth text = [text] := by
  induction text generalizing depth with
  | nil => rfl
  | cons c text ih => rw [splitTop, if_neg h.1, ih h.2]

theorem splitTop_comma {depth : ℤ} {text : List Char} (h : NoTop depth text)
    (hzero : depth + textDelta text = 0) (rest : List Char) :
    splitTop depth (text ++ ',' :: rest) = text :: splitTop 0 rest := by
  induction text generalizing depth with
  | nil =>
    obtain rfl : depth = 0 := by simpa using hzero
    simp [splitTop]
  | cons c text ih =>
    rw [List.cons_append, splitTop, if_neg h.1, ih h.2 (by rw [← hzero, textDelta_cons]; omega)]

/-- A text without structure. -/
def Flat (text : List Char) : Prop := ∀ c ∈ text, c ≠ '(' ∧ c ≠ ')' ∧ c ≠ ','

theorem Flat.textDelta {text : List Char} (h : Flat text) : textDelta text = 0 :=
  textDelta_eq_zero fun c hc => ⟨(h c hc).1, (h c hc).2.1⟩

theorem Flat.noTop {text : List Char} (h : Flat text) (depth : ℤ) : NoTop depth text := by
  induction text generalizing depth with
  | nil => trivial
  | cons c text ih =>
    exact ⟨fun hc => (h c List.mem_cons_self).2.2 hc.1,
      ih (fun d hd => h d (List.mem_cons_of_mem c hd)) _⟩

theorem Gap.flat (gap : Gap) : Flat gap.text := by
  refine fun c hc => ⟨?_, ?_, ?_⟩ <;> rintro rfl <;> exact absurd (gap.blank _ hc) (by decide)

theorem Word.flat (word : Word) : Flat word.text := by
  refine fun c hc => ⟨?_, ?_, ?_⟩ <;> rintro rfl <;> exact absurd (word.plain _ hc) (by decide)

theorem flat_eq_sign : Flat ['='] := by
  intro c hc
  obtain rfl := List.mem_singleton.mp hc
  decide

/-- A text that can stand at any depth of at least 0 without changing it. -/
def Balanced (text : List Char) : Prop :=
  textDelta text = 0 ∧ ∀ depth : ℤ, 0 ≤ depth → NoTop depth text

theorem Flat.balanced {text : List Char} (h : Flat text) : Balanced text :=
  ⟨h.textDelta, fun depth _ => h.noTop depth⟩

theorem Balanced.append {a b : List Char} (ha : Balanced a) (hb : Balanced b) :
    Balanced (a ++ b) := by
  refine ⟨by rw [textDelta_append, ha.1, hb.1]; rfl, fun depth hdepth => ?_⟩
  rw [noTop_append, ha.1, add_zero]
  exact ⟨ha.2 depth hdepth, hb.2 depth hdepth⟩

/-- Inside parentheses the commas of a list are at no depth 0. -/
theorem balanced_parens {inner : List Char} (hdelta : textDelta inner = 0)
    (hinner : ∀ depth : ℤ, 0 < depth → NoTop depth inner) : Balanced (['('] ++ inner ++ [')']) := by
  have hopen : textDelta ['('] = 1 := by decide
  have hclose : textDelta [')'] = -1 := by decide
  constructor
  · rw [textDelta_append, textDelta_append, hopen, hclose, hdelta]
    rfl
  · intro depth hdepth
    rw [noTop_append, noTop_append, textDelta_append, hopen, hdelta]
    refine ⟨⟨?_, hinner _ (by omega)⟩, ?_⟩
    · simp [NoTop]
    · simp [NoTop]

mutual

theorem Pred.balanced : ∀ p : Pred, Balanced p.text
  | .word lead name trail => (lead.flat.balanced.append name.flat.balanced).append trail.flat.balanced
  | .pair lead key beforeEq afterEq value trail => by
    have hvalue : Flat value.text := value.plain
    exact (((((lead.flat.balanced.append key.flat.balanced).append beforeEq.flat.balanced).append
      flat_eq_sign.balanced).append afterEq.flat.balanced).append hvalue.balanced).append
      trail.flat.balanced
  | .call lead name gap args trail => by
    obtain ⟨hdelta, hinner⟩ := args.inside
    have hall := (((lead.flat.balanced.append name.flat.balanced).append
      gap.flat.balanced).append (balanced_parens hdelta hinner)).append trail.flat.balanced
    simpa [Pred.text, List.append_assoc] using hall

theorem Args.inside : ∀ args : Args, textDelta args.text = 0 ∧
    ∀ depth : ℤ, 0 < depth → NoTop depth args.text
  | .blank gap => ⟨gap.flat.textDelta, fun depth _ => gap.flat.noTop depth⟩
  | .last pred => ⟨pred.balanced.1, fun depth hdepth => pred.balanced.2 depth (by omega)⟩
  | .cons pred rest => by
    obtain ⟨hdelta, hinner⟩ := rest.inside
    have hcomma : charDelta ',' = 0 := by decide
    constructor
    · rw [Args.text, textDelta_append, pred.balanced.1, textDelta_cons, hdelta, hcomma]
      rfl
    · intro depth hdepth
      rw [Args.text, noTop_append, pred.balanced.1, add_zero]
      refine ⟨pred.balanced.2 depth (by omega), fun h => by omega, ?_⟩
      rw [hcomma, add_zero]
      exact hinner depth hdepth

end

/-! ### Reading one operand -/

theorem Gap.trimStart_append (gap : Gap) {text : List Char} {c : Char}
    (hc : isWhitespace c = false) : trimStart (gap.text ++ c :: text) = c :: text := by
  rw [trimStart, List.dropWhile_append_of_pos gap.blank, List.dropWhile_cons_of_neg (by simp [hc])]

/-- Trimming cuts off exactly the white space around a text with none at its ends. -/
theorem trim_eq (lead trail : Gap) {core front back : List Char} {c d : Char}
    (hfront : core = c :: front) (hback : core = back ++ [d]) (hc : isWhitespace c = false)
    (hd : isWhitespace d = false) : trim (lead.text ++ core ++ trail.text) = core := by
  have hstart : trimStart (lead.text ++ core ++ trail.text) = core ++ trail.text := by
    rw [hfront, List.append_assoc, List.cons_append]
    exact lead.trimStart_append hc
  rw [trim, hstart, hback]
  exact trimEnd_append hd trail.blank

theorem mem_of_mem_trim {c : Char} {text : List Char} (h : c ∈ trim text) : c ∈ text := by
  obtain ⟨lead, -, hlead⟩ := trimStart_split text
  obtain ⟨trail, -, htrail⟩ := trimEnd_split (trimStart text)
  rw [hlead, htrail, ← trim]
  simp [h]

theorem mem_trim {c : Char} {text : List Char} (hc : isWhitespace c = false) (h : c ∈ text) :
    c ∈ trim text := by
  obtain ⟨lead, hblank, hlead⟩ := trimStart_split text
  obtain ⟨trail, hblank', htrail⟩ := trimEnd_split (trimStart text)
  rw [hlead, htrail, ← trim, List.mem_append, List.mem_append] at h
  rcases h with h | h | h
  · rw [hblank c h] at hc
    cases hc
  · exact h
  · rw [hblank' c h] at hc
    cases hc

theorem combinatorArgs_eq_some {trimmed inside args : List Char} :
    combinatorArgs trimmed = some (inside, args) ↔ ∃ rest,
      (stripStart "all".toList trimmed).or (stripStart "any".toList trimmed) = some rest ∧
      trimStart rest = '(' :: inside ∧ inside = args ++ [')'] := by
  unfold combinatorArgs
  constructor
  · intro h
    obtain ⟨rest, hrest, h⟩ := Option.bind_eq_some_iff.mp h
    obtain ⟨inside', hinside, h⟩ := Option.bind_eq_some_iff.mp h
    obtain ⟨args', hargs, h⟩ := Option.bind_eq_some_iff.mp h
    obtain ⟨rfl, rfl⟩ := Prod.mk.inj (Option.some_inj.mp h)
    exact ⟨rest, hrest, stripStart_eq_some.mp hinside, stripEnd_eq_some.mp hargs⟩
  · rintro ⟨rest, hrest, hinside, hargs⟩
    have hin : stripStart ['('] (trimStart rest) = some inside := stripStart_eq_some.mpr hinside
    have hout : stripEnd [')'] inside = some args := stripEnd_eq_some.mpr hargs
    simp only [hrest, hin, hout, Option.bind_eq_bind, Option.bind_some]
    rfl

/-- An argument list follows a word `all` or `any`. -/
theorem combinator_name {name : Word} {gap : Gap} {tail inside args : List Char}
    (h : combinatorArgs (name.text ++ (gap.text ++ '(' :: tail)) = some (inside, args)) :
    name.text = "all".toList ∨ name.text = "any".toList := by
  obtain ⟨rest, hrest, hinside, -⟩ := combinatorArgs_eq_some.mp h
  obtain ⟨blank, hblank, hsplit⟩ := trimStart_split rest
  rw [hinside] at hsplit
  -- both readings cut the text at its first delimiter
  have hcut : ∀ (word space tail : List Char), (∀ c ∈ word, isDelimiter c = false) →
      Blank space →
      (word ++ (space ++ '(' :: tail)).takeWhile (fun c => !isDelimiter c) = word := by
    intro word space tail hword hspace
    rw [List.takeWhile_append_of_pos (by simpa using hword)]
    cases space with
    | nil =>
      rw [List.nil_append, List.takeWhile_cons_of_neg (by decide), List.append_nil]
    | cons c space =>
      have hc : isWhitespace c = true := hspace c List.mem_cons_self
      rw [List.cons_append, List.takeWhile_cons_of_neg (by simp [isDelimiter, hc]),
        List.append_nil]
  have hplain : ∀ word : List Char, word.all (fun c => !isDelimiter c) = true →
      ∀ c ∈ word, isDelimiter c = false := by
    intro word hword c hc
    simpa using List.all_eq_true.mp hword c hc
  have hname := hcut name.text gap.text tail name.plain gap.blank
  rcases Option.or_eq_some_iff.mp hrest with h | ⟨-, h⟩
  · left
    rw [stripStart_eq_some.mp h, hsplit, hcut _ _ _ (hplain _ (by decide)) hblank] at hname
    exact hname.symm
  · right
    rw [stripStart_eq_some.mp h, hsplit, hcut _ _ _ (hplain _ (by decide)) hblank] at hname
    exact hname.symm

theorem argsOf_of_flat {operand : List Char} (h : '(' ∉ operand) : argsOf operand = none := by
  unfold argsOf
  split
  · rfl
  · cases hargs : combinatorArgs (trim operand) with
    | none => rfl
    | some p =>
      exfalso
      obtain ⟨rest, hrest, hinside, -⟩ := combinatorArgs_eq_some.mp hargs
      obtain ⟨blank, -, hsplit⟩ := trimStart_split rest
      have hmem : '(' ∈ rest := by
        rw [hsplit, hinside]
        simp
      refine h (mem_of_mem_trim ?_)
      rcases Option.or_eq_some_iff.mp hrest with hr | ⟨-, hr⟩
      · rw [stripStart_eq_some.mp hr]
        exact List.mem_append_right _ hmem
      · rw [stripStart_eq_some.mp hr]
        exact List.mem_append_right _ hmem

theorem isNot_prefix {trimmed : List Char} (h : isNot trimmed = true) :
    ∃ rest, trimmed = "not".toList ++ rest := by
  unfold isNot at h
  cases hstrip : stripStart "not".toList trimmed with
  | none =>
    rw [hstrip] at h
    cases h
  | some rest => exact ⟨rest, stripStart_eq_some.mp hstrip⟩

theorem Word.not_whitespace (word : Word) {c : Char} (h : c ∈ word.text) :
    isWhitespace c = false := by
  have hc := word.plain c h
  simp only [isDelimiter, Bool.or_eq_false_iff] at hc
  exact hc.1.1.1.1

/-- A call is descended into exactly when it is `all` or `any`. -/
theorem argsOf_call (lead : Gap) (name : Word) (gap : Gap) (inner : List Char) (trail : Gap) :
    isTest (lead.text ++ name.text ++ gap.text ++ ['('] ++ inner ++ [')'] ++ trail.text) = false ∧
    argsOf (lead.text ++ name.text ++ gap.text ++ ['('] ++ inner ++ [')'] ++ trail.text) =
      if name.text = "all".toList ∨ name.text = "any".toList then some inner else none := by
  set core := name.text ++ (gap.text ++ '(' :: (inner ++ [')'])) with hcore
  have htext : lead.text ++ name.text ++ gap.text ++ ['('] ++ inner ++ [')'] ++ trail.text =
      lead.text ++ core ++ trail.text := by
    simp [hcore, List.append_assoc]
  obtain ⟨c, word, hword⟩ := List.exists_cons_of_ne_nil name.ne_nil
  have hfront : core = c :: (word ++ (gap.text ++ '(' :: (inner ++ [')']))) := by
    rw [hcore, hword, List.cons_append]
  have hback : core = (name.text ++ (gap.text ++ '(' :: inner)) ++ [')'] := by
    simp [hcore, List.append_assoc]
  have hc : isWhitespace c = false := name.not_whitespace (hword ▸ List.mem_cons_self)
  have htrim := trim_eq lead trail hfront hback hc (by decide)
  rw [htext, isTest, argsOf, htrim]
  constructor
  · refine decide_eq_false fun htest => ?_
    have hmem : '(' ∈ core := by simp [hcore]
    rw [htest] at hmem
    exact absurd hmem (by decide)
  by_cases hname : name.text = "all".toList ∨ name.text = "any".toList
  · rw [if_pos hname]
    have hnot : ¬isNot core = true := by
      intro h
      obtain ⟨rest, hrest⟩ := isNot_prefix h
      rcases hname with h | h
      · rw [hcore, h] at hrest
        exact absurd (List.head_eq_of_cons_eq hrest) (by decide)
      · rw [hcore, h] at hrest
        exact absurd (List.head_eq_of_cons_eq hrest) (by decide)
    have hargs : combinatorArgs core = some (inner ++ [')'], inner) := by
      refine combinatorArgs_eq_some.mpr ⟨gap.text ++ '(' :: (inner ++ [')']), ?_,
        gap.trimStart_append (by decide), rfl⟩
      rcases hname with h | h
      · rw [Option.or_eq_some_iff]
        exact .inl (stripStart_eq_some.mpr (by rw [hcore, h]))
      · rw [Option.or_eq_some_iff]
        refine .inr ⟨stripStart_eq_none.mpr ?_, stripStart_eq_some.mpr (by rw [hcore, h])⟩
        rintro ⟨rest, hrest⟩
        rw [hcore, h] at hrest
        exact absurd (List.head_eq_of_cons_eq (List.tail_eq_of_cons_eq hrest)) (by decide)
    rw [if_neg hnot, hargs]
    rfl
  · rw [if_neg hname]
    split
    · rfl
    · cases hargs : combinatorArgs core with
      | none => rfl
      | some p => exact absurd (combinator_name hargs) hname

/-! ### Whole predicates -/

mutual

theorem Pred.reads : ∀ p : Pred,
    (isTest p.text || (argsOf p.text).any naiveMarksTest) = p.reachesTest
  | .word lead name trail => by
    obtain ⟨c, word, hword⟩ := List.exists_cons_of_ne_nil name.ne_nil
    obtain ⟨init, d, hlast⟩ := List.eq_nil_or_concat name.text |>.resolve_left name.ne_nil
    have hc : isWhitespace c = false := name.not_whitespace (hword ▸ List.mem_cons_self)
    rw [List.concat_eq_append] at hlast
    have hd : isWhitespace d = false := name.not_whitespace (by rw [hlast]; simp)
    have hflat : '(' ∉ lead.text ++ name.text ++ trail.text := by
      simp only [List.mem_append, not_or]
      exact ⟨⟨fun h => (lead.flat _ h).1 rfl, fun h => (name.flat _ h).1 rfl⟩,
        fun h => (trail.flat _ h).1 rfl⟩
    rw [Pred.text, argsOf_of_flat hflat, isTest, trim_eq lead trail hword hlast hc hd]
    exact Bool.or_false _
  | .pair lead key beforeEq afterEq value trail => by
    have hvalue : Flat value.text := value.plain
    have hflat : '(' ∉ (Pred.pair lead key beforeEq afterEq value trail).text := by
      simp only [Pred.text, List.mem_append, List.mem_singleton, not_or]
      exact ⟨⟨⟨⟨⟨⟨fun h => (lead.flat _ h).1 rfl, fun h => (key.flat _ h).1 rfl⟩,
        fun h => (beforeEq.flat _ h).1 rfl⟩, by decide⟩, fun h => (afterEq.flat _ h).1 rfl⟩,
        fun h => (hvalue _ h).1 rfl⟩, fun h => (trail.flat _ h).1 rfl⟩
    have htest : isTest (Pred.pair lead key beforeEq afterEq value trail).text = false := by
      refine decide_eq_false fun h => ?_
      have hmem : '=' ∈ trim (Pred.pair lead key beforeEq afterEq value trail).text :=
        mem_trim (by decide) (by simp [Pred.text])
      rw [h] at hmem
      exact absurd hmem (by decide)
    rw [argsOf_of_flat hflat, htest]
    rfl
  | .call lead name gap args trail => by
    obtain ⟨htest, hargs⟩ := argsOf_call lead name gap args.text trail
    rw [Pred.text, htest, hargs, Bool.false_or, Pred.reachesTest, ← args.reads]
    by_cases hname : name.text = "all".toList ∨ name.text = "any".toList
    · rw [if_pos hname]
      have hbool : (decide (name.text = "all".toList) || decide (name.text = "any".toList)) =
          true := by simpa using hname
      rw [hbool, Bool.true_and]
      rfl
    · rw [if_neg hname]
      have hbool : (decide (name.text = "all".toList) || decide (name.text = "any".toList)) =
          false := by simpa using hname
      rw [hbool, Bool.false_and]
      rfl

theorem Args.reads : ∀ args : Args, naiveMarksTest args.text = args.reachesTest
  | .blank gap => by
    have hflat : '(' ∉ gap.text := fun h => (gap.flat _ h).1 rfl
    have htest : isTest gap.text = false := by
      refine decide_eq_false fun h => ?_
      have hmem : 't' ∈ trim gap.text := by
        rw [h]
        decide
      exact absurd (gap.blank _ (mem_of_mem_trim hmem)) (by decide)
    rw [Args.text, naiveMarksTest_eq, splitTop_of_noTop (gap.flat.noTop 0)]
    simp [htest, argsOf_of_flat hflat, Args.reachesTest]
  | .last pred => by
    rw [Args.text, naiveMarksTest_eq, splitTop_of_noTop (pred.balanced.2 0 le_rfl), List.any_cons,
      List.any_nil, Bool.or_false, pred.reads, Args.reachesTest]
  | .cons pred rest => by
    have hzero : (0 : ℤ) + textDelta pred.text = 0 := by
      rw [pred.balanced.1]
      rfl
    rw [Args.text, naiveMarksTest_eq, splitTop_comma (pred.balanced.2 0 le_rfl) hzero,
      List.any_cons, pred.reads, ← naiveMarksTest_eq, rest.reads, Args.reachesTest]

end

/-- On every text the indexed walk answers, without a slice out of place, what the naive
recursive reading answers; on a well-formed predicate that is whether a leaf `test` is
reached through `all`, `any` and bare lists alone. -/
theorem cfgPredicateMarksTest_reads :
    (∀ pred : List Char, cfgPredicateMarksTest pred = some (naiveMarksTest pred)) ∧
      ∀ preds : Args, cfgPredicateMarksTest preds.text = some preds.reachesTest :=
  ⟨cfgPredicateMarksTest_eq, fun preds => by rw [cfgPredicateMarksTest_eq, preds.reads]⟩

/-- A platform, a feature and the test configuration. -/
def platformFeatureTest : Args :=
  .last (.call .none (.ofString "any" (by decide) (by decide)) .none
    (.cons (.word .none (.ofString "unix" (by decide) (by decide)) .space)
      (.cons (.pair .space (.ofString "feature" (by decide) (by decide)) .space .space
          (.ofString "\"x\"" (by decide)) .none)
        (.last (.word .space (.ofString "test" (by decide) (by decide)) .none)))) .none)

theorem cfgPredicateMarksTest_reads_platformFeatureTest :
    platformFeatureTest.text = "any(unix , feature = \"x\", test)".toList ∧
      cfgPredicateMarksTest platformFeatureTest.text = some true :=
  ⟨by decide, (cfgPredicateMarksTest_reads.2 platformFeatureTest).trans (by decide)⟩

end BigCodeAnalysis.Languages.CfgPredicate
