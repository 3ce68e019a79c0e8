import BigCodeAnalysis.Output.StepSummary
import BigCodeAnalysis.Output.WorkflowCommands
import BigCodeAnalysis.Sequences.SortedMap

/-! The annotations of a check: an error for each violation up to a cap for each metric, and one
notice for the rest. Paths and symbols come from the analysed code and may hold anything. -/

namespace BigCodeAnalysis.Output.Annotations

open Catalog (F64)
open Sequences (SortedMap)
open Thresholds (Violation NargsSplit)
open WorkflowCommand

variable {ρ : Type*}

/-! ### The writer -/

inductive GhaSlot where
  | property
  | message
  deriving DecidableEq, Repr

def escapeGhaChar (slot : GhaSlot) (ch : Char) : List Char :=
  if ch = '%' then ['%', '2', '5']
  else if ch = '\r' then ['%', '0', 'D']
  else if ch = '\n' then ['%', '0', 'A']
  else if ch = ':' ∧ slot = .property then ['%', '3', 'A']
  else if ch = ',' ∧ slot = .property then ['%', '2', 'C']
  else [ch]

def escapeGha (s : String) (slot : GhaSlot) : String :=
  String.ofList (s.toList.flatMap (escapeGhaChar slot))

section

variable (toStr : ρ → Option String) (formatFloat : Option ℕ → F64 → String) (cap : ℕ)

def splitText (v : Violation ρ) : String :=
  match v.nargsSplit with
  | some split => " (" ++ toString split.own ++ " own + " ++ toString split.lambda ++ " lambda)"
  | none => ""

def summaryTail (v : Violation ρ) : String :=
  v.function ++ ": " ++ v.metric ++ " = " ++ metricScalar formatFloat v.value ++ splitText v ++
    " (limit " ++ metricScalar formatFloat (.finite v.limit) ++ ")"

def errorLine (path : String) (v : Violation ρ) : String :=
  "::error file=" ++ escapeGha path .property ++ ",line=" ++ toString v.startLine ++ ",endLine=" ++
    toString v.endLine ++ ",title=" ++ escapeGha v.metric .property ++ "::" ++
    escapeGha (summaryTail formatFloat v) .message ++ "\n"

/-- The counters of the loop and what is written so far. -/
structure Annotated where
  out : String
  counts : SortedMap String ℕ
  overflow : SortedMap String ℕ

def annotate (s : Annotated) (v : Violation ρ) : Annotated :=
  match toStr v.path with
  | none => s
  | some path =>
    let n := (s.counts.get v.metric).getD 0 + 1
    let counts := s.counts.insert v.metric n
    if n ≤ cap then ⟨s.out ++ errorLine formatFloat path v, counts, s.overflow⟩
    else ⟨s.out, counts, s.overflow.insert v.metric ((s.overflow.get v.metric).getD 0 + 1)⟩

def overflowTotal (overflow : SortedMap String ℕ) : ℕ := (overflow.entries.map Prod.snd).sum

def overflowDetail (overflow : SortedMap String ℕ) : String :=
  ", ".intercalate (overflow.entries.map fun e => e.1 ++ ": " ++ toString e.2)

def noticeLine (overflow : SortedMap String ℕ) : String :=
  "::notice::" ++ toString (overflowTotal overflow) ++ " more violations not shown (" ++
    escapeGha (overflowDetail overflow) .message ++ ") — see full log\n"

def writeGithubAnnotations (violations : List (Violation ρ)) : String :=
  let s := violations.foldl (annotate toStr formatFloat cap) ⟨"", .empty, .empty⟩
  if s.overflow.entries = [] then s.out else s.out ++ noticeLine s.overflow

end

/-! ### Counting -/

section

variable (toStr : ρ → Option String) (formatFloat : Option ℕ → F64 → String) (cap : ℕ)

/-- The violations whose path a line can name, with the path. -/
def expressible (violations : List (Violation ρ)) : List (String × Violation ρ) :=
  violations.filterMap fun v => (toStr v.path).map fun path => (path, v)

def ofMetric (metric : String) (shown : List (String × Violation ρ)) :
    List (String × Violation ρ) :=
  shown.filter fun p => p.2.metric = metric

theorem ofMetric_append (metric : String) (xs ys : List (String × Violation ρ)) :
    ofMetric metric (xs ++ ys) = ofMetric metric xs ++ ofMetric metric ys :=
  List.filter_append xs ys

theorem sum_insertEntry (k : String) (v : ℕ) {m : List (String × ℕ)}
    (hsorted : m.Pairwise fun a b => a.1 < b.1) :
    ((SortedMap.insertEntry k v m).map Prod.snd).sum + ((m.find? fun e => e.1 = k).map Prod.snd).getD 0 =
      (m.map Prod.snd).sum + v := by
  induction m with
  | nil => simp [SortedMap.insertEntry]
  | cons e m ih =>
    obtain ⟨hlt, htail⟩ := List.pairwise_cons.mp hsorted
    rw [SortedMap.insertEntry]
    split_ifs with hbefore hsame
    · have hnone : (e :: m).find? (fun e => decide (e.1 = k)) = none := by
        refine List.find?_eq_none.mpr fun e' he' heq => ?_
        have hk : e'.1 = k := of_decide_eq_true heq
        rcases List.mem_cons.mp he' with rfl | hmem
        · exact absurd (hk ▸ hbefore) (lt_irrefl _)
        · exact absurd (hbefore.trans (hk ▸ hlt e' hmem)) (lt_irrefl _)
      rw [hnone]
      simp
      omega
    · subst hsame
      simp
      omega
    · have hne : ¬ e.1 = k := fun h => hsame h.symm
      rw [List.find?_cons_of_neg (by simpa using hne)]
      have hrest := ih htail
      simp only [List.map_cons, List.sum_cons] at hrest ⊢
      omega

theorem overflowTotal_insert (overflow : SortedMap String ℕ) (metric : String) :
    overflowTotal (overflow.insert metric ((overflow.get metric).getD 0 + 1)) =
      overflowTotal overflow + 1 := by
  have hsum := sum_insertEntry metric ((overflow.get metric).getD 0 + 1) overflow.sorted
  have hget : ((overflow.entries.find? fun e => e.1 = metric).map Prod.snd).getD 0 =
      (overflow.get metric).getD 0 := rfl
  rw [hget] at hsum
  show ((SortedMap.insertEntry metric _ overflow.entries).map Prod.snd).sum =
    (overflow.entries.map Prod.snd).sum + 1
  omega

/-- What the loop has counted and written of some violations. -/
structure Counted (violations : List (Violation ρ)) (shown : List (String × Violation ρ))
    (s : Annotated) : Prop where
  out_eq : s.out = String.join (shown.map fun p => errorLine formatFloat p.1 p.2)
  sublist : shown.Sublist (expressible toStr violations)
  shown_eq : ∀ metric, ofMetric metric shown = (ofMetric metric (expressible toStr violations)).take cap
  counts_eq : ∀ metric, (s.counts.get metric).getD 0 =
    (ofMetric metric (expressible toStr violations)).length
  overflow_eq : ∀ metric, s.overflow.get metric =
    if (ofMetric metric (expressible toStr violations)).length ≤ cap then none
    else some ((ofMetric metric (expressible toStr violations)).length - cap)
  total : shown.length + overflowTotal s.overflow = (expressible toStr violations).length

theorem counted_start : Counted toStr formatFloat cap [] [] ⟨"", .empty, .empty⟩ where
  out_eq := rfl
  sublist := List.Sublist.refl _
  shown_eq := fun _ => (List.take_nil).symm
  counts_eq := fun _ => rfl
  overflow_eq := fun _ => (if_pos (Nat.zero_le _)).symm
  total := rfl

theorem expressible_concat (violations : List (Violation ρ)) (v : Violation ρ) :
    expressible toStr (violations ++ [v]) = expressible toStr violations ++
      ((toStr v.path).map fun path => (path, v)).toList := by
  rw [expressible, List.filterMap_append]
  cases hpath : toStr v.path with
  | none => simp [expressible, hpath]
  | some path => simp [expressible, hpath]

theorem ofMetric_singleton (metric path : String) (v : Violation ρ) :
    ofMetric metric [(path, v)] = if v.metric = metric then [(path, v)] else [] := by
  rw [ofMetric, List.filter_singleton]
  by_cases h : v.metric = metric <;> simp [h]

theorem Counted.skip {violations : List (Violation ρ)} {shown : List (String × Violation ρ)}
    {s : Annotated} (h : Counted toStr formatFloat cap violations shown s) {v : Violation ρ}
    (hpath : toStr v.path = none) : Counted toStr formatFloat cap (violations ++ [v]) shown s := by
  have hsame : expressible toStr (violations ++ [v]) = expressible toStr violations := by
    rw [expressible_concat, hpath]
    exact List.append_nil _
  constructor
  · exact h.out_eq
  · rw [hsame]; exact h.sublist
  · rw [hsame]; exact h.shown_eq
  · rw [hsame]; exact h.counts_eq
  · rw [hsame]; exact h.overflow_eq
  · rw [hsame]; exact h.total

/-- The cap cuts off no earlier violation of a metric, and the next one only when it is full. -/
theorem Counted.annotate {violations : List (Violation ρ)} {shown : List (String × Violation ρ)}
    {s : Annotated} (h : Counted toStr formatFloat cap violations shown s) (v : Violation ρ) :
    ∃ shown', Counted toStr formatFloat cap (violations ++ [v]) shown'
      (annotate toStr formatFloat cap s v) := by
  cases hpath : toStr v.path with
  | none =>
    rw [Annotations.annotate, hpath]
    exact ⟨shown, h.skip toStr formatFloat cap hpath⟩
  | some path =>
    have hnext : expressible toStr (violations ++ [v]) =
        expressible toStr violations ++ [(path, v)] := by
      rw [expressible_concat, hpath]
      rfl
    have hof : ∀ metric, ofMetric metric (expressible toStr (violations ++ [v])) =
        ofMetric metric (expressible toStr violations) ++
          if v.metric = metric then [(path, v)] else [] := fun metric => by
      rw [hnext, ofMetric_append, ofMetric_singleton]
    have hcount := h.counts_eq v.metric
    have hlength := congrArg List.length (hof v.metric)
    rw [if_pos rfl, List.length_append, List.length_singleton] at hlength
    have hcounts : ∀ metric, ((s.counts.insert v.metric ((s.counts.get v.metric).getD 0 + 1)).get
        metric).getD 0 = (ofMetric metric (expressible toStr (violations ++ [v]))).length := by
      intro metric
      rw [SortedMap.get_insert, hof]
      by_cases hm : metric = v.metric
      · subst hm
        simp [hcount]
      · simp [hm, Ne.symm hm, h.counts_eq]
    have htotal := h.total
    rw [Annotations.annotate, hpath]
    simp only
    split_ifs with hcap
    · refine ⟨shown ++ [(path, v)], ?_, ?_, fun metric => ?_, hcounts, fun metric => ?_, ?_⟩
      · rw [h.out_eq]
        simp
      · rw [hnext]
        exact h.sublist.append (List.Sublist.refl _)
      · rw [ofMetric_append, h.shown_eq, hof, ofMetric_singleton]
        by_cases hm : v.metric = metric
        · subst hm
          rw [if_pos rfl, List.take_of_length_le (by omega), List.take_of_length_le]
          rw [List.length_append, List.length_singleton]
          omega
        · rw [if_neg hm, List.append_nil, List.append_nil]
      · rw [h.overflow_eq]
        by_cases hm : v.metric = metric
        · subst hm
          rw [if_pos (by omega), if_pos (by omega)]
        · rw [hof, if_neg hm, List.append_nil]
      · rw [hnext, List.length_append, List.length_append]
        simp only [List.length_singleton]
        omega
    · refine ⟨shown, h.out_eq, ?_, fun metric => ?_, hcounts, fun metric => ?_, ?_⟩
      · rw [hnext]
        exact h.sublist.trans (List.sublist_append_left _ _)
      · rw [h.shown_eq, hof]
        by_cases hm : v.metric = metric
        · subst hm
          rw [if_pos rfl, List.take_append_of_le_length (by omega)]
        · rw [if_neg hm, List.append_nil]
      · rw [SortedMap.get_insert]
        by_cases hm : metric = v.metric
        · subst hm
          rw [if_pos rfl, h.overflow_eq, hlength, if_neg (show ¬ _ + 1 ≤ cap by omega)]
          by_cases hfull : (ofMetric v.metric (expressible toStr violations)).length ≤ cap
          · rw [if_pos hfull, Option.getD_none]
            congr 1
            omega
          · rw [if_neg hfull, Option.getD_some]
            congr 1
            omega
        · rw [if_neg hm, h.overflow_eq, hof, if_neg (Ne.symm hm), List.append_nil]
      · rw [overflowTotal_insert, hnext, List.length_append, List.length_singleton]
        omega

theorem exists_counted (violations : List (Violation ρ)) :
    ∃ shown, Counted toStr formatFloat cap violations shown
      (violations.foldl (annotate toStr formatFloat cap) ⟨"", .empty, .empty⟩) := by
  induction violations using List.reverseRecOn with
  | nil => exact ⟨[], counted_start toStr formatFloat cap⟩
  | append_singleton violations v ih =>
    obtain ⟨shown, hshown⟩ := ih
    rw [List.foldl_append]
    exact hshown.annotate toStr formatFloat cap v

end

/-! ### The lines read back -/

theorem escapeGhaChar_property (ch : Char) :
    escapeGhaChar .property ch = encodeOne propertyCodes ch := by
  rw [escapeGhaChar]
  split_ifs with hsign hreturn hfeed hcolon hcomma
  · subst hsign; rfl
  · subst hreturn; rfl
  · subst hfeed; rfl
  · obtain rfl := hcolon.1; rfl
  · obtain rfl := hcomma.1; rfl
  · have hne : ch ≠ ':' ∧ ch ≠ ',' := ⟨fun h => hcolon ⟨h, rfl⟩, fun h => hcomma ⟨h, rfl⟩⟩
    simp [encodeOne, propertyCodes, dataCodes, Ne.symm hsign, Ne.symm hreturn, Ne.symm hfeed,
      Ne.symm hne.1, Ne.symm hne.2]

theorem escapeGhaChar_message (ch : Char) :
    escapeGhaChar .message ch = encodeOne dataCodes ch := by
  rw [escapeGhaChar]
  split_ifs with hsign hreturn hfeed hcolon hcomma
  · subst hsign; rfl
  · subst hreturn; rfl
  · subst hfeed; rfl
  · cases hcolon.2
  · cases hcomma.2
  · simp [encodeOne, dataCodes, Ne.symm hsign, Ne.symm hreturn, Ne.symm hfeed]

theorem toList_escapeGha_property (text : String) :
    (escapeGha text .property).toList = escape propertyCodes text.toList := by
  rw [escapeGha, String.toList_ofList, escape]
  exact List.flatMap_congr fun ch _ => escapeGhaChar_property ch

theorem toList_escapeGha_message (text : String) :
    (escapeGha text .message).toList = escape dataCodes text.toList := by
  rw [escapeGha, String.toList_ofList, escape]
  exact List.flatMap_congr fun ch _ => escapeGhaChar_message ch

/-- What an error line is meant to say. -/
def errorCommand (formatFloat : Option ℕ → F64 → String) (path : String) (v : Violation ρ) :
    Command where
  name := "error".toList
  properties := [("file".toList, path.toList), ("line".toList, (toString v.startLine).toList),
    ("endLine".toList, (toString v.endLine).toList), ("title".toList, v.metric.toList)].filter
      fun p => p.2 ≠ []
  data := (summaryTail formatFloat v).toList

def noticeCommand (overflow : SortedMap String ℕ) : Command where
  name := "notice".toList
  properties := []
  data := (toString (overflowTotal overflow) ++ " more violations not shown (" ++
    overflowDetail overflow ++ ") — see full log").toList

/-- A text without reserved characters is its own escape. -/
theorem escape_of_plain {codes : Codes} {text : List Char}
    (h : ∀ c ∈ text, codes.find? (fun code => code.1 = c) = none) : escape codes text = text := by
  induction text with
  | nil => rfl
  | cons c text ih =>
    rw [escape, List.flatMap_cons, encodeOne, h c List.mem_cons_self, ← escape,
      ih fun d hd => h d (List.mem_cons_of_mem _ hd)]
    rfl

theorem escape_toString (codes : Codes) (hcodes : ∀ code ∈ codes, code.1.isDigit = false) (n : ℕ) :
    escape codes (toString n).toList = (toString n).toList := by
  refine escape_of_plain fun c hc => List.find?_eq_none.mpr fun code hcode heq => ?_
  have hdigit := isDigit_toString n c hc
  rw [← of_decide_eq_true heq, hcodes code hcode] at hdigit
  cases hdigit

def rawProperties (path : String) (v : Violation ρ) : List (List Char × List Char) :=
  [("file".toList, path.toList), ("line".toList, (toString v.startLine).toList),
    ("endLine".toList, (toString v.endLine).toList), ("title".toList, v.metric.toList)]

/-- The ids of the catalog end in a character that is not blank, and reserve none. -/
theorem metric_spec (v : Violation ρ) :
    ∃ front d, v.metric.toList = front ++ [d] ∧ isBlank d = false ∧
      escape propertyCodes v.metric.toList = v.metric.toList := by
  have hall : ∀ info ∈ Catalog.metrics,
      (info.id.toList.getLast?.any fun d => !isBlank d) = true ∧
        escape propertyCodes info.id.toList = info.id.toList := by
    decide
  have hmetric : (v.metric.toList.getLast?.any fun d => !isBlank d) = true ∧
      escape propertyCodes v.metric.toList = v.metric.toList :=
    hall _ (List.mem_of_find?_eq_some v.threshold.known)
  obtain ⟨hlast, hescape⟩ := hmetric
  cases hd : v.metric.toList.getLast? with
  | none =>
    rw [hd] at hlast
    cases hlast
  | some d =>
    rw [hd, Option.any_some, Bool.not_eq_true'] at hlast
    obtain ⟨front, hfront⟩ := List.getLast?_eq_some_iff.mp hd
    exact ⟨front, d, hfront, hlast, hescape⟩

/-- The text between the first and the second pair of colons. -/
def errorInfo (path : String) (v : Violation ρ) : List Char :=
  "error".toList ++ ' ' :: writtenProperties (rawProperties path v)

theorem writtenProperties_raw (path : String) (v : Violation ρ) :
    writtenProperties (rawProperties path v) =
      "file=".toList ++ escape propertyCodes path.toList ++ ",line=".toList ++
        (toString v.startLine).toList ++ ",endLine=".toList ++ (toString v.endLine).toList ++
        ",title=".toList ++ v.metric.toList := by
  obtain ⟨-, -, -, -, hmetric⟩ := metric_spec v
  have hnumber := escape_toString propertyCodes (by decide)
  rw [writtenProperties, rawProperties]
  simp only [List.map_cons, List.map_nil, property, hnumber, hmetric, List.intercalate_cons_cons,
    List.intercalate_singleton, List.append_assoc, List.cons_append, List.nil_append]
  rfl

theorem readInfo_error (path : String) (v : Violation ρ) :
    readInfo (errorInfo path v) =
      ("error".toList, (rawProperties path v).filter fun p => p.2 ≠ []) := by
  have hwritten := writtenProperties_raw path v
  obtain ⟨front, d, hd, hblank, -⟩ := metric_spec v
  refine readInfo_written (by decide) (List.cons_ne_nil _ _) ?_ ?_
  · have hkeys : ∀ key ∈ ["file".toList, "line".toList, "endLine".toList, "title".toList],
        key ≠ [] ∧ '=' ∉ key ∧ ',' ∉ key := by
      decide
    intro p hp
    exact hkeys p.1 (List.mem_map_of_mem hp)
  · rw [hd, ← List.append_assoc] at hwritten
    exact trim_eq (c := 'f') hwritten hwritten (by decide) hblank

theorem error_shape (path line endLine title data : List Char) :
    "::error file=".toList ++ path ++ ",line=".toList ++ line ++ ",endLine=".toList ++ endLine ++
        ",title=".toList ++ title ++ "::".toList ++ data ++ "\n".toList =
      ':' :: ':' :: ("error".toList ++ ' ' :: ("file=".toList ++ path ++ ",line=".toList ++ line ++
        ",endLine=".toList ++ endLine ++ ",title=".toList ++ title) ++ ':' :: ':' :: data) ++
        ['\n'] := by
  simp only [List.append_assoc, List.cons_append]
  rfl

theorem toList_errorLine (formatFloat : Option ℕ → F64 → String) (path : String)
    (v : Violation ρ) :
    (errorLine formatFloat path v).toList = ':' :: ':' :: (errorInfo path v ++
      ':' :: ':' :: escape dataCodes (summaryTail formatFloat v).toList) ++ ['\n'] := by
  obtain ⟨-, -, -, -, hmetric⟩ := metric_spec v
  rw [errorInfo, writtenProperties_raw, ← error_shape, ← toList_escapeGha_property,
    ← toList_escapeGha_message]
  have htitle : v.metric.toList = (escapeGha v.metric .property).toList := by
    rw [toList_escapeGha_property, hmetric]
  rw [htitle]
  delta errorLine
  simp only [String.toList_append]

theorem notMem_toString {c : Char} (hc : c.isDigit = false) (n : ℕ) : c ∉ (toString n).toList := by
  intro h
  rw [isDigit_toString n c h] at hc
  cases hc

/-- What the grammar reserves is not in the properties of a line. -/
theorem notMem_errorInfo {c : Char} (hcode : (propertyCodes.find? fun code => code.1 = c).isSome)
    (hdigits : ∀ code ∈ propertyCodes, c ∉ '%' :: code.2) (hdigit : c.isDigit = false)
    (hfixed : c ∉ "error file=,line=,endLine=,title=".toList) (path : String) (v : Violation ρ) :
    c ∉ errorInfo path v := by
  obtain ⟨-, -, -, -, hmetric⟩ := metric_spec v
  have hpath := notMem_escape hcode hdigits path.toList
  have htitle := notMem_escape hcode hdigits v.metric.toList
  have hline := notMem_toString hdigit v.startLine
  have hend := notMem_toString hdigit v.endLine
  have hsplit : "error file=,line=,endLine=,title=".toList = "error".toList ++ ' ' ::
      ("file=".toList ++ ",line=".toList ++ ",endLine=".toList ++ ",title=".toList) := rfl
  rw [hmetric] at htitle
  rw [hsplit] at hfixed
  rw [errorInfo, writtenProperties_raw]
  simp only [List.mem_append, List.mem_cons, not_or] at hfixed ⊢
  exact ⟨hfixed.1, hfixed.2.1, ⟨⟨⟨⟨⟨⟨hfixed.2.2.1.1.1, hpath⟩, hfixed.2.2.1.1.2⟩, hline⟩,
    hfixed.2.2.1.2⟩, hend⟩, hfixed.2.2.2⟩, htitle⟩

def errorText (formatFloat : Option ℕ → F64 → String) (path : String) (v : Violation ρ) :
    List Char :=
  ':' :: ':' :: (errorInfo path v ++ ':' :: ':' :: escape dataCodes (summaryTail formatFloat v).toList)

theorem readCommand_errorText (formatFloat : Option ℕ → F64 → String) (path : String)
    (v : Violation ρ) :
    readCommand (errorText formatFloat path v) = some (errorCommand formatFloat path v) := by
  have hcolon := notMem_errorInfo (c := ':') (by decide) (by decide) (by decide) (by decide) path v
  rw [errorText, readCommand_append hcolon, readInfo_error, unescape_escape faithful_dataCodes]
  rfl

theorem notMem_of_breaksLine {text : List Char} (hfeed : '\n' ∉ text) (hreturn : '\r' ∉ text) :
    ∀ c ∈ text, breaksLine c = false := by
  intro c hc
  rw [breaksLine, Bool.or_eq_false_iff, decide_eq_false_iff_not, decide_eq_false_iff_not]
  exact ⟨fun h => hfeed (h ▸ hc), fun h => hreturn (h ▸ hc)⟩

theorem errorText_one_line (formatFloat : Option ℕ → F64 → String) (path : String)
    (v : Violation ρ) : ∀ c ∈ errorText formatFloat path v, breaksLine c = false := by
  have hline : ∀ c : Char, (propertyCodes.find? fun code => code.1 = c).isSome →
      (∀ code ∈ propertyCodes, c ∉ '%' :: code.2) → c.isDigit = false →
      c ∉ "error file=,line=,endLine=,title=".toList → c ≠ ':' →
      (dataCodes.find? fun code => code.1 = c).isSome →
      (∀ code ∈ dataCodes, c ∉ '%' :: code.2) → c ∉ errorText formatFloat path v := by
    intro c hcode hdigits hdigit hfixed hcolon hdata hdataDigits
    simp only [errorText, List.mem_cons, List.mem_append, not_or]
    exact ⟨hcolon, hcolon, notMem_errorInfo hcode hdigits hdigit hfixed path v, hcolon, hcolon,
      notMem_escape hdata hdataDigits _⟩
  exact notMem_of_breaksLine
    (hline '\n' (by decide) (by decide) (by decide) (by decide) (by decide) (by decide) (by decide))
    (hline '\r' (by decide) (by decide) (by decide) (by decide) (by decide) (by decide) (by decide))

/-! ### The notice -/

def noticeData (overflow : SortedMap String ℕ) : List Char :=
  (toString (overflowTotal overflow)).toList ++ " more violations not shown (".toList ++
    escape dataCodes (overflowDetail overflow).toList ++ ") — see full log".toList

theorem escape_append (codes : Codes) (xs ys : List Char) :
    escape codes (xs ++ ys) = escape codes xs ++ escape codes ys :=
  List.flatMap_append

theorem noticeData_eq (overflow : SortedMap String ℕ) :
    noticeData overflow = escape dataCodes (noticeCommand overflow).data := by
  have hmore : escape dataCodes " more violations not shown (".toList =
      " more violations not shown (".toList := by decide
  have hlog : escape dataCodes ") — see full log".toList = ") — see full log".toList := by decide
  rw [noticeCommand, String.toList_append, String.toList_append, String.toList_append,
    escape_append, escape_append, escape_append, escape_toString dataCodes (by decide), hmore, hlog]
  rfl

def noticeText (overflow : SortedMap String ℕ) : List Char :=
  ':' :: ':' :: ("notice".toList ++ ':' :: ':' :: noticeData overflow)

theorem toList_noticeLine (overflow : SortedMap String ℕ) :
    (noticeLine overflow).toList = noticeText overflow ++ ['\n'] := by
  have hopen : "::notice::".toList = ':' :: ':' :: ("notice".toList ++ [':', ':']) := rfl
  have hclose : ") — see full log\n".toList = ") — see full log".toList ++ ['\n'] := rfl
  delta noticeLine
  rw [noticeText, noticeData, String.toList_append, String.toList_append, String.toList_append,
    String.toList_append, toList_escapeGha_message, hopen, hclose]
  simp only [List.append_assoc, List.cons_append, List.nil_append]

theorem readCommand_noticeText (overflow : SortedMap String ℕ) :
    readCommand (noticeText overflow) = some (noticeCommand overflow) := by
  have hinfo : readInfo "notice".toList = ("notice".toList, []) := by decide
  rw [noticeText, readCommand_append (by decide), hinfo, noticeData_eq,
    unescape_escape faithful_dataCodes]
  rfl

theorem noticeText_one_line (overflow : SortedMap String ℕ) :
    ∀ c ∈ noticeText overflow, breaksLine c = false := by
  have hdata : ∀ c : Char, c ≠ ':' → c ∉ "notice".toList →
      (dataCodes.find? fun code => code.1 = c).isSome →
      (∀ code ∈ dataCodes, c ∉ '%' :: code.2) → c ∉ noticeText overflow := by
    intro c hcolon hname hcode hdigits
    simp only [noticeText, noticeData_eq, List.mem_cons, List.mem_append, not_or]
    exact ⟨hcolon, hcolon, hname, hcolon, hcolon, notMem_escape hcode hdigits _⟩
  exact notMem_of_breaksLine (hdata '\n' (by decide) (by decide) (by decide) (by decide))
    (hdata '\r' (by decide) (by decide) (by decide) (by decide))

/-- For every list of violations and every cap, each line the runner sees is a command with the
file, the lines, the title and the message it is meant to have. Of each metric the first ones up to
the cap are shown, in the order they came; one notice stands for the rest, exactly when there is a
rest, and together they are the violations whose path can be named. -/
theorem readCommands_annotations (toStr : ρ → Option String)
    (formatFloat : Option ℕ → F64 → String) (cap : ℕ) (violations : List (Violation ρ)) :
    ∃ (shown : List (String × Violation ρ)) (overflow : SortedMap String ℕ),
      (lines (writeGithubAnnotations toStr formatFloat cap violations).toList).map readCommand =
        (shown.map fun p => some (errorCommand formatFloat p.1 p.2)) ++
          (if overflow.entries = [] then [] else [some (noticeCommand overflow)]) ∧
      shown.Sublist (expressible toStr violations) ∧
      (∀ metric, ofMetric metric shown =
        (ofMetric metric (expressible toStr violations)).take cap) ∧
      (∀ metric, overflow.get metric =
        if (ofMetric metric (expressible toStr violations)).length ≤ cap then none
        else some ((ofMetric metric (expressible toStr violations)).length - cap)) ∧
      shown.length + overflowTotal overflow = (expressible toStr violations).length := by
  obtain ⟨shown, h⟩ := exists_counted toStr formatFloat cap violations
  refine ⟨shown, _, ?_, h.sublist, h.shown_eq, h.overflow_eq, h.total⟩
  rw [writeGithubAnnotations]
  generalize violations.foldl (annotate toStr formatFloat cap) ⟨"", .empty, .empty⟩ = s at h ⊢
  have hout : s.out.toList =
      (shown.map fun p => errorText formatFloat p.1 p.2).flatMap fun text => text ++ ['\n'] := by
    rw [h.out_eq, toList_join, List.flatMap_map, List.flatMap_map]
    exact List.flatMap_congr fun p _ => toList_errorLine formatFloat p.1 p.2
  have herrors : ∀ text ∈ shown.map fun p => errorText formatFloat p.1 p.2,
      ∀ c ∈ text, breaksLine c = false := by
    intro text htext
    obtain ⟨p, -, rfl⟩ := List.mem_map.mp htext
    exact errorText_one_line formatFloat p.1 p.2
  have hread : (shown.map fun p => errorText formatFloat p.1 p.2).map readCommand =
      shown.map fun p => some (errorCommand formatFloat p.1 p.2) := by
    rw [List.map_map]
    exact List.map_congr_left fun p _ => readCommand_errorText formatFloat p.1 p.2
  split_ifs with hempty
  · rw [hout, lines_flatMap herrors, hread, List.append_nil]
  · have htext : (s.out ++ noticeLine s.overflow).toList =
        ((shown.map fun p => errorText formatFloat p.1 p.2) ++ [noticeText s.overflow]).flatMap
          fun text => text ++ ['\n'] := by
      rw [String.toList_append, hout, toList_noticeLine, List.flatMap_append,
        List.flatMap_singleton]
    have hall := List.forall_mem_append.mpr
      ⟨herrors, List.forall_mem_singleton.mpr (noticeText_one_line s.overflow)⟩
    rw [htext, lines_flatMap hall, List.map_append, hread, List.map_singleton,
      readCommand_noticeText]

end BigCodeAnalysis.Output.Annotations
