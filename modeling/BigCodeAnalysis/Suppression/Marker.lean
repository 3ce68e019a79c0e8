import BigCodeAnalysis.Sequences.Search
import BigCodeAnalysis.Sequences.Slice
import BigCodeAnalysis.Sequences.Strip
import BigCodeAnalysis.Spaces.FuncSpace
import Mathlib.Data.Finset.Dedup

/-! Suppression markers in comments. The delimiters of the comment are cut off, and what is left is
read as a directive of one of two dialects. A directive of the native dialect may be usable in
part: it then comes with a diagnostic for each name that could not be used. The loop over a
metric list is proved to keep the set of the names that can be used, and the distinct ones that
cannot in the order they come. -/

namespace BigCodeAnalysis.Suppression

open Sequences Spaces

inductive SuppressionError where
  | unknownVerb (verb : List Char)
  | unknownMetric (name : List Char)
  | nonSuppressibleMetric (name : List Char)
  | malformedBody (body : List Char)
  /-- The number of further names that were not reported. -/
  | elidedDiagnostics (count : ℕ)
  deriving DecidableEq, Repr

structure MarkerScan where
  suppression : Option Spaces.Suppression
  diagnostics : List SuppressionError
  deriving DecidableEq

namespace MarkerScan

def notAMarker : MarkerScan := ⟨none, []⟩

def rejected (error : SuppressionError) : MarkerScan := ⟨none, [error]⟩

def directive (suppression : Spaces.Suppression) : MarkerScan := ⟨some suppression, []⟩

def partly (suppression : Spaces.Suppression) (diagnostics : List SuppressionError) :
    MarkerScan := ⟨some suppression, diagnostics⟩

end MarkerScan

def maxMarkerDiagnostics : ℕ := 8

/-- `str::trim`. -/
def trim : List Char → List Char := strip isWhitespace isWhitespace

/-! ### Metric lists -/

/-- `Metric::from_str`. -/
def metricFromStr (name : List Char) : Option Metric :=
  match String.ofList name with
  | "cognitive" => some .cognitive
  | "cyclomatic" => some .cyclomatic
  | "halstead" => some .halstead
  | "loc" => some .loc
  | "nom" => some .nom
  | "tokens" => some .tokens
  | "nargs" => some .nargs
  | "nexits" => some .nexits
  | "abc" => some .abc
  | "npm" => some .npm
  | "npa" => some .npa
  | "mi" => some .mi
  | "wmc" => some .wmc
  | _ => none

/-- The loop over a list. `reported` has the names that were found unusable. -/
structure ListScan where
  set : Finset Metric
  diagnostics : List SuppressionError
  reported : List (List Char)
  unusable : ℕ

namespace ListScan

def initial : ListScan := ⟨∅, [], [], 0⟩

/-- A name that cannot be used is counted once, and reported below the cap. -/
def report (self : ListScan) (name : List Char) (error : SuppressionError) : ListScan :=
  if self.reported.contains name then self
  else
    { self with
      reported := name :: self.reported
      unusable := self.unusable + 1
      diagnostics :=
        if self.diagnostics.length < maxMarkerDiagnostics then self.diagnostics ++ [error]
        else self.diagnostics }

def token (self : ListScan) (token : List Char) : ListScan :=
  let name := trim token
  if name = [] then self
  else
    match metricFromStr name with
    | some .tokens => self.report name (.nonSuppressibleMetric name)
    | some metric => { self with set := insert metric self.set }
    | none => self.report name (.unknownMetric name)

end ListScan

def parseMetricList (inside : List Char) : Finset Metric × List SuppressionError :=
  let scan := (inside.splitOn ',').foldl ListScan.token .initial
  let elided := scan.unusable - maxMarkerDiagnostics
  (scan.set,
    if 0 < elided then scan.diagnostics ++ [.elidedDiagnostics elided] else scan.diagnostics)

/-! ### Dialects -/

def parseLizard (trimmed : List Char) : Option Spaces.Suppression :=
  ((stripStart ['#'] trimmed).bind fun rest =>
    stripStart "lizard".toList (rest.dropWhile isWhitespace)).bind fun rest =>
      let rest := trim rest
      if rest = "forgives".toList then some ⟨.function, .all, .lizard⟩
      else if rest = "forgive global".toList then some ⟨.file, .all, .lizard⟩
      else none

def isVerbChar (c : Char) : Bool := c.isAlpha || c = '-'

/-- What follows the verb: nothing, or a metric list with anything behind it. -/
def parseScope (body : List Char) (kind : SuppressionKind) (afterVerb : List Char) :
    MarkerScan :=
  match afterVerb.dropWhile isWhitespace with
  | [] => .partly ⟨kind, .all, .native⟩ []
  | '(' :: list =>
    if list.contains ')' then
      let (metrics, diagnostics) := parseMetricList (list.takeWhile fun c => c ≠ ')')
      .partly ⟨kind, .some metrics, .native⟩ diagnostics
    else .rejected (.malformedBody body)
  | _ => .rejected (.malformedBody body)

def parseNative (body : List Char) : MarkerScan :=
  match stripStart "bca:".toList body with
  | none => .notAMarker
  | some rest =>
    let rest := rest.dropWhile isWhitespace
    if rest = [] then .notAMarker
    else
      let verb := rest.takeWhile isVerbChar
      let afterVerb := rest.dropWhile isVerbChar
      if verb = "suppress".toList then parseScope body .function afterVerb
      else if verb = "suppress-file".toList then parseScope body .file afterVerb
      else if verb = [] then .rejected (.malformedBody body)
      else .rejected (.unknownVerb verb)

/-! ### Comments -/

def isOpener (c : Char) : Bool :=
  c = '/' || c = '*' || c = '!' || c = ';' || c = '-' || isWhitespace c

def isCloser (c : Char) : Bool := c = '*' || c = '/' || isWhitespace c

def isHash (c : Char) : Bool := c = '#' || isWhitespace c

def stripBlockDelims (s : List Char) : List Char :=
  let s := (stripStart "/*".toList s).getD s
  (stripEnd "*/".toList s).getD s

/-- The comment without its delimiters, a leading `#` apart. -/
def noOpener (commentText : List Char) : List Char :=
  trim (strip isOpener isCloser (trim (stripBlockDelims (trim commentText))))

/-- A `#` is the comment's own unless `l` follows it at once. -/
def lizardCandidate (text : List Char) : List Char :=
  if "#l".toList <+: text then text
  else ((stripStart ['#'] text).map fun rest => rest.dropWhile isWhitespace).getD text

def parseMarker (commentText : List Char) : MarkerScan :=
  if (findSub "bca:".toList commentText).isNone ∧ (findSub "lizard".toList commentText).isNone then
    .notAMarker
  else
    match parseLizard (lizardCandidate (noOpener commentText)) with
    | some suppression => .directive suppression
    | none => parseNative (trim ((noOpener commentText).dropWhile isHash))

/-! ### What a list silences and reports -/

/-- The names a list has between its commas. -/
def names (tokens : List (List Char)) : List (List Char) := (tokens.map trim).filter (· ≠ [])

/-- The metric a name can silence. -/
def usable (name : List Char) : Option Metric := (metricFromStr name).filter (· ≠ .tokens)

/-- The distinct names that silence nothing, in the order they come first. -/
def unusableNames (names : List (List Char)) : List (List Char) :=
  (names.filter fun name => (usable name).isNone).reverse.dedup.reverse

def errorOf (name : List Char) : SuppressionError :=
  if metricFromStr name = some .tokens then .nonSuppressibleMetric name else .unknownMetric name

/-- One diagnostic for each name up to the cap, and the number of those above it. -/
def diagnosticsOf (unusable : List (List Char)) : List SuppressionError :=
  (unusable.take maxMarkerDiagnostics).map errorOf ++
    if maxMarkerDiagnostics < unusable.length then
      [.elidedDiagnostics (unusable.length - maxMarkerDiagnostics)]
    else []

/-- What the loop knows after some names. -/
structure ListScan.After (scan : ListScan) (names : List (List Char)) : Prop where
  set : scan.set = (names.filterMap usable).toFinset
  diagnostics : scan.diagnostics = ((unusableNames names).take maxMarkerDiagnostics).map errorOf
  reported : ∀ name, name ∈ scan.reported ↔ name ∈ unusableNames names
  unusable : scan.unusable = (unusableNames names).length

theorem unusableNames_concat_usable {ns : List (List Char)} {name : List Char}
    (h : (usable name).isNone = false) : unusableNames (ns ++ [name]) = unusableNames ns := by
  unfold unusableNames
  rw [List.filter_append, List.filter_cons_of_neg (by simp [h]), List.filter_nil,
    List.append_nil]

theorem unusableNames_concat {ns : List (List Char)} {name : List Char}
    (h : (usable name).isNone = true) : unusableNames (ns ++ [name]) =
      if name ∈ unusableNames ns then unusableNames ns else unusableNames ns ++ [name] := by
  unfold unusableNames
  have hkept : ([name].filter fun name => (usable name).isNone) = [name] :=
    List.filter_cons_of_pos h
  rw [List.filter_append, hkept, List.reverse_append, List.reverse_singleton,
    List.singleton_append]
  by_cases hmem : name ∈ (ns.filter fun name => (usable name).isNone).reverse
  · rw [List.dedup_cons_of_mem hmem, if_pos (List.mem_reverse.mpr (List.mem_dedup.mpr hmem))]
  · rw [List.dedup_cons_of_notMem hmem, List.reverse_cons,
      if_neg fun hin => hmem (List.mem_dedup.mp (List.mem_reverse.mp hin))]

theorem ListScan.After.report {scan : ListScan} {ns : List (List Char)} (h : scan.After ns)
    {name : List Char} (hname : (usable name).isNone = true) :
    (scan.report name (errorOf name)).After (ns ++ [name]) := by
  have hset : scan.set = ((ns ++ [name]).filterMap usable).toFinset := by
    rw [List.filterMap_append, List.filterMap_cons_none (Option.isNone_iff_eq_none.mp hname),
      List.filterMap_nil, List.append_nil]
    exact h.set
  have hconcat : unusableNames (ns ++ [name]) =
      if name ∈ unusableNames ns then unusableNames ns else unusableNames ns ++ [name] :=
    unusableNames_concat hname
  unfold ListScan.report
  by_cases hmem : name ∈ unusableNames ns
  · rw [if_pos hmem] at hconcat
    rw [if_pos (List.contains_iff_mem.mpr ((h.reported name).mpr hmem))]
    exact ⟨hset, hconcat ▸ h.diagnostics, hconcat ▸ h.reported, hconcat ▸ h.unusable⟩
  · rw [if_neg hmem] at hconcat
    rw [if_neg fun hin => hmem ((h.reported name).mp (List.contains_iff_mem.mp hin))]
    have hlength : scan.diagnostics.length =
        min maxMarkerDiagnostics (unusableNames ns).length := by
      rw [h.diagnostics, List.length_map, List.length_take]
    refine ⟨hset, ?_, fun other => ?_, ?_⟩
    · rw [hconcat]
      dsimp only
      split_ifs with hcap
      · rw [List.take_of_length_le (by rw [List.length_append, List.length_singleton]; omega),
          List.map_append, h.diagnostics, List.take_of_length_le (by omega)]
        rfl
      · rw [h.diagnostics, List.take_append_of_le_length (by omega)]
    · rw [hconcat, List.mem_append, List.mem_singleton, List.mem_cons, h.reported, or_comm]
    · rw [hconcat, List.length_append, List.length_singleton, h.unusable]

theorem ListScan.After.token {scan : ListScan} {tokens : List (List Char)}
    (h : scan.After (names tokens)) (token : List Char) :
    (scan.token token).After (names (tokens ++ [token])) := by
  have hnames : names (tokens ++ [token]) =
      names tokens ++ if trim token = [] then [] else [trim token] := by
    unfold names
    rw [List.map_append, List.map_singleton, List.filter_append, List.filter_cons]
    simp only [ne_eq, decide_not, Bool.not_eq_true', decide_eq_false_iff_not, ite_not,
      List.filter_nil]
  rw [hnames]
  unfold ListScan.token
  dsimp only
  split_ifs with hempty
  · rwa [List.append_nil]
  · have herror : usable (trim token) = (metricFromStr (trim token)).filter (· ≠ .tokens) := rfl
    cases hmetric : metricFromStr (trim token) with
    | none =>
      have hnone : (usable (trim token)).isNone = true := by
        rw [herror, hmetric]
        rfl
      have hreport := h.report hnone
      rw [errorOf, hmetric, if_neg nofun] at hreport
      exact hreport
    | some metric =>
      by_cases htokens : metric = .tokens
      · subst htokens
        have hnone : (usable (trim token)).isNone = true := by
          rw [herror, hmetric]
          rfl
        have hreport := h.report hnone
        rw [errorOf, hmetric, if_pos rfl] at hreport
        exact hreport
      · have hsome : usable (trim token) = some metric := by
          rw [herror, hmetric, Option.filter_some, if_pos (by simpa using htokens)]
        have hconcat : unusableNames (names tokens ++ [trim token]) =
            unusableNames (names tokens) :=
          unusableNames_concat_usable (by rw [hsome]; rfl)
        have hset : insert metric scan.set =
            ((names tokens ++ [trim token]).filterMap usable).toFinset := by
          rw [List.filterMap_append, List.filterMap_cons_some hsome, List.filterMap_nil,
            h.set]
          ext other
          rw [Finset.mem_insert, List.mem_toFinset, List.mem_toFinset, List.mem_append,
            List.mem_singleton, or_comm]
        have hafter : ListScan.After { scan with set := insert metric scan.set }
            (names tokens ++ [trim token]) :=
          ⟨hset, hconcat ▸ h.diagnostics, hconcat ▸ h.reported, hconcat ▸ h.unusable⟩
        cases metric <;> first | exact absurd rfl htokens | exact hafter

theorem after_foldl (tokens : List (List Char)) :
    (tokens.foldl ListScan.token .initial).After (names tokens) := by
  induction tokens using List.reverseRecOn with
  | nil => exact ⟨rfl, rfl, fun _ => Iff.rfl, rfl⟩
  | append_singleton tokens token ih =>
    rw [List.foldl_append]
    exact ih.token token

/-- A list silences its usable names and reports the distinct others. -/
theorem parseMetricList_eq (inside : List Char) :
    parseMetricList inside = (((names (inside.splitOn ',')).filterMap usable).toFinset,
      diagnosticsOf (unusableNames (names (inside.splitOn ',')))) := by
  obtain ⟨hset, hdiagnostics, -, hunusable⟩ := after_foldl (inside.splitOn ',')
  unfold parseMetricList diagnosticsOf
  dsimp only
  rw [hset, hdiagnostics, hunusable]
  congr 1
  split_ifs with hover hcap hcap
  · rfl
  · omega
  · omega
  · rw [List.append_nil]

end BigCodeAnalysis.Suppression
