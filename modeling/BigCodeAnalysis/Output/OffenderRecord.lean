import BigCodeAnalysis.Baseline.Encoders
import BigCodeAnalysis.Catalog.Threshold

/-! The record every report is written from, and the sentences about it. How a number is
written is left open. -/

namespace BigCodeAnalysis.Output

open Baseline (PathBytes)
open Catalog (F64 Direction)

inductive Severity where
  | warning
  | error
  deriving DecidableEq, Repr

/-- The place of a severity on its scale. -/
def Severity.level : Severity → ℕ
  | warning => 0
  | error => 1

structure OffenderRecord where
  path : PathBytes
  function : Option String
  startLine : UInt32
  endLine : UInt32
  startCol : Option UInt32
  metric : String
  value : F64
  limit : F64
  severity : Severity

def toolId : String := "big-code-analysis"

/-- `Path::to_str`. -/
def pathToStr (path : PathBytes) : Option String := String.fromUTF8? ⟨path.toArray⟩

/-- The bytes of a text. -/
def utf8 (text : String) : List UInt8 := text.toList.flatMap String.utf8EncodeChar

theorem utf8_injective : Function.Injective utf8 := by
  intro a b h
  have hchars := Sequences.prefixCode_utf8.flatMap_injective
    (fun _ _ => Set.mem_univ _) (fun _ _ => Set.mem_univ _) h
  exact String.toList_inj.mp hchars

/-- An ASCII character is in a text iff its byte is in the bytes. -/
theorem mem_of_mem_utf8 {text : String} {c : Char} (hc : c.toNat < 128)
    (h : UInt8.ofNat c.toNat ∈ utf8 text) : c ∈ text.toList := by
  obtain ⟨d, hd, hbyte⟩ := List.mem_flatMap.mp h
  have hnat : (UInt8.ofNat c.toNat).toNat = c.toNat := by
    rw [UInt8.toNat_ofNat', Nat.mod_eq_of_lt (by omega)]
  have heq := Sequences.toNat_eq_of_mem (by omega) hbyte
  rw [hnat] at heq
  rwa [← Char.toNat_inj.mp heq]

theorem toList_join (texts : List String) :
    (String.join texts).toList = texts.flatMap String.toList := by
  induction texts with
  | nil => rfl
  | cons text texts ih => rw [String.join_cons, String.toList_append, ih, List.flatMap_cons]

theorem isDigit_toString (n : ℕ) : ∀ c ∈ (toString n).toList, c.isDigit = true := by
  intro c hc
  rw [Nat.toString_eq_ofList_toDigits, String.toList_ofList] at hc
  exact Nat.isDigit_of_mem_toDigits (by decide) (by decide) hc

/-! ### The sentences -/

/-- The sentence of the catalog about a breach of a metric. -/
def longDescription : String → String
  | "cognitive" => "Cognitive Complexity exceeds the configured threshold."
  | "cyclomatic" => "Cyclomatic Complexity exceeds the configured threshold."
  | "cyclomatic.modified" => "Modified Cyclomatic Complexity exceeds the configured threshold."
  | "halstead.volume" => "Halstead volume exceeds the configured threshold."
  | "halstead.difficulty" => "Halstead difficulty exceeds the configured threshold."
  | "halstead.effort" => "Halstead effort exceeds the configured threshold."
  | "halstead.time" => "Halstead time-to-program exceeds the configured threshold."
  | "halstead.bugs" => "Estimated Halstead bugs exceed the configured threshold."
  | "loc.sloc" => "Source lines of code exceed the configured threshold."
  | "loc.ploc" => "Physical lines of code exceed the configured threshold."
  | "loc.lloc" => "Logical lines of code exceed the configured threshold."
  | "loc.cloc" => "Comment lines of code exceed the configured threshold."
  | "loc.blank" => "Blank lines of code exceed the configured threshold."
  | "loc.dloc" => "Documentation lines of code exceed the configured threshold."
  | "nom" => "Number of methods/functions exceeds the configured threshold."
  | "tokens" => "Number of tokens exceeds the configured threshold."
  | "nexits" => "Number of exit points exceeds the configured threshold."
  | "nargs" => "Number of function arguments exceeds the configured threshold."
  | "mi.original" => "Maintainability Index falls below the configured threshold."
  | "mi.sei" => "Maintainability Index (SEI) falls below the configured threshold."
  | "mi.visual_studio" =>
    "Maintainability Index (Visual Studio) falls below the configured threshold."
  | "abc" => "ABC magnitude exceeds the configured threshold."
  | "wmc" => "Weighted Methods per Class exceeds the configured threshold."
  | "npm" => "Number of public methods exceeds the configured threshold."
  | "npa" => "Number of public attributes exceeds the configured threshold."
  | _ => ""

variable (messageMetric : F64 → String)

namespace OffenderRecord

def breachPhrase (record : OffenderRecord) : String :=
  match (Catalog.lookup record.metric).map Catalog.MetricInfo.direction with
  | some Direction.lowerIsWorse => "falls below limit"
  | _ => "exceeds limit"

def defaultMessage (record : OffenderRecord) : String :=
  s!"{record.metric} {messageMetric record.value} {breachPhrase record} {messageMetric record.limit}"

end OffenderRecord

end BigCodeAnalysis.Output
