import BigCodeAnalysis.Output.OffenderRecord
import BigCodeAnalysis.Sequences.SortedMap
import BigCodeAnalysis.Xml.Reads
import Mathlib.Data.String.Basic

/-! The Checkstyle report: one XML document with an element for each file, in the order of
the paths, and in it one for each record about the file. A reader gets the records back. -/

namespace BigCodeAnalysis.Output

open Catalog (F64)
open Sequences (SortedMap)

def Severity.asStr : Severity → String
  | warning => "warning"
  | error => "error"

namespace Checkstyle

/-- The escape of a character in an attribute value. -/
def escapeChar (ch : Char) : List Char :=
  if ch = '&' then "&amp;".toList
  else if ch = '<' then "&lt;".toList
  else if ch = '>' then "&gt;".toList
  else if ch = '"' then "&quot;".toList
  else if ch.toNat = 39 then "&apos;".toList
  else if ch = '\t' then "&#x9;".toList
  else if ch = '\n' then "&#xA;".toList
  else if ch = '\r' then "&#xD;".toList
  else if ch.toNat < 0x20 ∨ 0xFFFE ≤ ch.toNat &&& 0xFFFF then "?".toList
  else [ch]

def xmlAttr (text : String) : String := String.ofList (text.toList.flatMap escapeChar)

/-- The records of each UTF-8 path, in their order. -/
def byFile (offenders : List OffenderRecord) : SortedMap String (List OffenderRecord) :=
  offenders.foldl (fun files record =>
    match pathToStr record.path with
    | some path => files.insert path ((files.get path).getD [] ++ [record])
    | none => files) .empty

variable (messageMetric : F64 → String)

def writeError (record : OffenderRecord) : String :=
  "    <error line=\"" ++ toString (max record.startLine.toNat 1) ++ "\"" ++
    (match record.startCol with
      | some col => " column=\"" ++ toString (max col.toNat 1) ++ "\""
      | none => "") ++
    " severity=\"" ++ record.severity.asStr ++ "\" message=\"" ++
    xmlAttr (record.defaultMessage messageMetric) ++ "\" source=\"" ++ toolId ++ "." ++
    xmlAttr record.metric ++ "\"/>\n"

def writeFile (file : String × List OffenderRecord) : String :=
  "  <file name=\"" ++ xmlAttr file.1 ++ "\">\n" ++
    String.join (file.2.map (writeError messageMetric)) ++ "  </file>\n"

def xmlHeader : String := "<?xml version=\"1.0\" encoding=\"UTF-8\"?>\n"

def writeCheckstyle (offenders : List OffenderRecord) : String :=
  let files := (byFile offenders).entries
  xmlHeader ++
    if files.isEmpty then "<checkstyle version=\"4.3\"/>\n"
    else "<checkstyle version=\"4.3\">\n" ++ String.join (files.map (writeFile messageMetric)) ++
      "</checkstyle>\n"

open Xml

/-! ### Attribute values -/

/-- The characters that no strict reader takes. -/
def isForbidden (ch : Char) : Bool :=
  (ch.toNat < 0x20 && ch ≠ '\t' && ch ≠ '\n' && ch ≠ '\r') || 0xFFFE ≤ ch.toNat &&& 0xFFFF

def shownChar (ch : Char) : Char := if isForbidden ch then '?' else ch

def shown (text : String) : String := String.ofList (text.toList.map shownChar)

theorem decode_singleton {c : Char} (hlt : c ≠ '<') (hamp : c ≠ '&') :
    decode normalizeSpace [c] = some [normalizeSpace c] :=
  decode_plain _ (by simpa using Ne.symm hlt) (by simpa using Ne.symm hamp)

theorem decode_escapeChar (ch : Char) :
    decode normalizeSpace (escapeChar ch) = some [shownChar ch] := by
  rw [escapeChar]
  split_ifs with hamp hlt hgt hquot hapos htab hlf hcr hforbidden
  · subst hamp; decide
  · subst hlt; decide
  · subst hgt; decide
  · subst hquot; decide
  · obtain rfl : ch = Char.ofNat 39 := by rw [← Char.toNat_inj, hapos]; rfl
    decide
  · subst htab; decide
  · subst hlf; decide
  · subst hcr; decide
  · have hshown : isForbidden ch = true := by simpa [isForbidden, htab, hlf, hcr] using hforbidden
    rw [shownChar, if_pos hshown]
    decide
  · have hshown : ¬ isForbidden ch = true := by simpa [isForbidden, htab, hlf, hcr] using hforbidden
    have hnormal : normalizeSpace ch = ch := by
      rw [normalizeSpace]
      split_ifs with hspace
      · simp only [isSpace, htab, hlf, hcr, decide_false, Bool.or_false, decide_eq_true_eq] at hspace
        exact hspace.symm
      · rfl
    rw [decode_singleton hlt hamp, hnormal, shownChar, if_neg hshown]

theorem decode_escape (text : List Char) :
    decode normalizeSpace (text.flatMap escapeChar) = some (text.map shownChar) :=
  decode_flatMap fun ch _ => decode_escapeChar ch

/-- What may stand between the quotes of an attribute. -/
def quotable (c : Char) : Bool := isChar c && c ≠ '"' && c ≠ '\r'

theorem isChar_of_not_forbidden {ch : Char} (h : ¬ (ch.toNat < 0x20 ∨ 0xFFFE ≤ ch.toNat &&& 0xFFFF)) :
    isChar ch = true := by
  have hand : ch.toNat &&& 0xFFFF = ch.toNat % 65536 := Nat.and_two_pow_sub_one_eq_mod _ 16
  rw [hand] at h
  have hvalid : ch.toNat < 0xD800 ∨ 0xDFFF < ch.toNat ∧ ch.toNat < 0x110000 := ch.valid
  simp only [isChar, Bool.or_eq_true, Bool.and_eq_true, decide_eq_true_eq]
  omega

theorem quotable_escapeChar (ch : Char) : (escapeChar ch).all quotable = true := by
  rw [escapeChar]
  split_ifs with hamp hlt hgt hquot hapos htab hlf hcr hforbidden
  all_goals try decide
  simp [quotable, isChar_of_not_forbidden hforbidden, hquot, hcr]

theorem quotable_escape (text : List Char) : (text.flatMap escapeChar).all quotable = true := by
  rw [List.all_flatMap, List.all_eq_true]
  exact fun ch _ => quotable_escapeChar ch

theorem toNat_of_isDigit {c : Char} (h : c.isDigit = true) : 48 ≤ c.toNat ∧ c.toNat ≤ 57 := by
  simpa [Char.isDigit, UInt32.le_iff_toNat_le] using h

/-- A digit stands for itself. -/
theorem ne_of_isDigit {c d : Char} (h : c.isDigit = true) (hd : d.isDigit = false) : c ≠ d := by
  rintro rfl
  rw [h] at hd
  cases hd

theorem quotable_of_isDigit {c : Char} (h : c.isDigit = true) : quotable c = true := by
  obtain ⟨hlow, hhigh⟩ := toNat_of_isDigit h
  have hchar : isChar c = true := by
    simp only [isChar, Bool.or_eq_true, Bool.and_eq_true, decide_eq_true_eq]
    omega
  simp [quotable, hchar, ne_of_isDigit h (d := '"') rfl, ne_of_isDigit h (d := '\r') rfl]

theorem normalizeSpace_of_isDigit {c : Char} (h : c.isDigit = true) : normalizeSpace c = c := by
  refine if_neg ?_
  simp [isSpace, ne_of_isDigit h (d := ' ') rfl, ne_of_isDigit h (d := '\t') rfl,
    ne_of_isDigit h (d := '\r') rfl, ne_of_isDigit h (d := '\n') rfl]

theorem decode_toString (n : ℕ) :
    decode normalizeSpace (toString n).toList = some (toString n).toList := by
  have hdigit := isDigit_toString n
  rw [decode_plain normalizeSpace (fun h => ne_of_isDigit (hdigit _ h) (d := '<') rfl rfl)
    (fun h => ne_of_isDigit (hdigit _ h) (d := '&') rfl rfl),
    List.map_congr_left fun c hc => normalizeSpace_of_isDigit (hdigit c hc), List.map_id']

theorem quotable_toString (n : ℕ) : (toString n).toList.all quotable = true :=
  List.all_eq_true.mpr fun c hc => quotable_of_isDigit (isDigit_toString n c hc)

/-! ### The elements -/

variable (messageMetric : F64 → String)

/-- What is written for one attribute, and what is read from it. -/
structure Attribute where
  key : List Char
  value : List Char
  read : List Char

namespace Attribute

def raw (a : Attribute) : List Char × List Char := (a.key, a.value)

def entry (a : Attribute) : String × String := (String.ofList a.key, String.ofList a.read)

/-- A name, and a value that is read as it is meant. -/
structure Legible (a : Attribute) : Prop where
  name : IsName a.key
  key : a.key.all quotable = true
  value : a.value.all quotable = true
  decode : Xml.decode normalizeSpace a.value = some a.read

end Attribute

theorem readAttributes_raw {attrs : List Attribute} (hnodup : (attrs.map Attribute.key).Nodup)
    (h : ∀ a ∈ attrs, a.Legible) :
    readAttributes (attrs.map Attribute.raw) = some (attrs.map Attribute.entry) := by
  have hvalues : List.Forall₂ (fun a value => decode normalizeSpace a.2 = some value)
      (attrs.map Attribute.raw) (attrs.map Attribute.read) := by
    rw [List.forall₂_map_left_iff, List.forall₂_map_right_iff]
    exact List.forall₂_same.mpr fun a ha => (h a ha).decode
  rw [readAttributes_eq (by simpa [Function.comp_def, Attribute.raw] using hnodup) hvalues]
  simp [List.map_map, List.zip_map', Function.comp_def, Attribute.raw, Attribute.entry]

theorem notMem_of_all_quotable {text : List Char} (h : text.all quotable = true) :
    '"' ∉ text ∧ '\r' ∉ text ∧ ∀ c ∈ text, isChar c = true := by
  have hall := List.all_eq_true.mp h
  refine ⟨fun hc => absurd (hall _ hc) (by decide), fun hc => absurd (hall _ hc) (by decide),
    fun c hc => ?_⟩
  have hquotable := hall c hc
  simp only [quotable, Bool.and_eq_true] at hquotable
  exact hquotable.1.1

theorem isName_of {key : List Char} (h : key.head?.any isNameStart = true)
    (htail : key.tail.all isNameChar = true) : IsName key := by
  cases key with
  | nil => cases h
  | cons c rest => exact ⟨c, rest, rfl, h, List.all_eq_true.mp htail⟩

/-- An attribute with a fixed name. -/
def named (key : String) (value read : List Char) : Attribute := ⟨key.toList, value, read⟩

theorem legible_named {key : String} {value read : List Char}
    (hkey : (key.toList.head?.any isNameStart && key.toList.tail.all isNameChar &&
      key.toList.all quotable) = true)
    (hvalue : value.all quotable = true) (hread : decode normalizeSpace value = some read) :
    (named key value read).Legible := by
  simp only [Bool.and_eq_true] at hkey
  exact ⟨isName_of hkey.1.1 hkey.1.2, hkey.2, hvalue, hread⟩

def escaped (key text : String) : Attribute :=
  named key (text.toList.flatMap escapeChar) (text.toList.map shownChar)

def number (key : String) (n : ℕ) : Attribute :=
  named key (toString n).toList (toString n).toList

def errorAttributes (record : OffenderRecord) : List Attribute :=
  number "line" (max record.startLine.toNat 1) ::
    ((match record.startCol with
      | some col => [number "column" (max col.toNat 1)]
      | none => []) ++
    [named "severity" record.severity.asStr.toList record.severity.asStr.toList,
      escaped "message" (record.defaultMessage messageMetric),
      named "source" (toolId.toList ++ '.' :: record.metric.toList.flatMap escapeChar)
        (toolId.toList ++ '.' :: record.metric.toList.map shownChar)])

theorem legible_errorAttributes (record : OffenderRecord) :
    ∀ a ∈ errorAttributes messageMetric record, a.Legible := by
  have hnumber : ∀ (key : String) (n : ℕ), (key.toList.head?.any isNameStart &&
      key.toList.tail.all isNameChar && key.toList.all quotable) = true → (number key n).Legible :=
    fun key n h => legible_named h (quotable_toString n) (decode_toString n)
  have hsource : (named "source" (toolId.toList ++ '.' :: record.metric.toList.flatMap escapeChar)
      (toolId.toList ++ '.' :: record.metric.toList.map shownChar)).Legible := by
    refine legible_named (by decide) ?_ ?_
    · rw [List.all_append, List.all_cons, quotable_escape]
      decide
    · have hid : decode normalizeSpace (toolId.toList ++ ['.']) = some (toolId.toList ++ ['.']) := by
        decide
      have hdot := decode_append hid (decode_escape record.metric.toList)
      simpa using hdot
  rw [errorAttributes]
  refine List.forall_mem_cons.mpr ⟨hnumber _ _ (by decide), List.forall_mem_append.mpr ⟨?_, ?_⟩⟩
  · cases record.startCol with
    | none => exact fun _ h => absurd h List.not_mem_nil
    | some col => exact List.forall_mem_singleton.mpr (hnumber _ _ (by decide))
  · refine List.forall_mem_cons.mpr ⟨?_, List.forall_mem_cons.mpr ⟨?_,
      List.forall_mem_singleton.mpr hsource⟩⟩
    · cases record.severity <;> exact legible_named (by decide) (by decide) (by decide)
    · exact legible_named (by decide) (quotable_escape _) (decode_escape _)

theorem nodup_errorAttributes (record : OffenderRecord) :
    ((errorAttributes messageMetric record).map Attribute.key).Nodup := by
  have hkeys : (errorAttributes messageMetric record).map Attribute.key = "line".toList ::
      ((match record.startCol with
        | some _ => ["column".toList]
        | none => []) ++ ["severity".toList, "message".toList, "source".toList]) := by
    rw [errorAttributes]
    cases record.startCol <;> rfl
  rw [hkeys]
  cases record.startCol with
  | none =>
    show List.Nodup ["line".toList, "severity".toList, "message".toList, "source".toList]
    decide
  | some col =>
    show List.Nodup
      ["line".toList, "column".toList, "severity".toList, "message".toList, "source".toList]
    decide

/-! ### Tags -/

def emptyTag (key : String) (attrs : List Attribute) : List Char :=
  '<' :: (key.toList ++ (written (attrs.map Attribute.raw) ++ ['/', '>']))

def openTag (key : String) (attrs : List Attribute) : List Char :=
  '<' :: (key.toList ++ (written (attrs.map Attribute.raw) ++ ['>']))

def closeTag (key : String) : List Char := '<' :: '/' :: (key.toList ++ ['>'])

section

variable {key : String} (hkey : IsName key.toList) {attrs : List Attribute}
  (hnodup : (attrs.map Attribute.key).Nodup) (h : ∀ a ∈ attrs, a.Legible)

include h in
theorem raw_legible : ∀ a ∈ attrs.map Attribute.raw, IsName a.1 ∧ '"' ∉ a.2 := by
  intro a ha
  obtain ⟨b, hb, rfl⟩ := List.mem_map.mp ha
  exact ⟨(h b hb).name, (notMem_of_all_quotable (h b hb).value).1⟩

include hkey hnodup h

theorem lexed_emptyTag : Lexed (emptyTag key attrs) [.empty key (attrs.map Attribute.entry)] := by
  refine Lexed.tag fun rest => ?_
  have htag := tag_empty hkey (raw_legible h) (readAttributes_raw hnodup h) rest
  rw [String.ofList_toList] at htag
  simpa using htag

theorem lexed_openTag : Lexed (openTag key attrs) [.open key (attrs.map Attribute.entry)] := by
  refine Lexed.tag fun rest => ?_
  have htag := tag_open hkey (raw_legible h) (readAttributes_raw hnodup h) rest
  rw [String.ofList_toList] at htag
  simpa using htag

end

theorem lexed_closeTag {key : String} (hkey : IsName key.toList) :
    Lexed (closeTag key) [.close key] := by
  refine Lexed.tag fun rest => ?_
  have htag := tag_close hkey rest
  rw [String.ofList_toList] at htag
  simpa using htag

/-- A tag on a line of its own, indented. -/
theorem lexed_line {tag : List Char} {ts : List Token} (n : ℕ) (htag : ∃ xs, tag = '<' :: xs)
    (h : Lexed tag ts) :
    Lexed ('\n' :: (List.replicate n ' ' ++ tag)) (.text ('\n' :: List.replicate n ' ') :: ts) := by
  obtain ⟨xs, rfl⟩ := htag
  have hspace : ('\n' :: List.replicate n ' ').all isSpace = true := by simp [isSpace]
  have hline := Lexed.space (List.cons_ne_nil _ _) hspace h
  simpa using hline

/-! ### The document -/

/-- The line end and the indentation ahead of a tag. -/
def indent (n : ℕ) : List Char := '\n' :: List.replicate n ' '

def errorText (record : OffenderRecord) : List Char :=
  indent 4 ++ emptyTag "error" (errorAttributes messageMetric record)

def fileText (file : String × List OffenderRecord) : List Char :=
  indent 2 ++ openTag "file" [escaped "name" file.1] ++ file.2.flatMap (errorText messageMetric) ++
    indent 2 ++ closeTag "file"

def version : Attribute := named "version" "4.3".toList "4.3".toList

def documentText (files : List (String × List OffenderRecord)) : List Char :=
  if files = [] then indent 0 ++ emptyTag "checkstyle" [version]
  else indent 0 ++ openTag "checkstyle" [version] ++ files.flatMap (fileText messageMetric) ++
    indent 0 ++ closeTag "checkstyle"

/-- Line ends behind the lines are line ends ahead of them. -/
theorem cons_flatMap {α : Type*} {x : Char} {f g : α → List Char}
    (h : ∀ a, x :: f a = g a ++ [x]) (as : List α) : x :: as.flatMap f = as.flatMap g ++ [x] := by
  induction as with
  | nil => rfl
  | cons a as ih =>
    rw [List.flatMap_cons, List.flatMap_cons, ← List.cons_append, h, List.append_assoc,
      List.singleton_append, ih, List.append_assoc]

theorem toList_xmlAttr (text : String) :
    (xmlAttr text).toList = text.toList.flatMap escapeChar := by
  rw [xmlAttr, String.toList_ofList]

/-- The line of an error, each value a text of its own. -/
theorem error_shape (line severity message source : List Char) (column : List (List Char)) :
    '\n' :: ("    <error line=\"".toList ++ line ++ "\"".toList ++
        column.flatMap (fun col => " column=\"".toList ++ col ++ "\"".toList) ++
        " severity=\"".toList ++ severity ++ "\" message=\"".toList ++ message ++
        "\" source=\"".toList ++ source ++ "\"/>\n".toList) =
      Checkstyle.indent 4 ++ ('<' :: ("error".toList ++ (written (("line".toList, line) ::
        (column.map (fun col => ("column".toList, col)) ++ [("severity".toList, severity),
          ("message".toList, message), ("source".toList, source)])) ++ ['/', '>']))) ++ ['\n'] := by
  have hcolumn : written (column.map fun col => ("column".toList, col)) =
      column.flatMap fun col => " column=\"".toList ++ col ++ "\"".toList := by
    rw [written, List.flatMap_map]
    refine List.flatMap_congr fun col _ => ?_
    simp only [List.append_assoc]
    rfl
  rw [written, List.flatMap_cons, List.flatMap_append, ← written, hcolumn]
  simp only [List.append_assoc, List.flatMap_cons, List.flatMap_nil, List.cons_append,
    List.nil_append]
  rfl

def columnTexts (record : OffenderRecord) : List (List Char) :=
  record.startCol.toList.map fun col => (toString (max col.toNat 1)).toList

theorem toList_writeError (record : OffenderRecord) :
    '\n' :: (writeError messageMetric record).toList = errorText messageMetric record ++ ['\n'] := by
  have htext : (writeError messageMetric record).toList =
      "    <error line=\"".toList ++ (toString (max record.startLine.toNat 1)).toList ++
        "\"".toList ++
        (columnTexts record).flatMap (fun col => " column=\"".toList ++ col ++ "\"".toList) ++
        " severity=\"".toList ++ record.severity.asStr.toList ++ "\" message=\"".toList ++
        (record.defaultMessage messageMetric).toList.flatMap escapeChar ++ "\" source=\"".toList ++
        (toolId.toList ++ '.' :: record.metric.toList.flatMap escapeChar) ++ "\"/>\n".toList := by
    delta writeError columnTexts
    cases record.startCol with
    | none =>
      simp only [String.toList_append, toList_xmlAttr, Option.toList_none, List.map_nil,
        List.flatMap_nil, List.append_assoc, List.cons_append]
      rfl
    | some col =>
      simp only [String.toList_append, toList_xmlAttr, Option.toList_some, List.map_singleton,
        List.flatMap_singleton, List.append_assoc, List.cons_append]
      rfl
  have hraw : (errorAttributes messageMetric record).map Attribute.raw =
      ("line".toList, (toString (max record.startLine.toNat 1)).toList) ::
        ((columnTexts record).map (fun col => ("column".toList, col)) ++
          [("severity".toList, record.severity.asStr.toList),
            ("message".toList, (record.defaultMessage messageMetric).toList.flatMap escapeChar),
            ("source".toList, toolId.toList ++ '.' :: record.metric.toList.flatMap escapeChar)]) := by
    rw [errorAttributes, columnTexts]
    cases record.startCol <;> rfl
  rw [htext, error_shape, errorText, emptyTag, hraw]

theorem toList_writeFile (file : String × List OffenderRecord) :
    '\n' :: (writeFile messageMetric file).toList = fileText messageMetric file ++ ['\n'] := by
  have herrors := cons_flatMap (x := '\n') (toList_writeError messageMetric) file.2
  have hopen : '\n' :: ("  <file name=\"".toList ++ file.1.toList.flatMap escapeChar ++
      "\">".toList) = Checkstyle.indent 2 ++ openTag "file" [escaped "name" file.1] := by
    rw [openTag, List.map_singleton, written, List.flatMap_singleton]
    simp only [List.append_assoc, List.cons_append, List.nil_append]
    rfl
  have hbreak : "\">\n".toList = "\">".toList ++ ['\n'] := rfl
  have hclose : '\n' :: "  </file>\n".toList =
      Checkstyle.indent 2 ++ closeTag "file" ++ ['\n'] := rfl
  rw [writeFile, String.toList_append, String.toList_append, String.toList_append,
    String.toList_append, toList_xmlAttr, toList_join, List.flatMap_map, hbreak, fileText]
  calc '\n' :: ("  <file name=\"".toList ++ file.1.toList.flatMap escapeChar ++
          ("\">".toList ++ ['\n']) ++
        file.2.flatMap (fun record => (writeError messageMetric record).toList) ++
        "  </file>\n".toList) =
      '\n' :: ("  <file name=\"".toList ++ file.1.toList.flatMap escapeChar ++ "\">".toList) ++
        ('\n' :: file.2.flatMap fun record => (writeError messageMetric record).toList) ++
        "  </file>\n".toList := by
          simp only [List.append_assoc, List.cons_append, List.nil_append]
    _ = Checkstyle.indent 2 ++ openTag "file" [escaped "name" file.1] ++
        file.2.flatMap (errorText messageMetric) ++ ('\n' :: "  </file>\n".toList) := by
          rw [hopen, herrors]
          simp only [List.append_assoc, List.cons_append, List.nil_append]
    _ = _ := by
          rw [hclose]
          simp only [List.append_assoc]

def declared : List (List Char × List Char) :=
  [("version".toList, "1.0".toList), ("encoding".toList, "UTF-8".toList)]

theorem toList_writeCheckstyle (offenders : List OffenderRecord) :
    (writeCheckstyle messageMetric offenders).toList =
      '<' :: '?' :: 'x' :: 'm' :: 'l' :: (written declared ++
        '?' :: '>' :: (documentText messageMetric (byFile offenders).entries ++ ['\n'])) := by
  have hheader : xmlHeader.toList =
      '<' :: '?' :: 'x' :: 'm' :: 'l' :: (written declared ++ ['?', '>', '\n']) := rfl
  rw [writeCheckstyle, String.toList_append, hheader, documentText]
  generalize (byFile offenders).entries = files
  cases files with
  | nil =>
    rw [List.isEmpty_nil, if_pos rfl, if_pos rfl]
    rfl
  | cons file files =>
    have hfiles := cons_flatMap (x := '\n') (toList_writeFile messageMetric) (file :: files)
    have hopen : "<checkstyle version=\"4.3\">\n".toList =
        openTag "checkstyle" [version] ++ ['\n'] := rfl
    have hclose : "</checkstyle>\n".toList = closeTag "checkstyle" ++ ['\n'] := rfl
    rw [if_neg (List.cons_ne_nil _ _), List.isEmpty_cons, if_neg Bool.false_ne_true,
      String.toList_append, String.toList_append, toList_join, List.flatMap_map, hopen, hclose]
    calc _ = '<' :: '?' :: 'x' :: 'm' :: 'l' :: (written declared ++ ['?', '>', '\n'] ++
          openTag "checkstyle" [version] ++
          ('\n' :: (file :: files).flatMap fun f => (writeFile messageMetric f).toList) ++
          closeTag "checkstyle" ++ ['\n']) := by
            simp only [List.append_assoc, List.cons_append, List.nil_append]
      _ = _ := by
            rw [hfiles]
            simp only [List.append_assoc, List.cons_append, List.nil_append, Checkstyle.indent,
              List.replicate_zero]

/-! ### What is read -/

def errorEntries (record : OffenderRecord) : List (String × String) :=
  ("line", toString (max record.startLine.toNat 1)) ::
    (record.startCol.toList.map (fun col => ("column", toString (max col.toNat 1))) ++
      [("severity", record.severity.asStr), ("message", shown (record.defaultMessage messageMetric)),
        ("source", toolId ++ "." ++ shown record.metric)])

def errorNode (record : OffenderRecord) : Node :=
  .element "error" (errorEntries messageMetric record) []

def fileNode (file : String × List OffenderRecord) : Node :=
  .element "file" [("name", shown file.1)] (file.2.map (errorNode messageMetric))

def rootNode (files : List (String × List OffenderRecord)) : Node :=
  .element "checkstyle" [("version", "4.3")] (files.map (fileNode messageMetric))

def blank (n : ℕ) : Node := .text (String.ofList (Checkstyle.indent n))

def errorNodes (record : OffenderRecord) : List Node := [blank 4, errorNode messageMetric record]

def fileNodes (file : String × List OffenderRecord) : List Node :=
  [blank 2, .element "file" [("name", shown file.1)]
    (file.2.flatMap (errorNodes messageMetric) ++ [blank 2])]

def errorTokens (record : OffenderRecord) : List Token :=
  [.text (Checkstyle.indent 4),
    .empty "error" (errorEntries messageMetric record)]

def fileTokens (file : String × List OffenderRecord) : List Token :=
  [.text (Checkstyle.indent 2), .open "file" [("name", shown file.1)]] ++
    file.2.flatMap (errorTokens messageMetric) ++ [.text (Checkstyle.indent 2), .close "file"]

theorem entry_named (key text : String) :
    (named key text.toList text.toList).entry = (key, text) := by
  rw [named, Attribute.entry, String.ofList_toList, String.ofList_toList]

theorem entries_errorAttributes (record : OffenderRecord) :
    (errorAttributes messageMetric record).map Attribute.entry =
      errorEntries messageMetric record := by
  have hescaped : (escaped "message" (record.defaultMessage messageMetric)).entry =
      ("message", shown (record.defaultMessage messageMetric)) := by
    rw [escaped, named, Attribute.entry, String.ofList_toList]
    rfl
  have hsource : (named "source" (toolId.toList ++ '.' :: record.metric.toList.flatMap escapeChar)
      (toolId.toList ++ '.' :: record.metric.toList.map shownChar)).entry =
      ("source", toolId ++ "." ++ shown record.metric) := by
    have htext : toolId.toList ++ '.' :: record.metric.toList.map shownChar =
        (toolId ++ "." ++ shown record.metric).toList := by
      rw [String.toList_append, String.toList_append, shown, List.append_assoc,
        String.toList_ofList, String.toList_ofList]
      rfl
    rw [named, Attribute.entry, String.ofList_toList, htext, String.ofList_toList]
  rw [errorAttributes, errorEntries]
  cases record.startCol with
  | none =>
    simp only [List.map_cons, List.map_nil, List.nil_append, Option.toList_none, number,
      entry_named, hescaped, hsource]
  | some col =>
    simp only [List.map_cons, List.map_nil, List.cons_append, List.nil_append, Option.toList_some,
      number, entry_named, hescaped, hsource]

theorem lexed_errorText (record : OffenderRecord) :
    Lexed (errorText messageMetric record) (errorTokens messageMetric record) := by
  have hname : IsName "error".toList := isName_of rfl rfl
  have htag := lexed_line 4 ⟨_, rfl⟩ (lexed_emptyTag hname
    (nodup_errorAttributes messageMetric record) (legible_errorAttributes messageMetric record))
  rw [entries_errorAttributes] at htag
  exact htag

theorem legible_escaped (text : String) : ∀ a ∈ [escaped "name" text], a.Legible :=
  List.forall_mem_singleton.mpr
    (legible_named (by decide) (quotable_escape _) (decode_escape _))

theorem lexed_fileText (file : String × List OffenderRecord) :
    Lexed (fileText messageMetric file) (fileTokens messageMetric file) := by
  have hopen : Lexed (Checkstyle.indent 2 ++ openTag "file" [escaped "name" file.1])
      [.text (Checkstyle.indent 2), .open "file" [("name", shown file.1)]] :=
    lexed_line 2 ⟨_, rfl⟩ (lexed_openTag (isName_of rfl rfl) (List.nodup_singleton _)
      (legible_escaped file.1))
  have hclose : Lexed (Checkstyle.indent 2 ++ closeTag "file")
      [.text (Checkstyle.indent 2), .close "file"] :=
    lexed_line 2 ⟨_, rfl⟩ (lexed_closeTag (isName_of rfl rfl))
  have hall := (hopen.append (Lexed.flatMap file.2 fun record _ =>
    lexed_errorText messageMetric record)).append hclose
  rw [fileText, List.append_assoc _ (Checkstyle.indent 2)]
  exact hall

theorem isSpace_indent (n : ℕ) : (Checkstyle.indent n).all isSpace = true := by
  simp [Checkstyle.indent, isSpace]

theorem built_errorTokens (record : OffenderRecord) :
    Built (errorTokens messageMetric record) (errorNodes messageMetric record) :=
  (Built.space (isSpace_indent 4)).append (Built.empty _ _)

theorem built_fileTokens (file : String × List OffenderRecord) :
    Built (fileTokens messageMetric file) (fileNodes messageMetric file) := by
  have hinside := (Built.flatMap file.2 fun record _ => built_errorTokens messageMetric record).append
    (Built.space (isSpace_indent 2))
  have hfile := (Built.space (isSpace_indent 2)).append
    (Built.element "file" [("name", shown file.1)] hinside)
  simpa [fileTokens, fileNodes, blank] using hfile

theorem trimAll_errorNodes (records : List OffenderRecord) :
    trimAll (records.flatMap (errorNodes messageMetric) ++ [blank 2]) =
      records.map (errorNode messageMetric) := by
  rw [trimAll_append, trimAll_flatMap, blank, trimAll_space (isSpace_indent 2), trimAll,
    List.append_nil, List.map_eq_flatMap]
  refine List.flatMap_congr fun record _ => ?_
  rw [errorNodes, blank, trimAll_space (isSpace_indent 4), errorNode, trimAll_element]
  rfl

theorem trimAll_fileNodes (files : List (String × List OffenderRecord)) :
    trimAll (files.flatMap (fileNodes messageMetric) ++ [blank 0]) =
      files.map (fileNode messageMetric) := by
  rw [trimAll_append, trimAll_flatMap, blank, trimAll_space (isSpace_indent 0), trimAll,
    List.append_nil, List.map_eq_flatMap]
  refine List.flatMap_congr fun file _ => ?_
  rw [fileNodes, blank, trimAll_space (isSpace_indent 2), trimAll_element, ← blank,
    trimAll_errorNodes]
  rfl

theorem legible_version : ∀ a ∈ [version], a.Legible :=
  List.forall_mem_singleton.mpr (legible_named (by decide) (by decide) (by decide))

/-- The document without the line end behind it. -/
theorem read_documentText (files : List (String × List OffenderRecord)) :
    ∃ ts root, Lexed (documentText messageMetric files) ts ∧ Built ts [blank 0, root] ∧
      root.isElement = true ∧ root.trim = rootNode messageMetric files := by
  by_cases hempty : files = []
  · have htag : Lexed (Checkstyle.indent 0 ++ emptyTag "checkstyle" [version])
        [.text (Checkstyle.indent 0), .empty "checkstyle" [("version", "4.3")]] :=
      lexed_line 0 ⟨_, rfl⟩ (lexed_emptyTag (isName_of rfl rfl) (List.nodup_singleton _)
        legible_version)
    refine ⟨_, .element "checkstyle" [("version", "4.3")] [], ?_,
      (Built.space (isSpace_indent 0)).append (Built.empty "checkstyle" [("version", "4.3")]), rfl,
      ?_⟩
    · rw [documentText, if_pos hempty]
      exact htag
    · rw [hempty]
      rfl
  · have hopen : Lexed (Checkstyle.indent 0 ++ openTag "checkstyle" [version])
        [.text (Checkstyle.indent 0), .open "checkstyle" [("version", "4.3")]] :=
      lexed_line 0 ⟨_, rfl⟩ (lexed_openTag (isName_of rfl rfl) (List.nodup_singleton _)
        legible_version)
    have hclose : Lexed (Checkstyle.indent 0 ++ closeTag "checkstyle")
        [.text (Checkstyle.indent 0), .close "checkstyle"] :=
      lexed_line 0 ⟨_, rfl⟩ (lexed_closeTag (isName_of rfl rfl))
    have hinside := (Built.flatMap files fun file _ => built_fileTokens messageMetric file).append
      (Built.space (isSpace_indent 0))
    refine ⟨[.text (Checkstyle.indent 0)] ++ (.open "checkstyle" [("version", "4.3")] ::
        (files.flatMap (fileTokens messageMetric) ++ [.text (Checkstyle.indent 0)] ++
          [.close "checkstyle"])),
      .element "checkstyle" [("version", "4.3")]
        (files.flatMap (fileNodes messageMetric) ++ [blank 0]), ?_,
      (Built.space (isSpace_indent 0)).append (Built.element "checkstyle" _ hinside), rfl, ?_⟩
    · have hall := (hopen.append (Lexed.flatMap files fun file _ =>
        lexed_fileText messageMetric file)).append hclose
      rw [documentText, if_neg hempty, List.append_assoc _ (Checkstyle.indent 0)]
      simpa using hall
    · rw [Node.trim, trimAll_fileNodes]
      rfl

/-! ### Characters -/

def legal (c : Char) : Bool := isChar c && c ≠ '\r'

theorem legal_of_quotable {c : Char} (h : quotable c = true) : legal c = true := by
  simp only [quotable, Bool.and_eq_true] at h
  simp only [legal, Bool.and_eq_true]
  exact ⟨h.1.1, h.2⟩

theorem all_legal {text : List Char} (h : text.all quotable = true) : text.all legal = true :=
  List.all_eq_true.mpr fun c hc => legal_of_quotable (List.all_eq_true.mp h c hc)

theorem legal_written {attrs : List Attribute} (h : ∀ a ∈ attrs, a.Legible) :
    (written (attrs.map Attribute.raw)).all legal = true := by
  rw [written, List.flatMap_map, List.all_flatMap, List.all_eq_true]
  intro a ha
  have hkey := all_legal (h a ha).key
  have hvalue := all_legal (h a ha).value
  have hsigns : legal ' ' && (legal '=' && legal '"') := by decide
  simp only [Bool.and_eq_true] at hsigns
  simp [Attribute.raw, hkey, hvalue, hsigns]

theorem legal_indent (n : ℕ) : (Checkstyle.indent n).all legal = true := by
  have hspace : legal ' ' = true := by decide
  have hbreak : legal '\n' = true := by decide
  simp [Checkstyle.indent, hspace, hbreak]

theorem legal_emptyTag {key : String} (hkey : key.toList.all legal = true) {attrs : List Attribute}
    (h : ∀ a ∈ attrs, a.Legible) : (emptyTag key attrs).all legal = true := by
  have hsigns : legal '<' && (legal '/' && legal '>') := by decide
  simp only [Bool.and_eq_true] at hsigns
  simp only [emptyTag, List.all_cons, List.all_append, List.all_nil, hkey, legal_written h, hsigns,
    Bool.and_self]

theorem legal_openTag {key : String} (hkey : key.toList.all legal = true) {attrs : List Attribute}
    (h : ∀ a ∈ attrs, a.Legible) : (openTag key attrs).all legal = true := by
  have hsigns : legal '<' && legal '>' := by decide
  simp only [Bool.and_eq_true] at hsigns
  simp only [openTag, List.all_cons, List.all_append, List.all_nil, hkey, legal_written h, hsigns,
    Bool.and_self]

theorem legal_fileText (file : String × List OffenderRecord) :
    (fileText messageMetric file).all legal = true := by
  have herrors : (file.2.flatMap (errorText messageMetric)).all legal = true := by
    rw [List.all_flatMap, List.all_eq_true]
    intro record _
    rw [errorText, List.all_append, legal_indent,
      legal_emptyTag (by decide) (legible_errorAttributes messageMetric record), Bool.and_self]
  have hclose : (closeTag "file").all legal = true := by decide
  have hkey : "file".toList.all legal = true := by decide
  simp only [fileText, List.all_append, legal_indent, legal_openTag hkey (legible_escaped file.1),
    herrors, hclose, Bool.and_self]

theorem legal_documentText (files : List (String × List OffenderRecord)) :
    (documentText messageMetric files).all legal = true := by
  have hfiles : (files.flatMap (fileText messageMetric)).all legal = true := by
    rw [List.all_flatMap, List.all_eq_true]
    exact fun file _ => legal_fileText messageMetric file
  have hopen : (openTag "checkstyle" [version]).all legal = true := by decide
  have hempty : (emptyTag "checkstyle" [version]).all legal = true := by decide
  have hclose : (closeTag "checkstyle").all legal = true := by decide
  rw [documentText]
  split_ifs
  · rw [List.all_append, legal_indent, hempty, Bool.and_self]
  · simp only [List.all_append, legal_indent, hopen, hfiles, hclose, Bool.and_self]

/-! ### The files -/

/-- The records about a path. -/
def recordsOf (offenders : List OffenderRecord) (path : String) : List OffenderRecord :=
  offenders.filter fun record => pathToStr record.path = some path

def addRecord (files : SortedMap String (List OffenderRecord)) (record : OffenderRecord) :
    SortedMap String (List OffenderRecord) :=
  match pathToStr record.path with
  | some path => files.insert path ((files.get path).getD [] ++ [record])
  | none => files

theorem get_foldl_addRecord (offenders : List OffenderRecord)
    (files : SortedMap String (List OffenderRecord)) (path : String) :
    (offenders.foldl addRecord files).get path =
      if recordsOf offenders path = [] then files.get path
      else some ((files.get path).getD [] ++ recordsOf offenders path) := by
  induction offenders generalizing files with
  | nil => rfl
  | cons record offenders ih =>
    rw [List.foldl_cons, ih, addRecord]
    simp only [recordsOf, List.filter_cons]
    cases hpath : pathToStr record.path with
    | none => simp
    | some other =>
      by_cases hsame : path = other
      · subst hsame
        simp [SortedMap.get_insert]
      · simp [SortedMap.get_insert, hsame, Ne.symm hsame]

theorem get_byFile (offenders : List OffenderRecord) (path : String) :
    (byFile offenders).get path =
      if recordsOf offenders path = [] then none else some (recordsOf offenders path) :=
  get_foldl_addRecord offenders .empty path

theorem byFile_spec (offenders : List OffenderRecord) :
    (byFile offenders).keys.Pairwise (· < ·) ∧
      (∀ path, path ∈ (byFile offenders).keys ↔
        ∃ record ∈ offenders, pathToStr record.path = some path) ∧
      ∀ file ∈ (byFile offenders).entries, file.2 = recordsOf offenders file.1 := by
  refine ⟨List.pairwise_map.mpr (byFile offenders).sorted, fun path => ?_, fun file hfile => ?_⟩
  · rw [← SortedMap.get_isSome, get_byFile]
    have hempty : recordsOf offenders path = [] ↔
        ¬ ∃ record ∈ offenders, pathToStr record.path = some path := by
      simp [recordsOf]
    split_ifs with h
    · simp [hempty.mp h]
    · simpa using not_not.mp fun hnone => h (hempty.mpr hnone)
  · have hget := SortedMap.get_eq_some.mpr hfile
    rw [get_byFile] at hget
    split_ifs at hget
    exact (Option.some.inj hget).symm

/-! ### The document read back -/

/-- For every list of records and every way to write a number, the report is a document that a
reader takes. It has one element for each UTF-8 path, in the order of the paths, and in it one for
each record about the path, in the order of the records; each value is the text with the forbidden
characters replaced. -/
theorem document_writeCheckstyle (offenders : List OffenderRecord) :
    ∃ files : List (String × List OffenderRecord),
      (document (writeCheckstyle messageMetric offenders)).map Node.trim =
        some (rootNode messageMetric files) ∧
      (files.map Prod.fst).Pairwise (· < ·) ∧
      (∀ path, path ∈ files.map Prod.fst ↔
        ∃ record ∈ offenders, pathToStr record.path = some path) ∧
      ∀ file ∈ files, file.2 = recordsOf offenders file.1 := by
  obtain ⟨hsorted, hpaths, hrecords⟩ := byFile_spec offenders
  refine ⟨(byFile offenders).entries, ?_, hsorted, hpaths, hrecords⟩
  obtain ⟨ts, root, hlexed, hbuilt, helement, htrim⟩ :=
    read_documentText messageMetric (byFile offenders).entries
  have htext := toList_writeCheckstyle messageMetric offenders
  have hlegal : (writeCheckstyle messageMetric offenders).toList.all legal = true := by
    have hdeclared : (written declared).all legal = true := by decide
    have hend : legal '\n' = true := by decide
    have hsigns : [ '<', '?', 'x', 'm', 'l', '>'].all legal = true := by decide
    simp only [List.all_cons, List.all_nil, Bool.and_eq_true] at hsigns
    rw [htext]
    simp only [List.all_cons, List.all_append, List.all_nil, hdeclared, hend, hsigns,
      legal_documentText, Bool.and_self]
  have hall := List.all_eq_true.mp hlegal
  have hclosing : Built (ts ++ [.text ['\n']]) ([blank 0, root] ++ [blank 0]) :=
    hbuilt.append (Built.space (isSpace_indent 0))
  have hdocument : document (writeCheckstyle messageMetric offenders) = some root := by
    refine document_eq htext (fun c hc => ?_) (fun hc => absurd (hall _ hc) (by decide)) ?_ rfl
      ?_ hclosing ?_
    · have hlegalc := hall c hc
      simp only [legal, Bool.and_eq_true] at hlegalc
      exact hlegalc.1
    · exact List.forall_mem_cons.mpr ⟨⟨isName_of rfl rfl, by decide⟩,
        List.forall_mem_singleton.mpr ⟨isName_of rfl rfl, by decide⟩⟩
    · exact hlexed ['\n'] [.text ['\n']] (tokens_space (List.cons_ne_nil _ _) rfl)
    · rw [List.cons_append, List.cons_append, List.nil_append,
        List.filter_cons_of_neg Bool.false_ne_true, List.filter_cons_of_pos helement,
        List.filter_cons_of_neg Bool.false_ne_true, List.filter_nil]
  rw [hdocument, Option.map_some, htrim]

end Checkstyle

end BigCodeAnalysis.Output
