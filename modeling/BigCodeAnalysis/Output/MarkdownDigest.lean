import BigCodeAnalysis.Output.MarkdownTables
import BigCodeAnalysis.Output.StepSummaryText

/-! The tables of the digest and what a reader finds in them. Each table is a heading, an empty
line, a header with its dashes and one line a row, and a reader gets back the rows as they were
meant. The paths and symbols of the digest are escaped but stand outside of code spans, so a
reader shows those that hold no markup; the names of the other sections stand inside of them. -/

namespace BigCodeAnalysis.Output.Markdown

open Catalog (F64)
open Gfm (PaddedCell readCells readRow rowLine)
open Hotspot (Cell Column FunctionSummary specs)
open Thresholds (Violation)
open WorkflowCommand (breaksLine lines)

/-! ### The digest -/

/-- How numbers are written, in characters no table minds. -/
structure FloatFormat where
  format : Option ℕ → F64 → String
  bare : ∀ digits v, Bare (format digits v)

theorem FloatFormat.bare_metricScalar (floats : FloatFormat) (v : F64) :
    Bare (metricScalar floats.format v) := by
  cases v with
  | finite value =>
    rw [metricScalar]
    split_ifs
    · exact floats.bare _ _
    · exact floats.bare _ _
  | infinite negative => exact floats.bare _ _
  | nan => exact floats.bare _ _

theorem bare_metric {ρ : Type*} (v : Violation ρ) : Bare v.metric := by
  have hall : ∀ info ∈ Catalog.metrics, Bare info.id := by decide +kernel
  exact hall _ (List.mem_of_find?_eq_some v.threshold.known)

section Rows
variable {ρ γ : Type*} (display : ρ → String) (floats : FloatFormat)

/-- The last three cells of a row. -/
def breachRow (v : Violation ρ) : List Cell :=
  [.num v.metric, .num (metricScalar floats.format v.value),
    .num (metricScalar floats.format (.finite v.limit))]

def rollupCells (row : Violation.RollupRow ρ) : List Cell :=
  .path row.display :: .num (toString row.count) :: breachRow floats row.worst

def countCells (row : String × ℕ) : List Cell := [.num row.1, .num (toString row.2)]

def offenderCells (v : Violation ρ) : List Cell :=
  .path (display v.path) :: .num (toString v.startLine) :: .path v.function :: breachRow floats v

def unpadded (cells : List Cell) : List PaddedCell := cells.map fun cell => ⟨cellSource cell, 0, 0⟩

theorem map_text_unpadded (cells : List Cell) :
    (unpadded cells).map PaddedCell.text = cells.map cellSource := by
  rw [unpadded, List.map_map]
  rfl

/-- The line of a digest row. -/
def digestLine (cells : List Cell) : List Char :=
  '|' :: cells.flatMap fun cell => ' ' :: (renderCellMd cell).toList ++ [' ', '|']

theorem rowLine_unpadded {cells : List Cell} (h : ∀ cell ∈ cells, Formatted cell) :
    rowLine (unpadded cells) = digestLine cells := by
  rw [rowLine, unpadded, List.flatMap_map, digestLine]
  congr 1
  refine List.flatMap_congr fun cell hcell => ?_
  rw [toList_renderCellMd (h cell hcell), PaddedCell.written]
  simp

theorem formatted_breachRow (v : Violation ρ) : ∀ cell ∈ breachRow floats v, Formatted cell := by
  intro cell hcell
  simp only [breachRow, List.mem_cons, List.not_mem_nil, or_false] at hcell
  rcases hcell with rfl | rfl | rfl
  · exact bare_metric v
  · exact floats.bare_metricScalar _
  · exact floats.bare_metricScalar _

theorem formatted_rollupCells (row : Violation.RollupRow ρ) :
    ∀ cell ∈ rollupCells floats row, Formatted cell := by
  intro cell hcell
  rcases List.mem_cons.mp hcell with rfl | hcell
  · trivial
  · rcases List.mem_cons.mp hcell with rfl | hcell
    · exact bare_toString _
    · exact formatted_breachRow floats row.worst cell hcell

theorem formatted_offenderCells (v : Violation ρ) :
    ∀ cell ∈ offenderCells display floats v, Formatted cell := by
  intro cell hcell
  rcases List.mem_cons.mp hcell with rfl | hcell
  · trivial
  · rcases List.mem_cons.mp hcell with rfl | hcell
    · exact bare_toString _
    · rcases List.mem_cons.mp hcell with rfl | hcell
      · trivial
      · exact formatted_breachRow floats v cell hcell

theorem toList_breachCells (v : Violation ρ) : (breachCells floats.format v).toList =
    v.metric.toList ++ [' ', '|', ' '] ++ (metricScalar floats.format v.value).toList ++
      [' ', '|', ' '] ++ (metricScalar floats.format (.finite v.limit)).toList ++
      [' ', '|', '\n'] := by
  have hbar : " | ".toList = [' ', '|', ' '] := by decide
  have hend : " |\n".toList = [' ', '|', '\n'] := by decide
  rw [breachCells, String.toList_append, String.toList_append, String.toList_append,
    String.toList_append, String.toList_append, hbar, hend]

theorem toList_rollupRow (row : Violation.RollupRow ρ) :
    (rollupRow floats.format row).toList = digestLine (rollupCells floats row) ++ ['\n'] := by
  have hopen : "| ".toList = ['|', ' '] := by decide
  have hbar : " | ".toList = [' ', '|', ' '] := by decide
  rw [rollupRow, String.toList_append, String.toList_append, String.toList_append,
    String.toList_append, String.toList_append, toList_breachCells, hopen, hbar]
  simp [digestLine, rollupCells, breachRow, renderCellMd]

theorem toList_countRow (row : String × ℕ) :
    (countRow row).toList = digestLine (countCells row) ++ ['\n'] := by
  have hopen : "| ".toList = ['|', ' '] := by decide
  have hbar : " | ".toList = [' ', '|', ' '] := by decide
  have hend : " |\n".toList = [' ', '|', '\n'] := by decide
  rw [countRow, String.toList_append, String.toList_append, String.toList_append,
    String.toList_append, hopen, hbar, hend]
  simp [digestLine, countCells, renderCellMd]

theorem toList_offenderRow (v : Violation ρ) : (offenderRow display floats.format v).toList =
    digestLine (offenderCells display floats v) ++ ['\n'] := by
  have hopen : "| ".toList = ['|', ' '] := by decide
  have hbar : " | ".toList = [' ', '|', ' '] := by decide
  rw [offenderRow, String.toList_append, String.toList_append, String.toList_append,
    String.toList_append, String.toList_append, String.toList_append, String.toList_append,
    toList_breachCells, hopen, hbar]
  simp [digestLine, offenderCells, breachRow, renderCellMd]

end Rows

/-- The table in a text that has its heading and an empty line above it. -/
def belowHeading (text : String) : List (List Char) := (lines text.toList).drop 2

/-- A heading, an empty line, the header of a table and its dashes, then the rows. -/
structure Heading (text : String) (headers : List String) where
  title : List Char
  header : List Char
  separator : List Char
  written : text.toList = [title, [], header, separator].flatMap fun line => line ++ ['\n']
  unbroken : ∀ line ∈ [title, [], header, separator], line.all fun c => !breaksLine c
  shown : readRow header = headers.map String.toList
  counted : (readCells separator).length = headers.length
  dashes : ∀ cell ∈ readCells separator, Gfm.isDelimiter cell = true

/-- What a reader finds of a table of the digest, and when it shows the texts. -/
theorem Heading.read {ι : Type*} {text : String} {headers : List String}
    (heading : Heading text headers) {row : ι → String} {cells : ι → List Cell} {items : List ι}
    (hrow : ∀ item ∈ items, (row item).toList = digestLine (cells item) ++ ['\n'])
    (hformatted : ∀ item ∈ items, ∀ cell ∈ cells item, Formatted cell)
    (hlength : ∀ item ∈ items, (cells item).length = headers.length) :
    Shaped headers items.length (belowHeading (text ++ String.join (items.map row))) ∧
      (Shows (items.map cells) (belowHeading (text ++ String.join (items.map row))) ↔
        ∀ item ∈ items, ∀ cell ∈ cells item, Legible cell) := by
  have hrows : ∀ cells' ∈ items.map cells, ∀ cell ∈ cells', Formatted cell :=
    List.forall_mem_map.mpr hformatted
  have hbody : (items.map fun item => unpadded (cells item)).map (List.map PaddedCell.text) =
      (items.map cells).map (List.map cellSource) := by
    rw [List.map_map, List.map_map]
    exact List.map_congr_left fun item _ => map_text_unpadded _
  have htext : (text ++ String.join (items.map row)).toList =
      ([heading.title, [], heading.header, heading.separator] ++
        (items.map fun item => unpadded (cells item)).map rowLine).flatMap
          fun line => line ++ ['\n'] := by
    rw [String.toList_append, heading.written, toList_join, List.flatMap_append, List.flatMap_map,
      List.flatMap_map, List.flatMap_map]
    congr 1
    refine List.flatMap_congr fun item hitem => ?_
    rw [hrow item hitem, rowLine_unpadded (hformatted item hitem)]
  have hlines : belowHeading (text ++ String.join (items.map row)) =
      heading.header :: heading.separator ::
        (items.map fun item => unpadded (cells item)).map rowLine := by
    rw [belowHeading, htext, WorkflowCommand.lines_flatMap]
    · rfl
    · intro line hline
      rcases List.mem_append.mp hline with hline | hline
      · simpa only [List.all_eq_true, Bool.not_eq_true'] using heading.unbroken line hline
      · obtain ⟨padded, hpadded, rfl⟩ := List.mem_map.mp hline
        obtain ⟨item, hitem, rfl⟩ := List.mem_map.mp hpadded
        exact breaksLine_of_sources (hformatted item hitem) (map_text_unpadded _)
  rw [hlines]
  constructor
  · have hshaped := shaped_of_sources heading.shown heading.counted heading.dashes
      (List.forall_mem_map.mpr hlength) hbody
    rwa [List.length_map] at hshaped
  · rw [← List.forall_mem_map (P := fun row => ∀ cell ∈ row, Legible cell)]
    exact map_readRow_eq hrows hbody

def rollupHeading :
    Heading rollupHeader ["File", "Violations", "Worst metric", "Value", "Limit"] where
  title := "### Per-file rollup".toList
  header := "| File | Violations | Worst metric | Value | Limit |".toList
  separator := "|------|-----------:|--------------|------:|------:|".toList
  written := by decide +kernel
  unbroken := by decide +kernel
  shown := by decide +kernel
  counted := by decide +kernel
  dashes := by decide +kernel

def breakdownHeading : Heading breakdownHeader ["Metric", "Violations"] where
  title := "### Metric breakdown".toList
  header := "| Metric | Violations |".toList
  separator := "|--------|-----------:|".toList
  written := by decide +kernel
  unbroken := by decide +kernel
  shown := by decide +kernel
  counted := by decide +kernel
  dashes := by decide +kernel

def offendersHeading :
    Heading offendersHeader ["File", "Line", "Function", "Metric", "Value", "Limit"] where
  title := "### Top 10 offenders (by severity)".toList
  header := "| File | Line | Function | Metric | Value | Limit |".toList
  separator := "|------|-----:|----------|--------|------:|------:|".toList
  written := by decide +kernel
  unbroken := by decide +kernel
  shown := by decide +kernel
  counted := by decide +kernel
  dashes := by decide +kernel

section Digest
variable {ρ γ : Type*} [LinearOrder ρ] (display : ρ → String) (floats : FloatFormat)
  (pairs : List (Violation ρ × γ))

/-- A table of the digest, with the rows a reader should find in it. -/
structure DigestTable where
  headers : List String
  rows : List (List Cell)
  text : String

def rollupTable : DigestTable where
  headers := ["File", "Violations", "Worst metric", "Value", "Limit"]
  rows := (Violation.groupPairsByPath display pairs).map (rollupCells floats)
  text := perFileRollup display floats.format pairs

omit [LinearOrder ρ] in
def breakdownTable : DigestTable where
  headers := ["Metric", "Violations"]
  rows := (metricCounts pairs).map countCells
  text := metricBreakdown pairs

def offendersTable : DigestTable where
  headers := ["File", "Line", "Function", "Metric", "Value", "Limit"]
  rows := (shownOffenders pairs).map (offenderCells display floats)
  text := topOffendersTable display floats.format pairs

def digestTables : List DigestTable :=
  [rollupTable display floats pairs, breakdownTable pairs, offendersTable display floats pairs]

/-- The tables stand one below the other in the digest. -/
theorem digestBody_eq (h : pairs ≠ []) : digestBody display floats.format pairs =
    "**Total violations:** " ++ toString pairs.length ++ "\n\n" ++
      (rollupTable display floats pairs).text ++ "\n" ++ (breakdownTable pairs).text ++ "\n" ++
      (offendersTable display floats pairs).text := by
  rw [digestBody, if_neg (mt List.isEmpty_iff.mp h)]
  rfl

variable {display floats pairs}

theorem forall_row_iff {P : String → Prop} :
    (∀ row ∈ Violation.groupPairsByPath display pairs, P row.display) ↔
      ∀ pair ∈ pairs, P (display pair.1.path) := by
  have hexists : (∃ row ∈ Violation.groupPairsByPath display pairs, ¬ P row.display) ↔
      ∃ pair ∈ pairs, ¬ P (display pair.1.path) :=
    @exists_row_iff _ _ _ _ _ fun text => ¬ P text
  rw [← not_iff_not]
  push Not
  exact hexists

omit [LinearOrder ρ] in
theorem legible_breachRow (v : Violation ρ) : ∀ cell ∈ breachRow floats v, Legible cell := by
  intro cell hcell
  simp only [breachRow, List.mem_cons, List.not_mem_nil, or_false] at hcell
  rcases hcell with rfl | rfl | rfl <;> trivial

omit [LinearOrder ρ] in
theorem legible_rollupCells {row : Violation.RollupRow ρ} :
    (∀ cell ∈ rollupCells floats row, Legible cell) ↔ Legible (.path row.display) := by
  rw [rollupCells, List.forall_mem_cons, List.forall_mem_cons]
  exact and_iff_left ⟨trivial, legible_breachRow row.worst⟩

omit [LinearOrder ρ] in
theorem legible_offenderCells {v : Violation ρ} :
    (∀ cell ∈ offenderCells display floats v, Legible cell) ↔
      Legible (.path (display v.path)) ∧ Legible (.path v.function) := by
  rw [offenderCells, List.forall_mem_cons, List.forall_mem_cons, List.forall_mem_cons]
  exact and_congr_right fun _ =>
    ⟨fun h => h.2.1, fun h => ⟨trivial, h, legible_breachRow v⟩⟩

variable (display floats pairs)

theorem read_rollup :
    Shaped (rollupTable display floats pairs).headers (rollupTable display floats pairs).rows.length
        (belowHeading (rollupTable display floats pairs).text) ∧
      (Shows (rollupTable display floats pairs).rows
          (belowHeading (rollupTable display floats pairs).text) ↔
        ∀ pair ∈ pairs, Legible (.path (display pair.1.path))) := by
  have hread := rollupHeading.read (fun row _ => toList_rollupRow floats row)
    (fun row (_ : row ∈ Violation.groupPairsByPath display pairs) =>
      formatted_rollupCells floats row) fun _ _ => rfl
  rw [rollupTable, List.length_map]
  refine ⟨hread.1, hread.2.trans ?_⟩
  exact (forall₂_congr fun row _ => legible_rollupCells).trans
    (@forall_row_iff _ _ _ _ _ fun text => Legible (.path text))

omit [LinearOrder ρ] in
theorem read_breakdown :
    Shaped (breakdownTable pairs).headers (breakdownTable pairs).rows.length
        (belowHeading (breakdownTable pairs).text) ∧
      Shows (breakdownTable pairs).rows (belowHeading (breakdownTable pairs).text) := by
  have hformatted : ∀ row ∈ metricCounts pairs, ∀ cell ∈ countCells row, Formatted cell := by
    intro row hrow cell hcell
    obtain ⟨metric, hmetric, rfl⟩ := List.mem_map.mp ((List.mem_insertionSort _).mp hrow)
    obtain ⟨v, -, rfl⟩ := (Sequences.mem_keysOf _).mp hmetric
    rcases List.mem_pair.mp hcell with rfl | rfl
    · exact bare_metric v
    · exact bare_toString _
  have hread := breakdownHeading.read (fun row _ => toList_countRow row) hformatted fun _ _ => rfl
  rw [breakdownTable, List.length_map]
  refine ⟨hread.1, hread.2.mpr fun row _ cell hcell => ?_⟩
  rcases List.mem_pair.mp hcell with rfl | rfl <;> trivial

theorem read_offenders :
    Shaped (offendersTable display floats pairs).headers
        (offendersTable display floats pairs).rows.length
        (belowHeading (offendersTable display floats pairs).text) ∧
      (Shows (offendersTable display floats pairs).rows
          (belowHeading (offendersTable display floats pairs).text) ↔
        ∀ v ∈ shownOffenders pairs,
          Legible (.path (display v.path)) ∧ Legible (.path v.function)) := by
  have hread := offendersHeading.read (fun v _ => toList_offenderRow display floats v)
    (fun v (_ : v ∈ shownOffenders pairs) => formatted_offenderCells display floats v)
    fun _ _ => rfl
  rw [offendersTable, List.length_map]
  exact ⟨hread.1, hread.2.trans (forall₂_congr fun v _ => legible_offenderCells)⟩

/-- Every path, and the symbols of the last table. -/
structure DigestLegible : Prop where
  paths : ∀ pair ∈ pairs, Legible (.path (display pair.1.path))
  symbols : ∀ v ∈ shownOffenders pairs, Legible (.path v.function)

theorem shaped_digestTables : ∀ table ∈ digestTables display floats pairs,
    Shaped table.headers table.rows.length (belowHeading table.text) := by
  rw [digestTables, List.forall_mem_cons, List.forall_mem_cons, List.forall_mem_singleton]
  exact ⟨(read_rollup display floats pairs).1, (read_breakdown pairs).1,
    (read_offenders display floats pairs).1⟩

theorem shows_digestTables : (∀ table ∈ digestTables display floats pairs,
    Shows table.rows (belowHeading table.text)) ↔ DigestLegible display pairs := by
  rw [digestTables, List.forall_mem_cons, List.forall_mem_cons, List.forall_mem_singleton,
    (read_rollup display floats pairs).2, (read_offenders display floats pairs).2]
  constructor
  · rintro ⟨hpaths, -, hsymbols⟩
    exact ⟨hpaths, fun v hv => (hsymbols v hv).2⟩
  · rintro ⟨hpaths, hsymbols⟩
    refine ⟨hpaths, (read_breakdown pairs).2, fun v hv => ⟨?_, hsymbols v hv⟩⟩
    obtain ⟨pair, hpair, rfl⟩ := exists_pair_of_shown hv
    exact hpaths pair hpair

end Digest

/-! ### All tables -/

/-- A table of the report that is read as it was meant. -/
def Table.Reads (table : Table) : Prop :=
  ∃ text, table.write = some text ∧ ReadsAs table.headers table.rows (lines text)

def DigestReads {ρ γ : Type*} [LinearOrder ρ] (display : ρ → String) (floats : FloatFormat)
    (pairs : List (Violation ρ × γ)) : Prop :=
  ∀ table ∈ digestTables display floats pairs,
    ReadsAs table.headers table.rows (belowHeading table.text)

theorem Table.reads_iff (table : Table) :
    table.Reads ↔ ∀ row ∈ table.rows, ∀ cell ∈ row, Legible cell := by
  obtain ⟨text, hwrite, hshaped, hshows⟩ := table.read
  rw [← hshows]
  constructor
  · rintro ⟨written, hwritten, hreads⟩
    obtain rfl : text = written := Option.some.inj (hwrite.symm.trans hwritten)
    exact hreads.2
  · exact fun h => ⟨text, hwrite, hshaped, h⟩

theorem digestReads_iff {ρ γ : Type*} [LinearOrder ρ] (display : ρ → String)
    (floats : FloatFormat) (pairs : List (Violation ρ × γ)) :
    DigestReads display floats pairs ↔ DigestLegible display pairs := by
  rw [← shows_digestTables display floats pairs]
  exact ⟨fun h table htable => (h table htable).2,
    fun h table htable => ⟨shaped_digestTables display floats pairs table htable, h table htable⟩⟩

/-- However its texts read, a table is written, one line a row and as wide everywhere as its
header; so is that of each section of the report. -/
theorem tables_shaped {ρ γ : Type*} [LinearOrder ρ] (display : ρ → String) (floats : FloatFormat)
    (table : Table) (pairs : List (Violation ρ × γ)) :
    (∃ text, table.write = some text ∧ Shaped table.headers table.rows.length (lines text)) ∧
      (∀ digest ∈ digestTables display floats pairs,
        Shaped digest.headers digest.rows.length (belowHeading digest.text)) ∧
      ∀ (numbers : BareNumbers) (align : Column → Align), ∀ spec ∈ specs,
        ∀ rows : List FunctionSummary, ∃ text,
          writeTable (spec.columns.map Column.header) (spec.columns.map align)
            (rows.map fun s => (sectionRow numbers.format spec s).map renderCellMd) = some text ∧
          Shaped (spec.columns.map Column.header) rows.length (lines text) := by
  obtain ⟨text, hwrite, hshaped, -⟩ := table.read
  refine ⟨⟨text, hwrite, hshaped⟩, shaped_digestTables display floats pairs, ?_⟩
  intro numbers align spec hspec rows
  obtain ⟨text, hwrite, hshaped, -⟩ := (sectionTable numbers align hspec rows).read
  refine ⟨text, ?_, ?_⟩
  · rw [Table.write, sectionTable, List.map_map] at hwrite
    exact hwrite
  · rwa [sectionTable, List.length_map] at hshaped

/-- A reader is shown every text exactly if no name is empty or has spaces at both ends, and no
path and no symbol of the digest has blanks at an end, a code span or raw HTML. -/
theorem tables_read_iff {ρ γ : Type*} [LinearOrder ρ] (display : ρ → String)
    (floats : FloatFormat) (table : Table) (pairs : List (Violation ρ × γ)) :
    table.Reads ∧ DigestReads display floats pairs ↔
      (∀ row ∈ table.rows, ∀ cell ∈ row, Legible cell) ∧ DigestLegible display pairs :=
  and_congr table.reads_iff (digestReads_iff display floats pairs)

/-! ### A symbol that is not shown -/

def wholeFloats : FloatFormat where
  format _ v :=
    match v with
    | .finite value => toString value.num.natAbs
    | _ => "0"
  bare _ v := by
    cases v with
    | finite value => exact bare_toString _
    | infinite negative => exact bare_toString 0
    | nan => exact bare_toString 0

/-- A file twice as long as it may be; its symbol is the one of every file. -/
def longFile : Violation String :=
  Violation.twiceOver (Violation.gatedAtTen ⟨"loc.sloc", "loc", .higherIsWorse, .file, .ratio⟩
    (by decide)) "<file>" 1

/-- The section on exits, written with whole numbers. -/
theorem tables_shaped_exitPoints :
    let headers := Hotspot.exitPoints.columns.map Column.header
    ∀ rows : List FunctionSummary, ∃ text,
      writeTable headers (Hotspot.exitPoints.columns.map fun _ => .right)
        (rows.map fun s => (sectionRow wholeNumbers.format Hotspot.exitPoints s).map renderCellMd) =
          some text ∧
      Shaped headers rows.length (lines text) := by
  have hspec : Hotspot.exitPoints ∈ specs := by simp [specs]
  obtain ⟨-, -, hsections⟩ := tables_shaped (fun path => path) wholeFloats
    (sectionTable wholeNumbers (fun _ => .left) hspec []) [(longFile, ())]
  exact hsections wholeNumbers (fun _ => .right) Hotspot.exitPoints hspec

/-- The symbol of a file is raw HTML to a reader, who shows nothing in its cell. -/
theorem file_symbol_not_shown : ¬ DigestReads (fun path => path) wholeFloats [(longFile, ())] := by
  rw [digestReads_iff]
  intro h
  have hlegible := h.symbols longFile (List.mem_singleton_self _)
  have hraw := hlegible.2.raw "file>".toList (List.suffix_rfl)
  exact absurd hraw (by decide)

end BigCodeAnalysis.Output.Markdown
