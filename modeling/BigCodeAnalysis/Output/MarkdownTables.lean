import BigCodeAnalysis.Metrics.LineSet
import BigCodeAnalysis.Output.GfmCells
import BigCodeAnalysis.Output.Hotspots
import BigCodeAnalysis.Output.OffenderRecord
import BigCodeAnalysis.Output.StepSummary
import BigCodeAnalysis.Output.WorkflowCommands

/-! The Markdown tables of the report and of the digest, and what a GFM reader finds in them: every
cell in its place, with its text where that is legible. -/

namespace BigCodeAnalysis.Output.Markdown

open Gfm (PaddedCell backtick double guardPipes readCells readRow rowLine trim)
open Hotspot (Cell Column FunctionSummary HotspotSpec NumberFormat specs)
open Metrics (checkedSub)
open WorkflowCommand (breaksLine lines)

/-! ### The writer -/

def escapeNameChar (ch : Char) : List Char :=
  if ch = backtick then [Char.ofNat 0x2CB]
  else if ch = '|' then ['\\', '|']
  else if breaksLine ch then [' ']
  else [ch]

/-- A name in a code span. -/
def escapeName (s : String) : String :=
  String.ofList (backtick :: (s.toList.flatMap escapeNameChar ++ [backtick]))

def renderCellMd : Cell → String
  | .name s => escapeName s
  | .path s => escapeGfmCell s
  | .num s => s

inductive Align where
  | left
  | right
  deriving DecidableEq, Repr

/-- The characters of the longest first cell; a row without one stops the program. -/
def cellWidth : List (List String) → Option ℕ
  | [] => some 0
  | row :: rows => do
    let cell ← row.head?
    let width ← cellWidth rows
    some (max cell.length width)

def columnWidths : List String → List (List String) → Option (List ℕ)
  | [], _ => some []
  | header :: headers, rows => do
    let width ← cellWidth rows
    let widths ← columnWidths headers (rows.map List.tail)
    some (max (max header.length width) 3 :: widths)

def spaces (n : ℕ) : List Char := List.replicate n ' '

def pushCell (cell : String) (width : ℕ) (align : Align) : Option (List Char) := do
  let pad ← checkedSub width cell.length
  some (' ' :: (match align with
    | .left => cell.toList ++ spaces pad
    | .right => spaces pad ++ cell.toList) ++ [' '])

def pushSeparator (align : Align) (width : ℕ) : Option (List Char) := do
  let dashes ← (match align with
    | .left => some (List.replicate width '-')
    | .right => (checkedSub width 1).map fun n => List.replicate n '-' ++ [':'])
  some (' ' :: dashes ++ [' ', '|'])

/-- The cells of a row, each with the width and the side of its column. -/
def pushRow : List String → List ℕ → List Align → Option (List Char)
  | [], _, _ => some []
  | cell :: cells, width :: widths, align :: aligns => do
    let written ← pushCell cell width align
    let rest ← pushRow cells widths aligns
    some (written ++ '|' :: rest)
  | _ :: _, _, _ => none

def pushSeparators : List Align → List ℕ → Option (List Char)
  | [], _ => some []
  | align :: aligns, width :: widths => do
    let written ← pushSeparator align width
    let rest ← pushSeparators aligns widths
    some (written ++ rest)
  | _ :: _, [] => none

/-- A line of a table with its line feed. -/
def tableLine (cells : List Char) : List Char := '|' :: cells ++ ['\n']

def writeTable (headers : List String) (aligns : List Align) (rows : List (List String)) :
    Option (List Char) := do
  let widths ← columnWidths headers rows
  let header ← pushRow headers widths aligns
  let separator ← pushSeparators aligns widths
  let body ← rows.mapM fun row => pushRow row widths aligns
  some (tableLine header ++ tableLine separator ++ body.flatMap tableLine)

/-! ### Tables -/

def isBare (c : Char) : Bool :=
  c ≠ '|' && c ≠ '\\' && c ≠ backtick && c ≠ '<' && !breaksLine c

/-- Text that every writer puts down as it is. -/
structure Bare (s : String) : Prop where
  chars : ∀ c ∈ s.toList, isBare c = true
  edges : trim s.toList = s.toList

/-- Numbers come formatted. -/
def Formatted : Cell → Prop
  | .num s => Bare s
  | _ => True

/-- A table of the report, as wide in each row as in its header. -/
structure Table where
  headers : List String
  aligns : List Align
  rows : List (List Cell)
  aligns_length : aligns.length = headers.length
  rows_length : ∀ row ∈ rows, row.length = headers.length
  headers_bare : ∀ header ∈ headers, Bare header
  cells_formatted : ∀ row ∈ rows, ∀ cell ∈ row, Formatted cell

def Table.write (table : Table) : Option (List Char) :=
  writeTable table.headers table.aligns (table.rows.map fun row => row.map renderCellMd)

/-! ### What a cell should show -/

def spaceForBreak (c : Char) : Char := if breaksLine c then ' ' else c

/-- A text on one line. -/
def flat (s : String) : List Char := s.toList.map spaceForBreak

def nameChar (c : Char) : Char := if c = backtick then Char.ofNat 0x2CB else spaceForBreak c

def nameText (s : String) : List Char := s.toList.map nameChar

def cellText : Cell → List Char
  | .name s => nameText s
  | .path s => flat s
  | .num s => s.toList

/-- The inline text behind a cell, once its pipes have lost their backslashes. -/
def cellSource : Cell → List Char
  | .name s => backtick :: (nameText s ++ [backtick])
  | .path s => double (flat s)
  | .num s => s.toList

/-- The cells a reader shows exactly. -/
def Legible : Cell → Prop
  | .name s => Gfm.SpanExact (nameText s)
  | .path s => trim (flat s) = flat s ∧ Gfm.Inert (flat s)
  | .num _ => True

/-! ### Cells -/

theorem guardPipes_of_bare {text : List Char} (h : ∀ c ∈ text, c ≠ '|') :
    guardPipes text = text := by
  induction text with
  | nil => rfl
  | cons c text ih =>
    rw [Gfm.guardPipes_cons, Gfm.guardChar, if_neg (h c List.mem_cons_self),
      ih fun d hd => h d (List.mem_cons_of_mem _ hd)]
    rfl

theorem double_of_bare {text : List Char} (h : ∀ c ∈ text, c ≠ '\\') : double text = text := by
  induction text with
  | nil => rfl
  | cons c text ih =>
    rw [Gfm.double_cons_of_ne (h c List.mem_cons_self),
      ih fun d hd => h d (List.mem_cons_of_mem _ hd)]

theorem isBare_iff {c : Char} : isBare c = true ↔
    c ≠ '|' ∧ c ≠ '\\' ∧ c ≠ backtick ∧ c ≠ '<' ∧ breaksLine c = false := by
  simp [isBare, and_assoc]

theorem inert_of_bare {text : List Char} (h : ∀ c ∈ text, isBare c = true) : Gfm.Inert text := by
  induction text with
  | nil => exact Gfm.inert_nil
  | cons c text ih =>
    have hc := isBare_iff.mp (h c List.mem_cons_self)
    exact (Gfm.inert_cons_of_ne hc.2.2.1 hc.2.2.2.1).mpr
      (ih fun d hd => h d (List.mem_cons_of_mem _ hd))

/-- Bare text is read as it is. -/
theorem display_bare {s : String} (h : Bare s) : Gfm.display (trim s.toList) = s.toList := by
  have hshown := (Gfm.display_double s.toList).mpr ⟨h.edges, inert_of_bare h.chars⟩
  rwa [double_of_bare fun c hc => (isBare_iff.mp (h.chars c hc)).2.1] at hshown

theorem guardPipes_singleton (c : Char) : guardPipes [c] = Gfm.guardChar c :=
  List.append_nil _

theorem breaksLine_eq_true {c : Char} : breaksLine c = true ↔ c = '\n' ∨ c = '\r' := by
  simp [breaksLine]

theorem escapeGfmChar_eq (c : Char) :
    escapeGfmChar c = guardPipes (Gfm.doubleChar (spaceForBreak c)) := by
  by_cases hbreak : breaksLine c = true
  · rcases breaksLine_eq_true.mp hbreak with rfl | rfl <;> rfl
  · rw [spaceForBreak, if_neg hbreak, Gfm.doubleChar]
    rw [breaksLine_eq_true, not_or] at hbreak
    by_cases hslash : c = '\\'
    · subst hslash
      rfl
    · by_cases hpipe : c = '|'
      · subst hpipe
        rfl
      · rw [if_neg hslash, guardPipes_singleton, Gfm.guardChar, if_neg hpipe]
        exact escapeGfmChar.eq_5 c hslash hpipe hbreak.1 hbreak.2

theorem toList_escapeGfmCell (s : String) :
    (escapeGfmCell s).toList = guardPipes (double (flat s)) := by
  rw [escapeGfmCell, String.toList_ofList, guardPipes, double, flat, List.flatMap_map,
    List.flatMap_assoc]
  exact List.flatMap_congr fun c _ => escapeGfmChar_eq c

theorem escapeNameChar_eq (c : Char) : escapeNameChar c = Gfm.guardChar (nameChar c) := by
  rw [escapeNameChar, nameChar, spaceForBreak]
  split_ifs with htick hpipe hbreak hbreak
  · rfl
  · rw [hpipe] at hbreak
    exact absurd hbreak (by decide)
  · rw [Gfm.guardChar, if_pos hpipe]
  · rfl
  · rw [Gfm.guardChar, if_neg hpipe]

theorem toList_escapeName (s : String) :
    (escapeName s).toList = guardPipes (backtick :: (nameText s ++ [backtick])) := by
  have hbody : s.toList.flatMap escapeNameChar = guardPipes (nameText s) := by
    rw [nameText, guardPipes, List.flatMap_map]
    exact List.flatMap_congr fun c _ => escapeNameChar_eq c
  rw [escapeName, String.toList_ofList, Gfm.guardPipes_cons, Gfm.guardPipes_append, hbody]
  rfl

theorem toList_renderCellMd {cell : Cell} (h : Formatted cell) :
    (renderCellMd cell).toList = guardPipes (cellSource cell) := by
  cases cell with
  | name s => exact toList_escapeName s
  | path s => exact toList_escapeGfmCell s
  | num s => exact (guardPipes_of_bare fun c hc => (isBare_iff.mp (h.chars c hc)).1).symm

theorem backtick_not_mem_nameText (s : String) : backtick ∉ nameText s := by
  intro hmem
  obtain ⟨c, -, hc⟩ := List.mem_map.mp hmem
  rw [nameChar, spaceForBreak] at hc
  split_ifs at hc with htick
  · exact absurd hc (by decide)
  · exact absurd hc (by decide)
  · exact htick hc

/-- A reader shows what the cell says exactly if it is legible. -/
theorem display_cellSource {cell : Cell} (h : Formatted cell) :
    Gfm.display (trim (cellSource cell)) = cellText cell ↔ Legible cell := by
  cases cell with
  | name s => exact Gfm.display_span (backtick_not_mem_nameText s)
  | path s => exact Gfm.display_double (flat s)
  | num s => exact iff_of_true (display_bare h) trivial

/-! ### Widths -/

theorem cellWidth_eq {rows : List (List String)} (h : ∀ row ∈ rows, row ≠ []) :
    ∃ width, cellWidth rows = some width ∧
      ∀ row ∈ rows, ∀ cell ∈ row.head?, cell.length ≤ width := by
  induction rows with
  | nil => exact ⟨0, rfl, fun _ hrow => absurd hrow List.not_mem_nil⟩
  | cons row rows ih =>
    obtain ⟨width, hwidth, hle⟩ := ih fun r hr => h r (List.mem_cons_of_mem _ hr)
    obtain ⟨cell, cells, rfl⟩ := List.exists_cons_of_ne_nil (h row List.mem_cons_self)
    refine ⟨max cell.length width, ?_, fun r hr c hc => ?_⟩
    · rw [cellWidth, hwidth]
      rfl
    · rcases List.mem_cons.mp hr with rfl | hr
      · obtain rfl : cell = c := Option.some.inj hc
        exact le_max_left _ _
      · exact (hle r hr c hc).trans (le_max_right _ _)

/-- What `push_cell` relies on: a column is as wide as each of its cells, its header included, and
at least three wide. -/
structure Fits (headers : List String) (rows : List (List String)) (widths : List ℕ) : Prop where
  headers : List.Forall₂ (fun header width => header.length ≤ width) headers widths
  rows : ∀ row ∈ rows, List.Forall₂ (fun cell width => cell.length ≤ width) row widths
  wide : ∀ width ∈ widths, 3 ≤ width

theorem columnWidths_fits {headers : List String} {rows : List (List String)}
    (h : ∀ row ∈ rows, row.length = headers.length) :
    ∃ widths, columnWidths headers rows = some widths ∧ Fits headers rows widths := by
  induction headers generalizing rows with
  | nil =>
    refine ⟨[], rfl, ⟨.nil, fun row hrow => ?_, fun _ hw => absurd hw List.not_mem_nil⟩⟩
    rw [List.length_eq_zero_iff.mp (h row hrow)]
    exact .nil
  | cons header headers ih =>
    have hne : ∀ row ∈ rows, row ≠ [] := fun row hrow heq => by
      have hlong := h row hrow
      rw [heq] at hlong
      cases hlong
    obtain ⟨width, hwidth, hcells⟩ := cellWidth_eq hne
    have htails : ∀ row ∈ rows.map List.tail, row.length = headers.length := fun row hrow => by
      obtain ⟨r, hr, rfl⟩ := List.mem_map.mp hrow
      rw [List.length_tail, h r hr]
      rfl
    obtain ⟨widths, hwidths, hfits⟩ := ih htails
    refine ⟨max (max header.length width) 3 :: widths, ?_, ⟨?_, fun row hrow => ?_, ?_⟩⟩
    · rw [columnWidths, hwidth, hwidths]
      rfl
    · exact .cons ((le_max_left _ _).trans (le_max_left _ _)) hfits.headers
    · have htail := hfits.rows row.tail (List.mem_map_of_mem hrow)
      have hhead := hcells row hrow
      obtain ⟨cell, cells, rfl⟩ := List.exists_cons_of_ne_nil (hne row hrow)
      exact .cons ((hhead cell rfl).trans ((le_max_right _ _).trans (le_max_left _ _))) htail
    · intro w hw
      rcases List.mem_cons.mp hw with rfl | hw
      · exact le_max_right _ _
      · exact hfits.wide w hw

/-! ### Rows -/

def flatRow (cells : List PaddedCell) : List Char :=
  cells.flatMap fun cell => cell.written ++ ['|']

theorem tableLine_flatRow (cells : List PaddedCell) :
    tableLine (flatRow cells) = rowLine cells ++ ['\n'] := rfl

/-- The padding of a cell that fits its column does not underflow. -/
theorem pushCell_eq {cell : Cell} (h : Formatted cell) {width : ℕ}
    (hwidth : (renderCellMd cell).length ≤ width) (align : Align) :
    ∃ padded : PaddedCell, pushCell (renderCellMd cell) width align = some padded.written ∧
      padded.text = cellSource cell := by
  have hpad : checkedSub width (renderCellMd cell).length =
      some (width - (renderCellMd cell).length) := if_pos hwidth
  rw [pushCell, hpad, toList_renderCellMd h]
  cases align with
  | left =>
    refine ⟨⟨cellSource cell, 0, width - (renderCellMd cell).length⟩, congrArg some ?_, rfl⟩
    rw [PaddedCell.written, List.replicate_succ' (n := width - _)]
    simp [spaces]
  | right =>
    refine ⟨⟨cellSource cell, width - (renderCellMd cell).length, 0⟩, congrArg some ?_, rfl⟩
    rw [PaddedCell.written, List.replicate_succ (n := width - _)]
    simp [spaces]

theorem pushRow_eq {cells : List Cell} {widths : List ℕ} {aligns : List Align}
    (h : ∀ cell ∈ cells, Formatted cell)
    (hwidths : List.Forall₂ (fun cell width => cell.length ≤ width) (cells.map renderCellMd) widths)
    (haligns : aligns.length = cells.length) :
    ∃ padded : List PaddedCell, pushRow (cells.map renderCellMd) widths aligns =
      some (flatRow padded) ∧ padded.map PaddedCell.text = cells.map cellSource := by
  induction cells generalizing widths aligns with
  | nil => exact ⟨[], rfl, rfl⟩
  | cons cell cells ih =>
    obtain ⟨width, widths, hfirst, hrest, rfl⟩ := List.forall₂_cons_left_iff.mp hwidths
    obtain ⟨align, aligns, rfl⟩ := List.exists_cons_of_length_eq_add_one haligns
    obtain ⟨head, hhead, htext⟩ := pushCell_eq (h cell List.mem_cons_self) hfirst align
    obtain ⟨padded, htail, htexts⟩ := ih (fun c hc => h c (List.mem_cons_of_mem _ hc)) hrest
      (Nat.succ.inj haligns)
    refine ⟨head :: padded, ?_, ?_⟩
    · rw [List.map_cons, pushRow, hhead, htail]
      simp [flatRow]
    · rw [List.map_cons, List.map_cons, htext, htexts]

/-- The rows of a body, each of them one line. -/
theorem pushRows_eq {rows : List (List Cell)} {widths : List ℕ} {aligns : List Align}
    (h : ∀ row ∈ rows, ∀ cell ∈ row, Formatted cell)
    (hwidths : ∀ row ∈ rows,
      List.Forall₂ (fun cell width => cell.length ≤ width) (row.map renderCellMd) widths)
    (haligns : ∀ row ∈ rows, aligns.length = row.length) :
    ∃ padded : List (List PaddedCell),
      ((rows.map fun row => row.map renderCellMd).mapM fun row => pushRow row widths aligns) =
        some (padded.map flatRow) ∧
      padded.map (List.map PaddedCell.text) = rows.map (List.map cellSource) := by
  induction rows with
  | nil => exact ⟨[], rfl, rfl⟩
  | cons row rows ih =>
    obtain ⟨first, hfirst, htext⟩ := pushRow_eq (h row List.mem_cons_self)
      (hwidths row List.mem_cons_self) (haligns row List.mem_cons_self)
    obtain ⟨padded, hrest, htexts⟩ := ih (fun r hr => h r (List.mem_cons_of_mem _ hr))
      (fun r hr => hwidths r (List.mem_cons_of_mem _ hr))
      fun r hr => haligns r (List.mem_cons_of_mem _ hr)
    refine ⟨first :: padded, ?_, ?_⟩
    · rw [List.map_cons, List.mapM_cons, hfirst, hrest]
      rfl
    · rw [List.map_cons, List.map_cons, htext, htexts]

/-! ### Separators -/

theorem pushSeparator_eq (align : Align) {width : ℕ} (h : 3 ≤ width) :
    ∃ dashes, pushSeparator align width = some (' ' :: dashes ++ [' ', '|']) ∧
      Gfm.isDelimiter dashes = true ∧ ∀ c ∈ dashes, c = '-' ∨ c = ':' := by
  obtain ⟨n, rfl⟩ := Nat.exists_eq_add_of_le' h
  cases align with
  | left =>
    exact ⟨List.replicate (n + 3) '-', rfl, Gfm.isDelimiter_replicate (n + 2),
      fun c hc => .inl (List.eq_of_mem_replicate hc)⟩
  | right =>
    refine ⟨List.replicate (n + 2) '-' ++ [':'], rfl, Gfm.isDelimiter_replicate_colon (n + 1),
      fun c hc => ?_⟩
    rcases List.mem_append.mp hc with hc | hc
    · exact .inl (List.eq_of_mem_replicate hc)
    · exact .inr (List.mem_singleton.mp hc)

/-- The line below the header, one cell of dashes a column. -/
theorem pushSeparators_eq {aligns : List Align} {widths : List ℕ}
    (hlength : aligns.length = widths.length) (h : ∀ width ∈ widths, 3 ≤ width) :
    ∃ padded : List PaddedCell, pushSeparators aligns widths = some (flatRow padded) ∧
      padded.length = aligns.length ∧ ∀ cell ∈ padded,
        Gfm.isDelimiter cell.text = true ∧ ∀ c ∈ cell.text, c = '-' ∨ c = ':' := by
  induction aligns generalizing widths with
  | nil => exact ⟨[], rfl, rfl, fun _ hcell => absurd hcell List.not_mem_nil⟩
  | cons align aligns ih =>
    obtain ⟨width, widths, rfl⟩ := List.exists_cons_of_length_eq_add_one hlength.symm
    obtain ⟨dashes, hdashes, hdelimiter, hchars⟩ :=
      pushSeparator_eq align (h width List.mem_cons_self)
    obtain ⟨padded, hrest, hcount, hall⟩ := ih (Nat.succ.inj hlength)
      fun w hw => h w (List.mem_cons_of_mem _ hw)
    have hguard : guardPipes dashes = dashes := guardPipes_of_bare fun c hc heq => by
      rcases hchars c hc with hc | hc
      · exact absurd (hc.symm.trans heq) (by decide)
      · exact absurd (hc.symm.trans heq) (by decide)
    refine ⟨⟨dashes, 0, 0⟩ :: padded, ?_, congrArg Nat.succ hcount, fun cell hcell => ?_⟩
    · rw [pushSeparators, hdashes, hrest]
      simp [flatRow, PaddedCell.written, hguard]
    · rcases List.mem_cons.mp hcell with rfl | hcell
      · exact ⟨hdelimiter, hchars⟩
      · exact hall cell hcell

/-! ### Lines -/

theorem breaksLine_guardPipes {text : List Char} (h : ∀ c ∈ text, breaksLine c = false) :
    ∀ c ∈ guardPipes text, breaksLine c = false := by
  intro c hc
  obtain ⟨d, hd, hc⟩ := List.mem_flatMap.mp hc
  rw [Gfm.guardChar] at hc
  split_ifs at hc
  · rcases List.mem_pair.mp hc with rfl | rfl <;> rfl
  · rw [List.mem_singleton.mp hc]
    exact h d hd

theorem breaksLine_written {cell : PaddedCell} (h : ∀ c ∈ cell.text, breaksLine c = false) :
    ∀ c ∈ cell.written, breaksLine c = false := by
  intro c hc
  rw [PaddedCell.written, List.mem_append, List.mem_append] at hc
  rcases hc with (hc | hc) | hc
  · rw [List.eq_of_mem_replicate hc]
    rfl
  · exact breaksLine_guardPipes h c hc
  · rw [List.eq_of_mem_replicate hc]
    rfl

theorem breaksLine_rowLine {cells : List PaddedCell}
    (h : ∀ cell ∈ cells, ∀ c ∈ cell.text, breaksLine c = false) :
    ∀ c ∈ rowLine cells, breaksLine c = false := by
  intro c hc
  rcases List.mem_cons.mp hc with rfl | hc
  · rfl
  · obtain ⟨cell, hcell, hc⟩ := List.mem_flatMap.mp hc
    rcases List.mem_append.mp hc with hc | hc
    · exact breaksLine_written (h cell hcell) c hc
    · rw [List.mem_singleton.mp hc]
      rfl

theorem breaksLine_spaceForBreak (c : Char) : breaksLine (spaceForBreak c) = false := by
  rw [spaceForBreak]
  split_ifs with h
  · rfl
  · exact Bool.eq_false_iff.mpr h

theorem breaksLine_flat (s : String) : ∀ c ∈ flat s, breaksLine c = false := by
  intro c hc
  obtain ⟨d, -, rfl⟩ := List.mem_map.mp hc
  exact breaksLine_spaceForBreak d

theorem breaksLine_double {text : List Char} (h : ∀ c ∈ text, breaksLine c = false) :
    ∀ c ∈ double text, breaksLine c = false := by
  intro c hc
  obtain ⟨d, hd, hc⟩ := List.mem_flatMap.mp hc
  rw [Gfm.doubleChar] at hc
  split_ifs at hc
  · rcases List.mem_pair.mp hc with rfl | rfl <;> rfl
  · rw [List.mem_singleton.mp hc]
    exact h d hd

theorem breaksLine_nameText (s : String) : ∀ c ∈ nameText s, breaksLine c = false := by
  intro c hc
  obtain ⟨d, -, rfl⟩ := List.mem_map.mp hc
  rw [nameChar]
  split_ifs
  · rfl
  · exact breaksLine_spaceForBreak d

theorem breaksLine_cellSource {cell : Cell} (h : Formatted cell) :
    ∀ c ∈ cellSource cell, breaksLine c = false := by
  cases cell with
  | name s =>
    intro c hc
    rcases List.mem_cons.mp hc with rfl | hc
    · rfl
    · rcases List.mem_append.mp hc with hc | hc
      · exact breaksLine_nameText s c hc
      · rw [List.mem_singleton.mp hc]
        rfl
  | path s => exact breaksLine_double (breaksLine_flat s)
  | num s => exact fun c hc => (isBare_iff.mp (h.chars c hc)).2.2.2.2

/-! ### Readings -/

/-- A table with `count` rows below its header, all of them as wide. -/
def Shaped (headers : List String) (count : ℕ) (text : List (List Char)) : Prop :=
  ∃ header separator body, text = header :: separator :: body ∧
    readRow header = headers.map String.toList ∧
    (readCells separator).length = headers.length ∧
    (∀ cell ∈ readCells separator, Gfm.isDelimiter cell = true) ∧
    body.length = count ∧ ∀ line ∈ body, (readCells line).length = headers.length

/-- The rows of a table show the texts of the cells. -/
def Shows (rows : List (List Cell)) (text : List (List Char)) : Prop :=
  (text.drop 2).map readRow = rows.map (List.map cellText)

/-- A table that is read as it was meant. -/
def ReadsAs (headers : List String) (rows : List (List Cell)) (text : List (List Char)) : Prop :=
  Shaped headers rows.length text ∧ Shows rows text

theorem readRow_rowLine {cells : List PaddedCell} {sources : List (List Char)}
    (h : cells.map PaddedCell.text = sources) :
    readRow (rowLine cells) = sources.map fun source => Gfm.display (trim source) := by
  rw [readRow, Gfm.readCells_rowLine, ← h, List.map_map, List.map_map]
  rfl

theorem length_readCells_rowLine (cells : List PaddedCell) :
    (readCells (rowLine cells)).length = cells.length := by
  rw [Gfm.readCells_rowLine, List.length_map]

/-- Written rows show their cells exactly if these are legible. -/
theorem map_readRow_eq {rows : List (List Cell)} {body : List (List PaddedCell)}
    (hformatted : ∀ row ∈ rows, ∀ cell ∈ row, Formatted cell)
    (h : body.map (List.map PaddedCell.text) = rows.map (List.map cellSource)) :
    (body.map rowLine).map readRow = rows.map (List.map cellText) ↔
      ∀ row ∈ rows, ∀ cell ∈ row, Legible cell := by
  have hread : (body.map rowLine).map readRow =
      rows.map (List.map fun cell => Gfm.display (trim (cellSource cell))) := by
    have hbody : (body.map rowLine).map readRow = (body.map (List.map PaddedCell.text)).map
        (List.map fun source => Gfm.display (trim source)) := by
      rw [List.map_map, List.map_map]
      exact List.map_congr_left fun cells _ => readRow_rowLine rfl
    rw [hbody, h, List.map_map]
    exact List.map_congr_left fun row _ => List.map_map
  rw [hread, List.map_inj_left]
  refine forall₂_congr fun row hrow => ?_
  rw [List.map_inj_left]
  exact forall₂_congr fun cell hcell => display_cellSource (hformatted row hrow cell hcell)

theorem breaksLine_of_sources {cells : List PaddedCell} {row : List Cell}
    (hformatted : ∀ cell ∈ row, Formatted cell)
    (h : cells.map PaddedCell.text = row.map cellSource) :
    ∀ c ∈ rowLine cells, breaksLine c = false := by
  refine breaksLine_rowLine fun cell hcell => ?_
  obtain ⟨source, hsource, heq⟩ :=
    List.mem_map.mp (h ▸ List.mem_map_of_mem hcell : cell.text ∈ row.map cellSource)
  rw [← heq]
  exact breaksLine_cellSource (hformatted source hsource)

theorem length_eq_of_sources {rows : List (List Cell)} {body : List (List PaddedCell)}
    (h : body.map (List.map PaddedCell.text) = rows.map (List.map cellSource)) :
    body.length = rows.length := by
  have hlength := congrArg List.length h
  rwa [List.length_map, List.length_map] at hlength

theorem length_mem_of_sources {rows : List (List Cell)} {body : List (List PaddedCell)}
    {count : ℕ} (h : body.map (List.map PaddedCell.text) = rows.map (List.map cellSource))
    (hrows : ∀ row ∈ rows, row.length = count) {cells : List PaddedCell} (hcells : cells ∈ body) :
    ∃ row ∈ rows, cells.map PaddedCell.text = row.map cellSource ∧ cells.length = count := by
  have hmem : cells.map PaddedCell.text ∈ rows.map (List.map cellSource) :=
    h ▸ List.mem_map_of_mem hcells
  obtain ⟨row, hrow, heq⟩ := List.mem_map.mp hmem
  have hlength := congrArg List.length heq
  rw [List.length_map, List.length_map] at hlength
  exact ⟨row, hrow, heq.symm, hlength.symm.trans (hrows row hrow)⟩

theorem shaped_of_sources {headers : List String} {header separator : List Char}
    {rows : List (List Cell)} {body : List (List PaddedCell)}
    (hheader : readRow header = headers.map String.toList)
    (hseparator : (readCells separator).length = headers.length)
    (hdashes : ∀ cell ∈ readCells separator, Gfm.isDelimiter cell = true)
    (hrows : ∀ row ∈ rows, row.length = headers.length)
    (hbody : body.map (List.map PaddedCell.text) = rows.map (List.map cellSource)) :
    Shaped headers rows.length (header :: separator :: body.map rowLine) := by
  refine ⟨header, separator, body.map rowLine, rfl, hheader, hseparator, hdashes, ?_, ?_⟩
  · rw [List.length_map, length_eq_of_sources hbody]
  · intro line hline
    obtain ⟨cells, hcells, rfl⟩ := List.mem_map.mp hline
    obtain ⟨-, -, -, hcount⟩ := length_mem_of_sources hbody hrows hcells
    rw [length_readCells_rowLine, hcount]

/-! ### The report -/

/-- The lines of a written table. -/
structure TableLines where
  header : List PaddedCell
  separator : List PaddedCell
  body : List (List PaddedCell)

namespace TableLines

def all (self : TableLines) : List (List Char) :=
  rowLine self.header :: rowLine self.separator :: self.body.map rowLine

structure Represents (written : TableLines) (headers : List String) (rows : List (List Cell)) :
    Prop where
  header : written.header.map PaddedCell.text = headers.map String.toList
  separator : written.separator.length = headers.length
  dashes : ∀ cell ∈ written.separator,
    Gfm.isDelimiter cell.text = true ∧ ∀ c ∈ cell.text, c = '-' ∨ c = ':'
  body : written.body.map (List.map PaddedCell.text) = rows.map (List.map cellSource)

end TableLines

/-- A table of the report is written, one line a row. -/
theorem Table.write_eq (table : Table) : ∃ written : TableLines,
    table.write = some (written.all.flatMap fun line => line ++ ['\n']) ∧
      written.Represents table.headers table.rows := by
  have hlength : ∀ row ∈ table.rows.map fun row => row.map renderCellMd,
      row.length = table.headers.length := fun row hrow => by
    obtain ⟨r, hr, rfl⟩ := List.mem_map.mp hrow
    rw [List.length_map, table.rows_length r hr]
  obtain ⟨widths, hwidths, hfits⟩ := columnWidths_fits hlength
  have hrender : (table.headers.map Cell.num).map renderCellMd = table.headers := by
    rw [List.map_map]
    exact List.map_id _
  have hbare : ∀ cell ∈ table.headers.map Cell.num, Formatted cell := fun cell hcell => by
    obtain ⟨header, hmem, rfl⟩ := List.mem_map.mp hcell
    exact table.headers_bare header hmem
  obtain ⟨header, hheader, htext⟩ := pushRow_eq hbare (hrender.symm ▸ hfits.headers)
    (table.aligns_length.trans (List.length_map _).symm)
  obtain ⟨separator, hseparator, hcount, hdashes⟩ := pushSeparators_eq
    (table.aligns_length.trans hfits.headers.length_eq) hfits.wide
  obtain ⟨body, hbody, htexts⟩ := pushRows_eq table.cells_formatted
    (fun row hrow => hfits.rows _ (List.mem_map_of_mem hrow))
    fun row hrow => table.aligns_length.trans (table.rows_length row hrow).symm
  refine ⟨⟨header, separator, body⟩, ?_, ⟨?_, hcount.trans table.aligns_length, hdashes, htexts⟩⟩
  · rw [hrender] at hheader
    rw [Table.write, writeTable, hwidths, Option.bind_eq_bind, Option.bind_some, hheader,
      Option.bind_eq_bind, Option.bind_some, hseparator, Option.bind_eq_bind, Option.bind_some,
      hbody, Option.bind_some]
    simp only [TableLines.all, List.flatMap_cons, List.flatMap_map, tableLine_flatRow,
      List.append_assoc]
  · rw [htext, List.map_map]
    rfl

theorem TableLines.breaksLine_all {written : TableLines} {headers : List String}
    {rows : List (List Cell)} (h : written.Represents headers rows)
    (hheaders : ∀ header ∈ headers, Bare header)
    (hformatted : ∀ row ∈ rows, ∀ cell ∈ row, Formatted cell) :
    ∀ line ∈ written.all, ∀ c ∈ line, breaksLine c = false := by
  intro line hline
  rcases List.mem_cons.mp hline with rfl | hline
  · have hbare : ∀ cell ∈ headers.map Cell.num, Formatted cell := fun cell hcell => by
      obtain ⟨header, hmem, rfl⟩ := List.mem_map.mp hcell
      exact hheaders header hmem
    refine breaksLine_of_sources hbare ?_
    rw [h.header, List.map_map]
    rfl
  · rcases List.mem_cons.mp hline with rfl | hline
    · refine breaksLine_rowLine fun cell hcell c hc => ?_
      rcases (h.dashes cell hcell).2 c hc with rfl | rfl <;> rfl
    · obtain ⟨cells, hcells, rfl⟩ := List.mem_map.mp hline
      have hmem : cells.map PaddedCell.text ∈ rows.map (List.map cellSource) :=
        h.body ▸ List.mem_map_of_mem hcells
      obtain ⟨row, hrow, heq⟩ := List.mem_map.mp hmem
      exact breaksLine_of_sources (hformatted row hrow) heq.symm

/-- What a reader finds of a written table, and when it shows the texts. -/
theorem Table.read (table : Table) : ∃ text, table.write = some text ∧
    Shaped table.headers table.rows.length (lines text) ∧
    (Shows table.rows (lines text) ↔ ∀ row ∈ table.rows, ∀ cell ∈ row, Legible cell) := by
  obtain ⟨written, hwrite, h⟩ := table.write_eq
  have hlines : lines (written.all.flatMap fun line => line ++ ['\n']) = written.all :=
    WorkflowCommand.lines_flatMap
      (TableLines.breaksLine_all h table.headers_bare table.cells_formatted)
  refine ⟨_, hwrite, ?_, ?_⟩
  · rw [hlines]
    refine shaped_of_sources ?_ ?_ (fun cell hcell => ?_) table.rows_length h.body
    · rw [readRow_rowLine h.header, List.map_map]
      exact List.map_congr_left fun header hmem => display_bare (table.headers_bare header hmem)
    · rw [length_readCells_rowLine, h.separator]
    · rw [Gfm.readCells_rowLine] at hcell
      obtain ⟨dashes, hmem, rfl⟩ := List.mem_map.mp hcell
      obtain ⟨hdelimiter, hchars⟩ := h.dashes dashes hmem
      rw [Gfm.trim_of_not_blank fun c hc => by rcases hchars c hc with rfl | rfl <;> rfl]
      exact hdelimiter
  · rw [hlines]
    exact map_readRow_eq table.cells_formatted h.body

/-! ### Numbers -/

theorem not_isBlank_of_isDigit {c : Char} (h : c.isDigit = true) : Gfm.isBlank c = false := by
  have hlow : 48 ≤ c.toNat := by
    simp only [Char.isDigit, Bool.and_eq_true, decide_eq_true_eq] at h
    exact UInt32.le_iff_toNat_le.mp h.1
  refine Bool.eq_false_iff.mpr fun hblank => ?_
  simp only [Gfm.isBlank, Bool.or_eq_true, decide_eq_true_eq] at hblank
  rcases hblank with ((((rfl | rfl) | rfl) | rfl) | htab) | hfeed
  · exact absurd hlow (by decide)
  · exact absurd hlow (by decide)
  · exact absurd hlow (by decide)
  · exact absurd hlow (by decide)
  · omega
  · omega

theorem isBare_of_isDigit {c : Char} (h : c.isDigit = true) : isBare c = true := by
  refine isBare_iff.mpr ⟨?_, ?_, ?_, ?_, Bool.eq_false_iff.mpr fun hbreak => ?_⟩
  · rintro rfl
    exact absurd h (by decide)
  · rintro rfl
    exact absurd h (by decide)
  · rintro rfl
    exact absurd h (by decide)
  · rintro rfl
    exact absurd h (by decide)
  · rcases breaksLine_eq_true.mp hbreak with rfl | rfl <;> exact absurd h (by decide)

theorem bare_toString (n : ℕ) : Bare (toString n) where
  chars c hc := isBare_of_isDigit (isDigit_toString n c hc)
  edges := Gfm.trim_of_not_blank fun c hc => not_isBlank_of_isDigit (isDigit_toString n c hc)

instance (s : String) : Decidable (Bare s) :=
  decidable_of_iff (s.toList.all isBare = true ∧ trim s.toList = s.toList)
    ⟨fun h => ⟨List.all_eq_true.mp h.1, h.2⟩, fun h => ⟨List.all_eq_true.mpr h.chars, h.edges⟩⟩

theorem bare_thousands (n : ℕ) : Bare (Hotspot.thousands n) := by
  have hchars : ∀ c ∈ (Hotspot.thousands n).toList, c = ',' ∨ c.isDigit = true := by
    intro c hc
    rw [Hotspot.thousands] at hc
    split_ifs at hc
    · exact .inr (isDigit_toString n c hc)
    · rw [String.toList_ofList, List.mem_flatMap] at hc
      obtain ⟨⟨d, i⟩, hd, hc⟩ := hc
      have hmem := List.mem_map_of_mem (f := Prod.fst) hd
      rw [List.zipIdx_map_fst] at hmem
      have hdigit := isDigit_toString n d hmem
      dsimp only at hc
      split_ifs at hc
      · rcases List.mem_pair.mp hc with rfl | rfl
        · exact .inl rfl
        · exact .inr hdigit
      · rw [List.mem_singleton.mp hc]
        exact .inr hdigit
  refine ⟨fun c hc => ?_, Gfm.trim_of_not_blank fun c hc => ?_⟩
  · rcases hchars c hc with rfl | hdigit
    · decide
    · exact isBare_of_isDigit hdigit
  · rcases hchars c hc with rfl | hdigit
    · decide
    · exact not_isBlank_of_isDigit hdigit

/-! ### The sections of the report -/

/-- Formats that write numbers in characters no table minds. -/
structure BareNumbers where
  format : NumberFormat
  scalar : ∀ v, Bare (format.scalar v)
  tenths : ∀ v, Bare (format.tenths v)
  hundredths : ∀ v, Bare (format.hundredths v)
  thousandsRound : ∀ v, Bare (format.thousandsRound v)

def wholeNumber (v : ℚ) : String := toString v.num.natAbs

/-- Every number by its numerator. -/
def wholeNumbers : BareNumbers where
  format := ⟨wholeNumber, wholeNumber, wholeNumber, wholeNumber⟩
  scalar _ := bare_toString _
  tenths _ := bare_toString _
  hundredths _ := bare_toString _
  thousandsRound _ := bare_toString _

def sectionRow (format : NumberFormat) (spec : HotspotSpec) (s : FunctionSummary) : List Cell :=
  spec.columns.map fun column => column.cell format s

theorem bare_headers : ∀ spec ∈ specs, ∀ column ∈ spec.columns, Bare column.header := by
  decide +kernel

theorem formatted_sections (numbers : BareNumbers) (s : FunctionSummary) :
    ∀ spec ∈ specs, ∀ column ∈ spec.columns, Formatted (column.cell numbers.format s) := by
  have hrepr : ∀ n : ℕ, Bare n.repr := bare_toString
  simp [specs, Hotspot.maintainabilityIndex, Hotspot.cyclomaticComplexity,
    Hotspot.cognitiveComplexity, Hotspot.halsteadEffort, Hotspot.functionSize,
    Hotspot.manyParameters, Hotspot.types, Hotspot.exitPoints, Hotspot.abcMagnitude,
    Hotspot.functionSpec, Hotspot.colFunction, Hotspot.colFile, Hotspot.colLine, Hotspot.colCc,
    Hotspot.colCognitive, Hotspot.colSloc, Hotspot.colTokens, Formatted, hrepr,
    bare_thousands, numbers.scalar, numbers.tenths, numbers.hundredths, numbers.thousandsRound]

/-- The table `emit_section_md` writes. -/
def sectionTable (numbers : BareNumbers) (align : Column → Align) {spec : HotspotSpec}
    (h : spec ∈ specs) (rows : List FunctionSummary) : Table where
  headers := spec.columns.map Column.header
  aligns := spec.columns.map align
  rows := rows.map (sectionRow numbers.format spec)
  aligns_length := by rw [List.length_map, List.length_map]
  rows_length row hrow := by
    obtain ⟨s, -, rfl⟩ := List.mem_map.mp hrow
    rw [sectionRow, List.length_map, List.length_map]
  headers_bare header hheader := by
    obtain ⟨column, hcolumn, rfl⟩ := List.mem_map.mp hheader
    exact bare_headers spec h column hcolumn
  cells_formatted row hrow cell hcell := by
    obtain ⟨s, -, rfl⟩ := List.mem_map.mp hrow
    obtain ⟨column, hcolumn, rfl⟩ := List.mem_map.mp hcell
    exact formatted_sections numbers s spec h column hcolumn

end BigCodeAnalysis.Output.Markdown
