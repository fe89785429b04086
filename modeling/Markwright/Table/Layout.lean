import Markwright.Table.Cell
import Markwright.Table.Histogram

/-!
# The layout of a table

Cells come in row by row and are kept until the table ends, since the width of a column hangs on all
its cells. With them are kept the lengths seen in each column, how many rows at the front are header
rows, and the alignment of the columns, which is taken from the first row after the header rows.
-/

namespace Markwright.Table

/-- What decides how wide the columns of a table are. -/
structure Settings (ω : Type) where
  /-- The width that a table should not exceed, padding included. -/
  widthStop : Int
  /-- Spaces on each side of a cell. Columns are narrower than their cells if it is negative. -/
  minPadding : Int
  /-- What the weight of a length is scaled by each time it comes again. -/
  bonus : ω

/-- A table as its cells come in. -/
structure Layout (ω : Type) where
  settings : Settings ω
  rows : List Row
  histograms : Columns (Histogram ω)
  alignments : Columns Alignment
  headerRows : Nat

namespace Layout

variable {ω : Type} [Weight ω]

/-- A layout without rows. -/
def empty (settings : Settings ω) : Layout ω := ⟨settings, [], [], [], 0⟩

/-- The layout without the table that it holds. -/
def clear (t : Layout ω) : Layout ω := empty t.settings

/-- The row of that number is a header row. No row is numbered below zero. -/
def isHeaderRow (t : Layout ω) (row : Int) : Bool :=
  decide (0 ≤ row) && decide (row < t.headerRows)

/-- The number of columns that the widest row covers. -/
def columnCount (t : Layout ω) : Nat :=
  t.rows.foldl (fun m r => max m r.width) 0

/-- Starts a row. Behind a header row the alignments are taken anew. -/
def beginRow (t : Layout ω) : Layout ω :=
  { t with
    rows := t.rows ++ [[]]
    alignments := if t.isHeaderRow ((t.rows.length : Int) - 1) then [] else t.alignments }

/-- The number of header rows once a cell is added to the row numbered `row`. Only whole rows at the
front are header rows. -/
def headerRowsWith (headerRows row col : Nat) (isHeader : Bool) : Nat :=
  if isHeader then
    if col = 0 ∧ row = headerRows then row + 1 else headerRows
  else if row + 1 = headerRows then headerRows - 1
  else headerRows

/-- Keeps what a cell of the last row tells of its column `col`: how long its content is, how it is
aligned if no cell before it has said so, and whether its row is still a header row. -/
def noteCell (t : Layout ω) (col length : Nat) (alignment : Alignment) (isHeader : Bool) :
    Layout ω :=
  { t with
    histograms := t.histograms.alter col fun h => (h.getD []).record t.settings.bonus length
    alignments := t.alignments.alter col fun a => a.getD alignment
    headerRows := headerRowsWith t.headerRows (t.rows.length - 1) col isHeader }

/-- Takes a cell into the last row, step by step. A fault comes with the layout as it is then. -/
def takeCell (content : String) (isHeader : Bool) (parameters : Option Parameters) :
    EStateM RenderFault (Layout ω) Unit := do
  let some row := (← get).rows.getLast? | throw .cellOutsideRow
  let alignment := Alignment.parse (lookupIn parameters "align")
  let span ← MonadExcept.ofExcept (spanOf (lookupIn parameters "colspan"))
  let content := Text.strip content
  modify (·.noteCell row.width content.length alignment isHeader)
  modify fun t => { t with rows := t.rows.dropLast ++ [row ++ [⟨content, span⟩]] }

/-- The layout with a cell added to its last row. -/
def addCell (t : Layout ω) (content : String) (isHeader : Bool) (parameters : Option Parameters) :
    Except RenderFault (Layout ω) :=
  match takeCell content isHeader parameters t with
  | .ok _ u => .ok u
  | .error fault _ => .error fault

end Layout

/-! ## Widths -/

/-- What is told of the choice of widths. -/
inductive WidthNote where
  | dropped (width col : Nat)
  | tooWide (width widthStop : Int)

/-- The text of a note. -/
def WidthNote.message : WidthNote → String
  | dropped width col => s!"Dropped width {width} from table column {col}"
  | tooWide width widthStop => s!"Table is {width} wide, above {widthStop}, but cannot be narrowed"

section Widths

variable {ω : Type} [Weight ω]

/-- The width of all columns that hold cells. -/
def totalWidth (padding : Int) : Columns (Histogram ω) → Int
  | [] => 0
  | p :: rest => (Histogram.largest p.2 : Int) + padding + totalWidth padding rest

/-- The weight of the largest length, if another length stays when it goes. -/
def droppable? (h : Histogram ω) : Option ω :=
  if h.length < 2 then none else h.lookup (Histogram.largest h)

/-- The column whose largest length weighs most, the first of several. A weight counts when it
exceeds that of no length. -/
def heaviest? (retained : Columns (Histogram ω)) : Option Nat :=
  (retained.foldl (fun (best : Option Nat × ω) p =>
    match droppable? p.2 with
    | some w => if Weight.exceeds w best.2 then (some p.1, w) else best
    | none => best) (none, Weight.ofLength 0)).1

/-- Drops the heaviest of the largest lengths while the table is too wide and one can go. Each step
drops a length, so as much fuel as there are lengths is enough. -/
def narrow (s : Settings ω) : Nat → Columns (Histogram ω) → Columns (Histogram ω) × List WidthNote
  | 0, retained => (retained, [])
  | fuel + 1, retained =>
    let total := totalWidth (2 * s.minPadding) retained
    if total ≤ s.widthStop then (retained, [])
    else
      match heaviest? retained with
      | none => (retained, [.tooWide total s.widthStop])
      | some col =>
        let largest := Histogram.largest ((retained.lookup col).getD [])
        let rest := narrow s fuel
          (retained.map fun p => if p.1 = col then (p.1, Histogram.drop largest p.2) else p)
        (rest.1, .dropped largest col :: rest.2)

namespace Layout

/-- The lengths that are left to each column when the widths are chosen. -/
def retained (t : Layout ω) : Columns (Histogram ω) × List WidthNote :=
  narrow t.settings ((t.histograms.flatMap Prod.snd).length + 1) t.histograms

/-- The width of each column, padding included. -/
def columnWidths (t : Layout ω) : List Int :=
  let retained := t.retained.1
  (List.range t.columnCount).map fun col =>
    (Histogram.largest ((retained.lookup col).getD []) : Int) + 2 * t.settings.minPadding

end Layout

end Widths

/-! ## Drawing -/

/-- So many spaces, none if the number is negative. -/
def spaces (n : Int) : String := String.ofList (List.replicate n.toNat ' ')

/-- The dashes under a column, with a colon at each end that the alignment marks. -/
def dividerSegment (alignment : Alignment) (width : Int) : String :=
  let marksLeft := alignment == .left || alignment == .center
  let marksRight := alignment == .right || alignment == .center
  String.ofList <| (List.range width.toNat).map fun i =>
    if (marksLeft && i == 0) || (marksRight && i + 1 == width.toNat) then ':' else '-'

/-- The line between the header rows and the others. -/
def divider (alignments : Columns Alignment) (widths : List Int) : String :=
  "|" ++ String.join (widths.zipIdx.map fun (width, col) =>
    dividerSegment ((alignments.lookup col).getD .default) width ++ "|") ++ "\n"

/-- The cells of a row from column `col` on. A cell wider than its room takes from the padding of
the next one: `overflow` is what the last cell took. -/
def drawCells (widths : List Int) (minPadding : Int) (col overflow : Nat) : List Cell → String
  | [] => ""
  | c :: rest =>
    let room : Int := ((widths.drop col).take c.span).foldr (· + ·) 0 - (overflow : Int)
    let text := Text.padRight (room - minPadding).toNat (spaces minPadding ++ c.content)
      ++ spaces minPadding
    text ++ Text.times c.span "|"
      ++ drawCells widths minPadding (col + c.span) ((c.content.length : Int) - room).toNat rest

/-- The line of a row, its break with it. -/
def drawRow (widths : List Int) (minPadding : Int) (row : Row) : String :=
  "|" ++ drawCells widths minPadding 0 0 row ++ "\n"

/-- The table as text: its header rows, the divider and its other rows. Without rows it is empty. -/
def Layout.draw {ω : Type} [Weight ω] (t : Layout ω) : String :=
  if t.rows.isEmpty then ""
  else
    let widths := t.columnWidths
    let drawAll := fun rows : List Row =>
      String.join (rows.map (drawRow widths t.settings.minPadding))
    drawAll (t.rows.take t.headerRows) ++ divider t.alignments widths
      ++ drawAll (t.rows.drop t.headerRows)

end Markwright.Table
