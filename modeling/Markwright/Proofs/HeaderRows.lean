import Mathlib.Order.Bounds.Basic
import Markwright.Proofs.Tallies

/-!
# Header rows and alignments

How many rows at the front are header rows, and how the columns are aligned, is kept with a table as
its cells come in: a row counts as a header row with its first cell and does no longer with the
first cell that is none, and alignments are taken anew when a row begins behind a header row. What
is kept is what one would read off the rows in the end (`Layout.header_rows_and_alignments`). A call
that fails changes nothing, so that a layout is always one that was filled by the calls that
succeeded since it was cleared (`Layout.reads_ofUses`).
-/

namespace Markwright.Table

/-- A call of a layout. -/
inductive Use where
  | beginRow
  | addCell (c : NewCell)
  | clear

/-- The rows after one more call. A cell that has no row or whose span is not understood is not
taken. -/
def Use.addTo (rows : List (List NewCell)) : Use → List (List NewCell)
  | .clear => []
  | .beginRow => rows ++ [[]]
  | .addCell c =>
    match rows.getLast?, spanOf (lookupIn c.parameters "colspan") with
    | some row, .ok _ => rows.dropLast ++ [row ++ [c]]
    | _, _ => rows

/-- The rows that calls have added since the last one that cleared. -/
def takenRows (us : List Use) : List (List NewCell) := us.foldl Use.addTo []

theorem takenRows_concat (us : List Use) (u : Use) :
    takenRows (us ++ [u]) = u.addTo (takenRows us) := by
  simp [takenRows]

/-! ## Rows of cells -/

/-- How the cell asks for its column to be aligned. -/
def NewCell.alignment (c : NewCell) : Alignment := .parse (lookupIn c.parameters "align")

/-- The columns that cells begin in, the first of them in column `col`, and how each is aligned. -/
def startsFrom (col : Nat) : List NewCell → List (Nat × Alignment)
  | [] => []
  | c :: rest => (col, c.alignment) :: startsFrom (col + c.cell.span) rest

/-- The columns that the cells of some rows begin in, in the order of the cells. -/
def starts (rows : List (List NewCell)) : List (Nat × Alignment) := rows.flatMap (startsFrom 0)

theorem startsFrom_concat (c : NewCell) : ∀ (row : List NewCell) (col : Nat),
    startsFrom col (row ++ [c]) =
      startsFrom col row ++ [(col + Row.width (row.map NewCell.cell), c.alignment)]
  | [], _ => rfl
  | d :: row, col => by
    rw [List.cons_append, startsFrom, startsFrom_concat c row, startsFrom, List.map_cons, Row.width,
      Nat.add_assoc, List.cons_append]

theorem starts_concat (front : List (List NewCell)) (row : List NewCell) :
    starts (front ++ [row]) = starts front ++ startsFrom 0 row := by
  simp [starts]

/-- A row of header cells, of which there is at least one. -/
def IsHeaderRow (row : List NewCell) : Prop := row ≠ [] ∧ ∀ c ∈ row, c.isHeader = true

instance (row : List NewCell) : Decidable (IsHeaderRow row) :=
  inferInstanceAs (Decidable (row ≠ [] ∧ ∀ c ∈ row, c.isHeader = true))

/-- What the grid keeps of a row of cells. -/
def gridRow (row : List NewCell) : List (Nat × Bool) := row.map fun c => (c.cell.span, c.isHeader)

/-- What the grid keeps of rows of cells. -/
def gridOf (rows : List (List NewCell)) : Grid := rows.map gridRow

theorem isHeader_gridRow (row : List NewCell) :
    Grid.isHeader (gridRow row) = true ↔ IsHeaderRow row := by
  simp [Grid.isHeader, gridRow, IsHeaderRow]

theorem length_gridOf (rows : List (List NewCell)) : (gridOf rows).length = rows.length :=
  List.length_map _

theorem gridOf_concat (front : List (List NewCell)) (row : List NewCell) :
    gridOf (front ++ [row]) = gridOf front ++ [gridRow row] := by
  simp [gridOf]

theorem headerRows_gridOf_le (rows : List (List NewCell)) :
    Grid.headerRows (gridOf rows) ≤ rows.length :=
  length_gridOf rows ▸ Grid.headerRows_le (gridOf rows)

/-- The rows at the front that are header rows are as many as can be. -/
theorem isGreatest_headerRows (rows : List (List NewCell)) :
    IsGreatest {n | n ≤ rows.length ∧ ∀ row ∈ rows.take n, IsHeaderRow row}
      (Grid.headerRows (gridOf rows)) := by
  refine ⟨⟨headerRows_gridOf_le rows, fun row hrow => ?_⟩, fun n hn => ?_⟩
  · have htake : (gridOf rows).take (Grid.headerRows (gridOf rows)) =
        (gridOf rows).takeWhile Grid.isHeader :=
      (List.prefix_iff_eq_take.1 (List.takeWhile_prefix _)).symm
    have hmem : gridRow row ∈ (gridOf rows).take (Grid.headerRows (gridOf rows)) := by
      rw [gridOf, ← List.map_take]
      exact List.mem_map_of_mem hrow
    rw [htake] at hmem
    exact (isHeader_gridRow row).1 (List.mem_takeWhile_imp hmem)
  · obtain ⟨hlength, hheader⟩ := hn
    have hfront : ∀ row ∈ gridOf (rows.take n), Grid.isHeader row = true := by
      intro row hrow
      obtain ⟨r, hr, rfl⟩ := List.mem_map.1 hrow
      exact (isHeader_gridRow r).2 (hheader r hr)
    have hsplit : gridOf rows = gridOf (rows.take n) ++ gridOf (rows.drop n) := by
      rw [gridOf, gridOf, gridOf, ← List.map_append, List.take_append_drop]
    rw [Grid.headerRows, hsplit, List.takeWhile_append_of_pos hfront, List.length_append,
      length_gridOf, List.length_take_of_le hlength]
    exact Nat.le_add_right _ _

/-! ## Layouts -/

namespace Layout

variable {ω : Type} [Weight ω] {settings : Settings ω} {t u : Layout ω}
  {rows front : List (List NewCell)} {row : List NewCell} {c : NewCell}

/-- What a call leaves of a layout, that is, as far as it had come if it fails. -/
def use (t : Layout ω) : Use → Layout ω
  | .clear => t.clear
  | .beginRow => t.beginRow
  | .addCell c =>
    match takeCell c.content c.isHeader c.parameters t with
    | .ok _ u | .error _ u => u

/-- The layout that calls leave, whether they fail or not. -/
def ofUses (settings : Settings ω) (us : List Use) : Layout ω := us.foldl use (empty settings)

theorem ofUses_concat (settings : Settings ω) (us : List Use) (u : Use) :
    ofUses settings (us ++ [u]) = (ofUses settings us).use u := by
  simp [ofUses]

/-- The row from which on the alignments are taken: the first one that is no header row, or else the
last one. -/
def alignedFrom (rows : List (List NewCell)) : Nat := Grid.headerRows (gridOf rows.dropLast)

/-- What is kept with a layout is what can be read off its rows. -/
structure Reads (settings : Settings ω) (t : Layout ω) (rows : List (List NewCell)) : Prop where
  filled : ofCalls settings (rowCalls rows) = .ok t
  took : t.Took rows
  valid : ∀ row ∈ rows, ∀ c ∈ row, c.Valid
  headerRows : t.headerRows = Grid.headerRows (gridOf rows)
  ascending : t.alignments.Ascending
  alignments : ∀ col, t.alignments.lookup col = (starts (rows.drop (alignedFrom rows))).lookup col

theorem reads_empty (settings : Settings ω) : (empty settings).Reads settings [] :=
  ⟨rfl, rfl, nofun, rfl, List.Pairwise.nil, fun _ => rfl⟩

theorem Reads.clear (h : t.Reads settings rows) : t.clear.Reads settings [] := by
  have hsettings := (filled_of_ofCalls h.filled).settings
  rw [Layout.clear, hsettings]
  exact reads_empty settings

theorem Reads.length_eq (h : t.Reads settings rows) : t.rows.length = rows.length := by
  rw [h.took, List.length_map]

theorem headerRows_gridOf_concat (front : List (List NewCell)) (row : List NewCell) :
    Grid.headerRows (gridOf (front ++ [row])) =
      if Grid.headerRows (gridOf front) = front.length ∧ IsHeaderRow row then front.length + 1
      else Grid.headerRows (gridOf front) := by
  rw [gridOf_concat, Grid.headerRows_concat, length_gridOf]
  simp only [isHeader_gridRow]

theorem alignedFrom_concat (front : List (List NewCell)) (row : List NewCell) :
    alignedFrom (front ++ [row]) = Grid.headerRows (gridOf front) := by
  rw [alignedFrom, List.dropLast_concat]

theorem alignedFrom_eq (rows : List (List NewCell)) : alignedFrom rows =
    if Grid.headerRows (gridOf rows) < rows.length then Grid.headerRows (gridOf rows)
    else rows.length - 1 := by
  rcases List.eq_nil_or_concat rows with rfl | ⟨front, row, rfl⟩
  · rfl
  · rw [List.concat_eq_append, alignedFrom_concat, headerRows_gridOf_concat, List.length_append,
      List.length_singleton]
    have hle := headerRows_gridOf_le front
    split_ifs <;> omega

/-- Behind a header row no cell has been added to the row from which on alignments are taken. -/
theorem Reads.beginRow (h : t.Reads settings rows) : t.beginRow.Reads settings (rows ++ [[]]) := by
  have hle := headerRows_gridOf_le rows
  have hlength := h.length_eq
  have hdrop : starts ((rows ++ [[]]).drop (Grid.headerRows (gridOf rows))) =
      starts (rows.drop (Grid.headerRows (gridOf rows))) := by
    rw [List.drop_append_of_le_length hle, starts_concat, startsFrom, List.append_nil]
  refine ⟨?_, ?_, ?_, ?_, ?_, fun col => ?_⟩
  · rw [rowCalls_concat]
    exact ofCalls_concat h.filled rfl
  · rw [Took, List.map_append, ← h.took]
    rfl
  · intro r hr
    rcases List.mem_append.1 hr with hr | hr
    · exact h.valid r hr
    · obtain rfl := List.mem_singleton.1 hr
      exact List.forall_mem_nil _
  · rw [headerRows_gridOf_concat, if_neg fun hheader => hheader.2.1 rfl]
    exact h.headerRows
  · rw [Layout.beginRow]
    dsimp only
    split
    · exact List.Pairwise.nil
    · exact h.ascending
  · rw [alignedFrom_concat, hdrop, Layout.beginRow]
    dsimp only
    split
    · rename_i hheader
      have hall : Grid.headerRows (gridOf rows) = rows.length := by
        simp only [isHeaderRow, Bool.and_eq_true, decide_eq_true_eq, h.headerRows, hlength]
          at hheader
        omega
      rw [hall, List.drop_length]
      rfl
    · rename_i hheader
      have hsame : alignedFrom rows = Grid.headerRows (gridOf rows) := by
        simp only [isHeaderRow, Bool.and_eq_true, decide_eq_true_eq, h.headerRows, hlength]
          at hheader
        rw [alignedFrom_eq]
        split <;> omega
      rw [h.alignments, hsame]

theorem Reads.addCell (h : t.Reads settings (front ++ [row])) (hvalid : c.Valid)
    (hu : t.addCell c.content c.isHeader c.parameters = .ok u) :
    u.Reads settings (front ++ [row ++ [c]]) := by
  obtain ⟨before, last, span, hrows, hspan, hnew, -, hheader, -, halignments⟩ :=
    exists_of_addCell hu
  have htook := h.took
  rw [Took, List.map_append, List.map_singleton] at htook
  obtain ⟨hbefore, hlast⟩ := List.append_inj' (hrows.symm.trans htook) rfl
  obtain rfl := List.singleton_inj.1 hlast
  refine ⟨?_, h.took.addCell hu, fun r hr => ?_, ?_, ?_, fun col => ?_⟩
  · rw [rowCalls_concat_cell]
    exact ofCalls_concat h.filled hu
  · rcases List.mem_append.1 hr with hr | hr
    · exact h.valid r (List.mem_append_left _ hr)
    · obtain rfl := List.mem_singleton.1 hr
      intro d hd
      rcases List.mem_append.1 hd with hd | hd
      · exact h.valid row (by simp) d hd
      · exact List.mem_singleton.1 hd ▸ hvalid
  · have hcol : Row.width (row.map NewCell.cell) = 0 ↔ gridRow row = [] := by
      rw [width_eq_zero, List.map_eq_nil_iff, gridRow, List.map_eq_nil_iff]
      intro cell hcell
      obtain ⟨d, hd, rfl⟩ := List.mem_map.1 hcell
      exact (h.valid row (by simp) d hd).span_pos
    have hindex : before.length = (gridOf front).length := by
      rw [hbefore, List.length_map, length_gridOf]
    rw [hheader, h.headerRows, hindex, gridOf_concat, gridOf_concat,
      headerRowsWith_eq (gridOf front) (gridRow row) c.cell.span c.isHeader _ hcol]
    simp [gridRow]
  · exact halignments ▸ h.ascending.alter
  · have hle := headerRows_gridOf_le front
    have hold := h.alignments col
    have hstarts : starts ((front ++ [row ++ [c]]).drop (Grid.headerRows (gridOf front))) =
        starts ((front ++ [row]).drop (Grid.headerRows (gridOf front))) ++
          [(Row.width (row.map NewCell.cell), c.alignment)] := by
      rw [List.drop_append_of_le_length hle, List.drop_append_of_le_length hle, starts_concat,
        starts_concat, startsFrom_concat, Nat.zero_add, List.append_assoc]
    rw [alignedFrom_concat] at hold ⊢
    rw [halignments, h.ascending.lookup_alter, hstarts, List.lookup_append, ← hold,
      Columns.lookup_cons_eq, List.lookup_nil]
    split
    · rename_i heq
      subst heq
      rcases t.alignments.lookup (Row.width (row.map NewCell.cell)) with _ | a <;> rfl
    · rw [Option.or_none]

/-- A cell is added unless no row has begun or its span is not understood. -/
theorem Reads.use_addCell (h : t.Reads settings rows) (c : NewCell) :
    ((rows = [] ∨ ¬ c.Valid) ∧
      (∃ fault, t.addCell c.content c.isHeader c.parameters = .error fault) ∧
      (Use.addCell c).addTo rows = rows) ∨
    ∃ front row u, rows = front ++ [row] ∧ c.Valid ∧
      t.addCell c.content c.isHeader c.parameters = .ok u ∧
      (Use.addCell c).addTo rows = front ++ [row ++ [c]] := by
  rcases hspan : spanOf (lookupIn c.parameters "colspan") with fault | span
  · have hinvalid : ¬ c.Valid := fun ⟨span, hok⟩ => nomatch hspan.symm.trans hok
    refine Or.inl ⟨Or.inr hinvalid, ?_, ?_⟩
    · rcases hadd : t.addCell c.content c.isHeader c.parameters with fault | u
      · exact ⟨fault, rfl⟩
      · obtain ⟨_, _, span, -, hok, -⟩ := exists_of_addCell hadd
        exact nomatch hspan.symm.trans hok
    · rw [Use.addTo, hspan]
      rcases rows.getLast? with _ | row <;> rfl
  · have hvalid : c.Valid := ⟨span, hspan⟩
    rcases List.eq_nil_or_concat rows with rfl | ⟨front, row, rfl⟩
    · refine Or.inl ⟨Or.inl rfl, ⟨.cellOutsideRow, ?_⟩, rfl⟩
      have hrows : t.rows = [] := h.took
      rw [Layout.addCell, takeCell_eq, hrows]
      rfl
    · rw [List.concat_eq_append] at h ⊢
      have hrows : t.rows ≠ [] := by
        rw [h.took]
        simp
      obtain ⟨u, hu⟩ := exists_addCell hvalid hrows
      refine Or.inr ⟨front, row, u, rfl, hvalid, hu, ?_⟩
      rw [Use.addTo, hspan, List.getLast?_concat, List.dropLast_concat]

theorem Reads.use (h : t.Reads settings rows) (u : Use) :
    (t.use u).Reads settings (u.addTo rows) := by
  cases u with
  | clear => exact h.clear
  | beginRow => exact h.beginRow
  | addCell c =>
    rcases h.use_addCell c with
      ⟨-, ⟨fault, hfault⟩, hsame⟩ | ⟨front, row, u, rfl, hvalid, hu, hadded⟩
    · rw [hsame, Layout.use, takeCell_of_addCell_error hfault]
      exact h
    · rw [hadded, Layout.use, takeCell_of_addCell hu]
      exact h.addCell hvalid hu

theorem reads_ofUses (settings : Settings ω) (us : List Use) :
    (ofUses settings us).Reads settings (takenRows us) := by
  induction us using List.reverseRecOn with
  | nil => exact reads_empty settings
  | append_singleton us u ih =>
    rw [ofUses_concat, takenRows_concat]
    exact ih.use u

/-- After any calls the header rows are all rows at the front that are made of header cells, and a
column is aligned as the first cell asks for that begins in it, from the first row on that is no
header row or in the last one. A cell that cannot be added leaves the layout as it is, so the calls
that failed might as well not have been made. -/
theorem header_rows_and_alignments (settings : Settings ω) (us : List Use) :
    let t := ofUses settings us
    let rows := takenRows us
    t.rows = rows.map (·.map NewCell.cell) ∧
    IsGreatest {n | n ≤ rows.length ∧ ∀ row ∈ rows.take n, IsHeaderRow row} t.headerRows ∧
    (∀ col, t.alignments.lookup col = (starts (rows.drop
      (if t.headerRows < rows.length then t.headerRows else rows.length - 1))).lookup col) ∧
    (∀ c : NewCell, rows = [] ∨ ¬ c.Valid ↔
      ∃ fault, t.addCell c.content c.isHeader c.parameters = .error fault) ∧
    (∀ c : NewCell, rows = [] ∨ ¬ c.Valid → ofUses settings (us ++ [.addCell c]) = t) ∧
    ofCalls settings (rowCalls rows) = .ok t := by
  have h := reads_ofUses settings us
  refine ⟨h.took, ?_, fun col => ?_, fun c => ?_, fun c hc => ?_, h.filled⟩
  · rw [h.headerRows]
    exact isGreatest_headerRows _
  · rw [h.headerRows, ← alignedFrom_eq]
    exact h.alignments col
  · rcases h.use_addCell c with ⟨hc, hfault, -⟩ | ⟨front, row, u, hrows, hvalid, hu, -⟩
    · exact ⟨fun _ => hfault, fun _ => hc⟩
    · rw [hrows, hu]
      simp [hvalid]
  · rw [ofUses_concat]
    rcases h.use_addCell c with ⟨-, ⟨fault, hfault⟩, -⟩ | ⟨front, row, u, hrows, hvalid, -, -⟩
    · rw [use, takeCell_of_addCell_error hfault]
    · rw [hrows] at hc
      simp [hvalid] at hc

end Layout

end Markwright.Table
