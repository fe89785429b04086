import Markwright.Proofs.Narrowing
import Markwright.Proofs.Bars

/-!
# Where the bars of a table stand

A table is drawn as a line for each row and the divider (`Layout.DrawnAs`), and a line shows the
cells of its row, each with its bars behind it (`ShowsRow`). In the divider the bar behind a column
stands where the widths of the columns up to it, with a bar for each, have come to (`barOffset`).
The cells of a row have their bars there too as long as no column is narrower than its cells
(`Layout.bars_line_up`). A cell that is wider than its column pushes the bars behind it to the
right, and the next cell gives up as much of its room as the content was too long, but not what the
padding of that content took. So the bars come back to their places only where there is no padding
(`Layout.closingBar_behind_overflow`).
-/

namespace Markwright.Table

/-- How a cell stands in a line: its content between blanks, and behind it a bar for each column
that it covers. -/
def Cell.Shows (c : Cell) (text : List Char) : Prop :=
  ∃ before behind, text = List.replicate before ' ' ++ c.content.toList ++
    List.replicate behind ' ' ++ List.replicate c.span '|'

/-- A line that shows the cells of a row behind a bar of its own. The bar that closes the first `n`
cells stands at `place n`. -/
def ShowsRow (row : Row) (place : Nat → Int) (line : List Char) : Prop :=
  ∃ texts, List.Forall₂ Cell.Shows row texts ∧ line = '|' :: texts.flatten ∧
    ∀ n ≤ row.length, ((texts.take n).flatten.length : Int) = place n

/-- The lines that a table is drawn as: one for each row, with the divider behind the header rows.
Nothing is drawn of a table without rows. -/
structure Layout.DrawnAs {ω : Type} [Weight ω] (t : Layout ω) (lines : List (List Char))
    (divider : List Char) : Prop where
  length : lines.length = t.rows.length
  draw : t.draw.toList =
    if t.rows = [] then []
    else (lines.take t.headerRows ++ divider :: lines.drop t.headerRows).flatMap
      fun line => line ++ ['\n']

/-- Where the bar behind the first `n` columns stands. -/
def barOffset (widths : List Int) (n : Nat) : Int := ((widths.take n).map (· + 1)).sum

/-- Where the bar stands that closes the last of the first cells of a row. -/
def closingBar (widths : List Int) (minPadding : Int) (cells : List Cell) : Nat :=
  (drawCells widths minPadding 0 0 cells).length

/-- How much room there is for a cell when the one before has taken something of it. -/
def room (widths : List Int) (col overflow : Nat) (c : Cell) : Int :=
  ((widths.drop col).take c.span).sum - (overflow : Int)

/-- What the last of some cells takes from the room of the next one: as much as its content is too
long. -/
def carried (widths : List Int) (col overflow : Nat) : List Cell → Nat
  | [] => overflow
  | c :: rest => carried widths (col + c.span)
      ((c.content.length : Int) - room widths col overflow c).toNat rest

/-- How many characters a content of some length takes with its padding. -/
def paddedLength (minPadding : Int) (length : Nat) (room : Int) : Nat :=
  max (minPadding.toNat + length) (room - minPadding).toNat + minPadding.toNat

/-! ## Rows -/

theorem Row.width_append (front back : Row) :
    Row.width (front ++ back) = Row.width front + Row.width back := by
  induction front with
  | nil => rw [List.nil_append, Row.width, Nat.zero_add]
  | cons c front ih => rw [List.cons_append, Row.width, Row.width, ih, Nat.add_assoc]

theorem Row.width_eq_length {row : Row} (h : ∀ c ∈ row, c.span = 1) : row.width = row.length := by
  induction row with
  | nil => rfl
  | cons c rest ih =>
    rw [Row.width, h c (by simp), ih fun d hd => h d (List.mem_cons_of_mem c hd), List.length_cons,
      Nat.add_comm]

section Rows

variable (widths : List Int) (minPadding : Int)

theorem length_padded (length : Nat) (room : Int) (content : String)
    (hlength : content.length = length) :
    (Text.padRight (room - minPadding).toNat (spaces minPadding ++ content) ++
      spaces minPadding).length = paddedLength minPadding length room := by
  rw [String.length_append, Text.padRight, String.length_append, String.length_append, spaces,
    String.length_ofList, String.length_ofList, List.length_replicate, List.length_replicate,
    paddedLength, hlength]
  omega

theorem drawCells_cons (col overflow : Nat) (c : Cell) (rest : List Cell) :
    drawCells widths minPadding col overflow (c :: rest) =
      drawCells widths minPadding col overflow [c] ++
        drawCells widths minPadding (col + c.span) (carried widths col overflow [c]) rest := by
  rw [drawCells, drawCells, drawCells, String.append_empty]
  rfl

theorem drawCells_append : ∀ (front back : List Cell) (col overflow : Nat),
    drawCells widths minPadding col overflow (front ++ back) =
      drawCells widths minPadding col overflow front ++
        drawCells widths minPadding (col + Row.width front) (carried widths col overflow front) back
  | [], back, col, overflow => by
    rw [List.nil_append, drawCells, String.empty_append]
    rfl
  | c :: front, back, col, overflow => by
    rw [List.cons_append, drawCells_cons, drawCells_append front back,
      drawCells_cons _ _ _ _ c front, String.append_assoc, Row.width, Nat.add_assoc]
    rfl

theorem carried_append : ∀ (front back : List Cell) (col overflow : Nat),
    carried widths col overflow (front ++ back) =
      carried widths (col + Row.width front) (carried widths col overflow front) back
  | [], _, _, _ => rfl
  | c :: front, back, col, overflow => by
    rw [List.cons_append, carried, carried_append front back, carried, Row.width, Nat.add_assoc]

theorem length_drawCells_singleton (col overflow : Nat) (c : Cell) :
    (drawCells widths minPadding col overflow [c]).length =
      paddedLength minPadding c.content.length (room widths col overflow c) + c.span := by
  rw [drawCells, drawCells, String.append_empty, String.length_append,
    ← length_padded minPadding _ (room widths col overflow c) c.content rfl]
  have hbars : (Text.times c.span "|").length = c.span := by
    rw [← String.length_toList, Text.toList_times '|' rfl, List.length_replicate]
  rw [hbars]
  rfl

theorem closingBar_concat (front : List Cell) (c : Cell) :
    closingBar widths minPadding (front ++ [c]) = closingBar widths minPadding front +
      paddedLength minPadding c.content.length
        (room widths (Row.width front) (carried widths 0 0 front) c) + c.span := by
  rw [closingBar, drawCells_append, String.length_append, length_drawCells_singleton, Nat.zero_add,
    Nat.add_assoc]
  rfl

theorem carried_concat (front : List Cell) (c : Cell) : carried widths 0 0 (front ++ [c]) =
    ((c.content.length : Int) -
      room widths (Row.width front) (carried widths 0 0 front) c).toNat := by
  rw [carried_append, Nat.zero_add]
  rfl

/-- The line of a row has a bar there, and up to it the cells that it closes. -/
theorem exists_drawRow_eq (front back : List Cell) {c : Cell} (hspan : 0 < c.span) :
    ∃ text rest, (drawRow widths minPadding (front ++ [c])).toList = text ++ ['|', '\n'] ∧
      (drawRow widths minPadding (front ++ c :: back)).toList = text ++ '|' :: rest ∧
      text.length = closingBar widths minPadding (front ++ [c]) := by
  obtain ⟨n, hn⟩ := Nat.exists_eq_succ_of_ne_zero (Nat.ne_of_gt hspan)
  obtain ⟨text, htext⟩ : ∃ text, (drawCells widths minPadding 0 0 (front ++ [c])).toList =
      text ++ ['|'] := by
    rw [drawCells_append, drawCells, drawCells, String.append_empty, String.toList_append,
      String.toList_append, Text.toList_times '|' rfl, hn, List.replicate_succ']
    exact ⟨_, by
      rw [List.append_assoc, List.append_assoc, ← List.append_assoc, ← List.append_assoc]⟩
  have hlength := congrArg List.length htext
  rw [String.length_toList, List.length_append, List.length_singleton] at hlength
  let rest := drawCells widths minPadding (0 + Row.width (front ++ [c]))
    (carried widths 0 0 (front ++ [c])) back
  refine ⟨'|' :: text, rest.toList ++ ['\n'], ?_, ?_, ?_⟩
  · rw [toList_drawRow, rowLine, htext, List.cons_append, List.append_assoc]
    rfl
  · rw [toList_drawRow, rowLine, List.append_cons front, drawCells_append, String.toList_append,
      htext, List.cons_append, List.append_assoc, List.append_assoc]
    rfl
  · rw [List.length_cons, closingBar, hlength]

/-- A cell is shown whatever room there is for it. -/
theorem shows_drawCells_singleton (col overflow : Nat) (c : Cell) :
    c.Shows (drawCells widths minPadding col overflow [c]).toList := by
  obtain ⟨n, hn⟩ := toList_padded minPadding c.content
    (room widths col overflow c - minPadding).toNat
  refine ⟨minPadding.toNat, n + minPadding.toNat, ?_⟩
  rw [drawCells, drawCells, String.append_empty, String.toList_append, Text.toList_times '|' rfl,
    ← hn]
  rfl

/-- The cells of a row are drawn one after the other. -/
theorem exists_shown_drawCells : ∀ (cells : List Cell) (col overflow : Nat), ∃ texts,
    List.Forall₂ Cell.Shows cells texts ∧
      (drawCells widths minPadding col overflow cells).toList = texts.flatten ∧
      ∀ n, (texts.take n).flatten.length =
        (drawCells widths minPadding col overflow (cells.take n)).length
  | [], _, _ => ⟨[], .nil, rfl, fun n => by rw [List.take_nil, List.take_nil]; rfl⟩
  | c :: rest, col, overflow => by
    obtain ⟨texts, hshows, hrest, hlength⟩ := exists_shown_drawCells rest (col + c.span)
      (carried widths col overflow [c])
    have hfirst := shows_drawCells_singleton widths minPadding col overflow c
    refine ⟨_ :: texts, .cons hfirst hshows, ?_, fun n => ?_⟩
    · rw [drawCells_cons, String.toList_append, hrest, List.flatten_cons]
    · rcases n with _ | n
      · rfl
      · rw [List.take_succ_cons, List.take_succ_cons, drawCells_cons _ _ _ _ c (rest.take n),
          String.length_append, ← hlength, List.flatten_cons, List.length_append,
          String.length_toList]

theorem showsRow_rowLine (row : Row) :
    ShowsRow row (fun n => closingBar widths minPadding (row.take n))
      (rowLine widths minPadding row) := by
  obtain ⟨texts, hshows, hline, hlength⟩ := exists_shown_drawCells widths minPadding row 0 0
  exact ⟨texts, hshows, congrArg ('|' :: ·) hline, fun n _ => congrArg Nat.cast (hlength n)⟩

theorem length_rowLine (row : Row) :
    (rowLine widths minPadding row).length = closingBar widths minPadding row + 1 := by
  rw [rowLine, List.length_cons, String.length_toList, closingBar]

end Rows

theorem ShowsRow.congr {row : Row} {place place' : Nat → Int} {line : List Char}
    (h : ShowsRow row place line) (heq : ∀ n ≤ row.length, place n = place' n) :
    ShowsRow row place' line := by
  obtain ⟨texts, hshows, hline, hplace⟩ := h
  exact ⟨texts, hshows, hline, fun n hn => (hplace n hn).trans (heq n hn)⟩

/-! ## Bars in line -/

theorem barOffset_add {widths : List Int} {m n : Nat} (h : m + n ≤ widths.length) :
    barOffset widths (m + n) = barOffset widths m + ((widths.drop m).take n).sum + n := by
  have hsum : ∀ l : List Int, (l.map (· + 1)).sum = l.sum + l.length := by
    intro l
    induction l with
    | nil => rfl
    | cons w rest ih =>
      rw [List.map_cons, List.sum_cons, ih, List.sum_cons, List.length_cons]
      omega
  have hlength : ((widths.drop m).take n).length = n := by
    rw [List.length_take, List.length_drop]
    omega
  rw [barOffset, barOffset, List.take_add, List.map_append, List.sum_append, hsum (List.take n _),
    hlength, Int.add_assoc]

section Fits

variable {widths : List Int} {minPadding : Int} {row : Row}

/-- The column that a cell begins in has room for its content and its padding. -/
def Fits (widths : List Int) (minPadding : Int) (row : Row) : Prop :=
  ∀ front c back, row = front ++ c :: back → ∃ width, widths[Row.width front]? = some width ∧
    (c.content.length : Int) + 2 * minPadding ≤ width

theorem le_room {col : Nat} {c : Cell} {width : Int} (hwidths : ∀ w ∈ widths, 0 ≤ w)
    (hspan : 0 < c.span) (hwidth : widths[col]? = some width) : width ≤ room widths col 0 c := by
  obtain ⟨n, hn⟩ := Nat.exists_eq_succ_of_ne_zero (Nat.ne_of_gt hspan)
  obtain ⟨hcol, rfl⟩ := List.getElem?_eq_some_iff.1 hwidth
  have hrest : 0 ≤ ((widths.drop (col + 1)).take n).sum :=
    List.sum_nonneg fun w hw => hwidths w (List.mem_of_mem_drop (List.mem_of_mem_take hw))
  rw [room, hn, List.drop_eq_getElem_cons hcol, List.take_succ_cons, List.sum_cons]
  omega

/-- Where all cells have room nothing is carried over, and the bars stand where those of the divider
stand. -/
theorem closingBar_eq_of_fits (hpad : 0 ≤ minPadding) (hwidths : ∀ w ∈ widths, 0 ≤ w)
    (hspans : ∀ c ∈ row, 0 < c.span) (hcols : row.width ≤ widths.length)
    (hfits : Fits widths minPadding row) {front : Row} : ∀ back, row = front ++ back →
      carried widths 0 0 front = 0 ∧
        (closingBar widths minPadding front : Int) = barOffset widths front.width := by
  induction front using List.reverseRecOn with
  | nil => exact fun _ _ => ⟨rfl, rfl⟩
  | append_singleton front c ih =>
    rintro back hrow
    rw [List.append_assoc, List.singleton_append] at hrow
    obtain ⟨hcarried, hbar⟩ := ih _ hrow
    obtain ⟨width, hwidth, hroom⟩ := hfits front c back hrow
    have hspan : 0 < c.span := hspans c (by simp [hrow])
    have hle := le_room hwidths hspan hwidth
    have hend : Row.width front + c.span ≤ widths.length := by
      rw [hrow, Row.width_append, Row.width] at hcols
      omega
    have hroom' : room widths (Row.width front) 0 c =
        ((widths.drop (Row.width front)).take c.span).sum := by
      rw [room, Nat.cast_zero, Int.sub_zero]
    rw [carried_concat, closingBar_concat, Row.width_append, Row.width, Row.width, Nat.add_zero,
      barOffset_add hend, hcarried, ← hroom', paddedLength]
    omega

end Fits

/-! ## The divider -/

section Divider

variable (alignments : Columns Alignment) {widths : List Int}

/-- What the divider has for some columns: their dashes, and a bar behind those of each. -/
def segments (alignments : Columns Alignment) (columns : List (Int × Nat)) : List Char :=
  columns.flatMap fun p =>
    (dividerSegment ((alignments.lookup p.2).getD .default) p.1).toList ++ ['|']

/-- The line of the divider. -/
def dividerLine (alignments : Columns Alignment) (widths : List Int) : List Char :=
  '|' :: segments alignments widths.zipIdx

theorem toList_divider (widths : List Int) :
    (divider alignments widths).toList = dividerLine alignments widths ++ ['\n'] := by
  rw [divider, String.toList_append, String.toList_append, String.toList_join, List.flatMap_map,
    dividerLine, segments]
  simp only [String.toList_append]
  rfl

theorem Layout.drawnAs {ω : Type} [Weight ω] (t : Layout ω) :
    t.DrawnAs (t.rows.map (rowLine t.columnWidths t.settings.minPadding))
      (dividerLine t.alignments t.columnWidths) := by
  refine ⟨List.length_map _, ?_⟩
  split
  · rename_i hrows
    rw [Layout.draw, hrows]
    rfl
  · rename_i hrows
    rw [t.toList_draw hrows (toList_divider t.alignments t.columnWidths), ← List.map_take,
      ← List.map_drop]

theorem segments_spec {columns : List (Int × Nat)} (h : ∀ p ∈ columns, 0 ≤ p.1) :
    ((segments alignments columns).length : Int) = (columns.map fun p => p.1 + 1).sum ∧
      (segments alignments columns).count '|' = columns.length := by
  induction columns with
  | nil => exact ⟨rfl, rfl⟩
  | cons p rest ih =>
    obtain ⟨hp, hrest⟩ := List.forall_mem_cons.1 h
    obtain ⟨hlength, hcount⟩ := ih hrest
    let segment := (dividerSegment ((alignments.lookup p.2).getD .default) p.1).toList
    have hsegment : segment.length = p.1.toNat := by
      simp only [segment, dividerSegment, String.toList_ofList, List.length_map, List.length_range]
    have hbar : segment.count '|' = 0 :=
      List.count_eq_zero.2 fun hmem => absurd (eq_of_mem_dividerSegment hmem) (by decide)
    have hcons : segments alignments (p :: rest) =
        segment ++ '|' :: segments alignments rest := by
      rw [segments, List.flatMap_cons, List.append_assoc]
      rfl
    rw [hcons, List.length_append, List.length_cons, hsegment, List.count_append, hbar,
      List.count_cons_self, hcount, List.map_cons, List.sum_cons, ← hlength, List.length_cons]
    omega

theorem segments_append (front back : List (Int × Nat)) : segments alignments (front ++ back) =
    segments alignments front ++ segments alignments back := by
  rw [segments, List.flatMap_append, segments, segments]

theorem zipIdx_nonneg (hwidths : ∀ w ∈ widths, 0 ≤ w) (n : Nat) :
    ∀ p ∈ widths.zipIdx n, 0 ≤ p.1 := fun p hp =>
  hwidths p.1 ((List.zipIdx_map_fst n widths) ▸ List.mem_map_of_mem hp)

theorem length_segments (hwidths : ∀ w ∈ widths, 0 ≤ w) :
    ((segments alignments widths.zipIdx).length : Int) = barOffset widths widths.length := by
  have hsum : (widths.zipIdx.map fun p => p.1 + 1) = widths.map (· + 1) := by
    conv_rhs => rw [← List.zipIdx_map_fst 0 widths, List.map_map]
    rfl
  rw [(segments_spec alignments (zipIdx_nonneg hwidths 0)).1, hsum, barOffset, List.take_length]

/-- The bar behind a column, with as many bars before it as there are columns up to it. -/
theorem exists_dividerLine_eq (hwidths : ∀ w ∈ widths, 0 ≤ w) {j : Nat} (hj : j < widths.length) :
    ∃ text rest, dividerLine alignments widths = text ++ '|' :: rest ∧
      text.count '|' = j + 1 ∧ (text.length : Int) = barOffset widths (j + 1) := by
  have hfront : (widths.take (j + 1)).length = j + 1 := List.length_take_of_le hj
  have hnonneg : ∀ w ∈ widths.take (j + 1), 0 ≤ w := fun w hw => hwidths w (List.mem_of_mem_take hw)
  obtain ⟨text, htext⟩ : ∃ text, segments alignments (widths.take (j + 1)).zipIdx =
      text ++ ['|'] := by
    rw [← List.take_append_getElem hj, List.zipIdx_append, segments_append, segments, segments]
    exact ⟨_, by rw [List.zipIdx_singleton, List.flatMap_singleton, List.append_assoc]⟩
  have hlength := length_segments alignments hnonneg
  have hcount := (segments_spec alignments (zipIdx_nonneg hnonneg 0)).2
  rw [htext, List.length_append, hfront, List.length_singleton] at hlength
  rw [htext, List.count_append, List.count_singleton_self, List.length_zipIdx, hfront] at hcount
  have hsplit : segments alignments widths.zipIdx = text ++ '|' ::
      segments alignments ((widths.drop (j + 1)).zipIdx (j + 1)) := by
    conv_lhs => rw [← List.take_append_drop (j + 1) widths]
    rw [List.zipIdx_append, segments_append, htext, hfront, List.append_assoc, Nat.zero_add]
    rfl
  refine ⟨'|' :: text, segments alignments ((widths.drop (j + 1)).zipIdx (j + 1)), ?_, ?_, ?_⟩
  · rw [dividerLine, hsplit]
    rfl
  · rw [List.count_cons_self]
    exact hcount
  · rw [barOffset, List.take_take, Nat.min_self] at hlength
    rw [List.length_cons, barOffset]
    exact hlength

end Divider

namespace Layout

variable {ω : Type} [Weight ω] {settings : Settings ω} {fs : List Filling} {t : Layout ω}

/-- Each column that has cells keeps its largest length when the widths are chosen. -/
def KeepsLargest (t : Layout ω) : Prop := ∀ p ∈ t.histograms,
  (t.retained.1.lookup p.1).map Histogram.largest = some p.2.largest

instance (t : Layout ω) : Decidable t.KeepsLargest :=
  inferInstanceAs (Decidable (∀ p ∈ t.histograms,
    (t.retained.1.lookup p.1).map Histogram.largest = some p.2.largest))

theorem nonneg_of_mem_columnWidths (hpad : 0 ≤ t.settings.minPadding) :
    ∀ w ∈ t.columnWidths, 0 ≤ w := by
  intro w hw
  obtain ⟨col, -, rfl⟩ := List.mem_map.1 hw
  omega

theorem Recorded.fits (h : t.Recorded) (hkept : t.KeepsLargest) {row : Row} (hrow : row ∈ t.rows)
    (hspans : ∀ c ∈ row, 0 < c.span) : Fits t.columnWidths t.settings.minPadding row := by
  rintro front c back rfl
  have hcol : Row.width front < t.columnCount := by
    have hle := width_le_columnCount hrow
    have hspan := hspans c (by simp)
    rw [Row.width_append, Row.width] at hle
    omega
  have hlength : c.content.length ∈ lengthsAt t.rows (Row.width front) :=
    List.mem_filterMap.2 ⟨_, hrow, Row.lengthAt_split fun d hd => hspans d (by simp [hd])⟩
  have hkey := ((h.counts (Row.width front)).mem_keys _).2 hlength
  rcases hlookup : t.histograms.lookup (Row.width front) with _ | k
  · rw [hlookup] at hkey
    cases hkey
  · rw [hlookup] at hkey
    obtain ⟨p, hp, heq⟩ := List.mem_map.1 hkey
    have hle : p.1 ≤ k.largest := Histogram.le_largest hp
    obtain ⟨g, hg, hlargest⟩ : ∃ g, t.retained.1.lookup (Row.width front) = some g ∧
        g.largest = k.largest :=
      Option.map_eq_some_iff.1 (hkept _ (Columns.mem_of_lookup hlookup))
    refine ⟨(g.largest : Int) + 2 * t.settings.minPadding, ?_, ?_⟩
    · rw [getElem?_columnWidths hcol, hg, Option.getD_some]
    · rw [hlargest]
      omega

/-- Where nothing had to be narrowed all bars line up: in each line that is drawn, the bar that
closes a cell stands where the divider has the bar behind the last column that the cell covers. So a
row that covers all columns is as long as the divider. -/
theorem bars_line_up (h : ofCalls settings fs = .ok t) (hpad : 0 ≤ settings.minPadding)
    (hkept : t.KeepsLargest) :
    ∃ lines divider, t.DrawnAs lines divider ∧
      (∀ (i : Nat) (row : Row), t.rows[i]? = some row → ∃ line, lines[i]? = some line ∧
        ShowsRow row (fun n => barOffset t.columnWidths (Row.width (row.take n))) line ∧
        (row.width = t.columnCount → line.length = divider.length)) ∧
      ∀ j < t.columnCount, ∃ text rest, divider = text ++ '|' :: rest ∧
        text.count '|' = j + 1 ∧ (text.length : Int) = barOffset t.columnWidths (j + 1) := by
  have hfilled := filled_of_ofCalls h
  rw [← hfilled.settings] at hpad
  have hwidths := nonneg_of_mem_columnWidths hpad
  refine ⟨_, _, t.drawnAs, fun i row hi => ?_, fun j hj => ?_⟩
  · have hrow : row ∈ t.rows := List.mem_of_getElem? hi
    have hspans : ∀ c ∈ row, 0 < c.span := fun c hc => (hfilled.cells row hrow c hc).1
    have hcols : row.width ≤ t.columnWidths.length :=
      length_columnWidths t ▸ width_le_columnCount hrow
    have hfits := (recorded_of_ofCalls h).fits hkept hrow hspans
    have hbar : ∀ n, (closingBar t.columnWidths t.settings.minPadding (row.take n) : Int) =
        barOffset t.columnWidths (Row.width (row.take n)) := fun n =>
      (closingBar_eq_of_fits hpad hwidths hspans hcols hfits _ (row.take_append_drop n).symm).2
    refine ⟨rowLine t.columnWidths t.settings.minPadding row, by simp [hi], ?_, fun hwidth => ?_⟩
    · exact (showsRow_rowLine _ _ row).congr fun n _ => hbar n
    · have hwhole := hbar row.length
      have hdivider := length_segments t.alignments hwidths
      rw [List.take_length] at hwhole
      rw [length_columnWidths, ← hwidth, ← hwhole] at hdivider
      rw [length_rowLine, dividerLine, List.length_cons, Nat.cast_inj.1 hdivider]
  · exact exists_dividerLine_eq t.alignments hwidths (length_columnWidths t ▸ hj)

/-- A cell over two columns with another one behind it, and a row of one cell. -/
def spanning : List Filling :=
  [.beginRow, .addCell "long" true (some (.ofList [("colspan", "2")])), .addCell "b" true none,
    .beginRow, .addCell "cc" false none]

theorem bars_line_up_spanning : ∃ t : Layout ℚ, ofCalls ⟨100, 1, 4 / 5⟩ spanning = .ok t ∧
    (0 : Int) ≤ 1 ∧ t.KeepsLargest ∧ ∃ lines divider line texts, t.DrawnAs lines divider ∧
      lines[0]? = some line ∧ line.length = divider.length ∧ line = '|' :: texts.flatten ∧
      List.Forall₂ Cell.Shows [⟨"long", 2⟩, ⟨"b", 1⟩] texts ∧ (texts.take 1).flatten.length = 10 ∧
      ∃ text rest, divider = text ++ '|' :: rest ∧ text.count '|' = 2 ∧ text.length = 10 := by
  obtain ⟨t, ht, hkept, hwidths, hcount, hrow⟩ : ∃ t : Layout ℚ,
      ofCalls ⟨100, 1, 4 / 5⟩ spanning = .ok t ∧ t.KeepsLargest ∧ t.columnWidths = [6, 2, 3] ∧
        t.columnCount = 3 ∧ t.rows[0]? = some [⟨"long", 2⟩, ⟨"b", 1⟩] :=
    ⟨_, rfl, by decide, by decide, by decide, by decide⟩
  obtain ⟨lines, divider, hdrawn, hlines, hdivider⟩ := bars_line_up ht (by decide) hkept
  obtain ⟨line, hline, ⟨texts, hshows, htexts, hplace⟩, hlength⟩ := hlines 0 _ hrow
  obtain ⟨text, rest, hsplit, hbars, htext⟩ := hdivider 1 (by rw [hcount]; decide)
  have hfirst := hplace 1 (by decide)
  rw [hwidths] at hfirst htext
  exact ⟨t, ht, by decide, hkept, lines, divider, line, texts, hdrawn, hline,
    hlength (by rw [hcount]; rfl), htexts, hshows, Int.ofNat_inj.1 hfirst, text, rest, hsplit,
    hbars, Int.ofNat_inj.1 htext⟩

end Layout

/-! ## Bars that are pushed -/

section Single

variable {widths : List Int} {minPadding : Int} {front : List Cell} {c d : Cell} {width : Int}

/-- What one more cell over one column adds to a row of such cells. -/
theorem closingBar_single (minPadding : Int) (hfront : ∀ x ∈ front, x.span = 1) (hc : c.span = 1)
    (hwidth : widths[front.length]? = some width) :
    closingBar widths minPadding (front ++ [c]) = closingBar widths minPadding front +
        paddedLength minPadding c.content.length (width - (carried widths 0 0 front : Int)) + 1 ∧
      carried widths 0 0 (front ++ [c]) =
        ((c.content.length : Int) - (width - (carried widths 0 0 front : Int))).toNat ∧
      barOffset widths (front.length + 1) = barOffset widths front.length + width + 1 := by
  obtain ⟨hlt, hget⟩ := List.getElem?_eq_some_iff.1 hwidth
  have hsum : ((widths.drop front.length).take 1).sum = width := by
    rw [List.drop_eq_getElem_cons hlt, hget, List.take_succ_cons, List.take_zero,
      List.sum_singleton]
  have hroom : room widths (Row.width front) (carried widths 0 0 front) c =
      width - (carried widths 0 0 front : Int) := by
    rw [room, hc, Row.width_eq_length hfront, hsum]
  refine ⟨?_, ?_, ?_⟩
  · rw [closingBar_concat, hroom, hc]
  · rw [carried_concat, hroom]
  · rw [barOffset_add hlt, hsum]
    rfl

/-- A bar is pushed at least as far as what is carried over to the next cell, and further only by
padding. -/
theorem carried_le_excess (minPadding : Int) {cells : List Cell} : (∀ c ∈ cells, c.span = 1) →
    cells.length ≤ widths.length →
    (carried widths 0 0 cells : Int) ≤
        closingBar widths minPadding cells - barOffset widths cells.length ∧
      (minPadding = 0 → (closingBar widths minPadding cells : Int) =
        barOffset widths cells.length + carried widths 0 0 cells) ∧
      (0 < minPadding → (closingBar widths minPadding cells : Int) =
          barOffset widths cells.length + carried widths 0 0 cells →
        carried widths 0 0 cells = 0) := by
  induction cells using List.reverseRecOn with
  | nil => exact fun _ _ => ⟨Int.le_refl 0, fun _ => rfl, fun _ _ => rfl⟩
  | append_singleton front c ih =>
    intro hsingle hlength
    have hfront : ∀ x ∈ front, x.span = 1 := fun x hx => hsingle x (List.mem_append_left _ hx)
    rw [List.length_append, List.length_singleton] at hlength ⊢
    obtain ⟨hle, hnone, hsome⟩ := ih hfront (by omega)
    obtain ⟨hbar, hcarried, hoffset⟩ := closingBar_single minPadding hfront (hsingle c (by simp))
      (List.getElem?_eq_getElem hlength)
    rw [hbar, hcarried, hoffset, paddedLength]
    refine ⟨?_, fun hpad => ?_, fun hpad heq => ?_⟩
    · omega
    · have hbefore := hnone hpad
      omega
    · have hbefore := hsome hpad (by omega)
      omega

end Single

namespace Layout

variable {ω : Type} [Weight ω] {t : Layout ω}

/-- The line that is drawn of a row of cells over one column each has its bars where `closingBar`
says. Where a cell has pushed the bar behind it, and the next cell has room to give up as much, the
next cell gives up only what the content of the first was too long. The bar behind it is back at its
place if there is no padding, and never if there is. -/
theorem closingBar_behind_overflow (front back : Row) {c d : Cell}
    (hrow : front ++ c :: d :: back ∈ t.rows)
    (hsingle : ∀ x ∈ front ++ c :: d :: back, x.span = 1) :
    let widths := t.columnWidths
    let padding := t.settings.minPadding
    let excess : Int :=
      closingBar widths padding (front ++ [c]) - barOffset widths (front.length + 1)
    let width := widths.getD (front.length + 1) 0
    t.DrawnAs (t.rows.map (rowLine widths padding)) (dividerLine t.alignments widths) ∧
    ShowsRow (front ++ c :: d :: back)
      (fun n => closingBar widths padding ((front ++ c :: d :: back).take n))
      (rowLine widths padding (front ++ c :: d :: back)) ∧
    (∀ before x behind, front ++ c :: d :: back = before ++ x :: behind → ∃ text rest,
      (drawRow widths padding (before ++ [x])).toList = text ++ ['|', '\n'] ∧
      (drawRow widths padding (front ++ c :: d :: back)).toList = text ++ '|' :: rest ∧
      text.length = closingBar widths padding (before ++ [x])) ∧
    (0 < excess → excess ≤ width - 2 * padding - d.content.length →
      ((closingBar widths padding (front ++ [c, d]) : Int) = barOffset widths (front.length + 2) ↔
        padding = 0) ∧
      (0 ≤ padding → (closingBar widths padding (front ++ [c, d]) : Int) =
        closingBar widths padding (front ++ [c]) +
          (width - (carried widths 0 0 (front ++ [c]) : Int)) + 1)) := by
  intro widths padding excess width
  refine ⟨t.drawnAs, showsRow_rowLine widths padding _, fun before x behind hsplit => ?_,
    fun hpushed hslack => ?_⟩
  · have hspan : x.span = 1 := hsingle x (by simp [hsplit])
    rw [hsplit]
    exact exists_drawRow_eq widths padding before behind (by omega)
  have hlt : front.length + 1 < widths.length := by
    have hcols := width_le_columnCount hrow
    rw [Row.width_eq_length hsingle, ← length_columnWidths, List.length_append, List.length_cons,
      List.length_cons] at hcols
    exact Nat.lt_of_lt_of_le (by omega) hcols
  have hfront : ∀ x ∈ front ++ [c], x.span = 1 := by
    intro x hx
    refine hsingle x ?_
    rw [List.append_cons]
    exact List.mem_append_left _ hx
  have hlength : (front ++ [c]).length = front.length + 1 := by simp
  have hwidth : widths[(front ++ [c]).length]? = some width := by
    rw [hlength, List.getElem?_eq_getElem hlt, List.getElem_eq_getD]
  obtain ⟨hle, hnone, hsome⟩ := carried_le_excess padding hfront (hlength ▸ Nat.le_of_lt hlt)
  obtain ⟨hbar, -, hoffset⟩ := closingBar_single padding hfront (hsingle d (by simp)) hwidth
  rw [hlength] at hle hnone hsome hoffset
  rw [List.append_assoc, List.singleton_append] at hbar
  rw [hbar, hoffset, paddedLength]
  refine ⟨⟨fun heq => ?_, fun hpad => ?_⟩, fun hpad => ?_⟩
  · by_contra hpad
    rcases Int.lt_or_gt_of_ne hpad with hneg | hpos
    · omega
    · have hdrift := hsome hpos
      omega
  · have hdrift := hnone hpad
    omega
  · omega

/-- A row whose first cell is wider than the column that is left to it, and two rows that are
narrower there. -/
def pushed : List Filling := rowCalls <| dataRows
  [["aaaa", "b"], ["a", "cccccccccc"], ["a", "cccccccccc"]]

theorem exists_pushed : ∃ t : Layout ℚ, ofCalls ⟨15, 1, 1 / 4⟩ pushed = .ok t ∧
    t.columnWidths = [3, 12] := ⟨_, rfl, by decide +kernel⟩

theorem closingBar_behind_overflow_pushed : ∃ t : Layout ℚ, ofCalls ⟨15, 1, 1 / 4⟩ pushed = .ok t ∧
    [⟨"aaaa", 1⟩, ⟨"b", 1⟩] ∈ t.rows ∧ (∀ x ∈ [(⟨"aaaa", 1⟩ : Cell), ⟨"b", 1⟩], x.span = 1) ∧
    0 < (closingBar t.columnWidths 1 [⟨"aaaa", 1⟩] : Int) - barOffset t.columnWidths 1 ∧
    (closingBar t.columnWidths 1 [⟨"aaaa", 1⟩] : Int) - barOffset t.columnWidths 1 ≤
      t.columnWidths.getD 1 0 - 2 * 1 - 1 ∧
    ((closingBar t.columnWidths 1 [⟨"aaaa", 1⟩, ⟨"b", 1⟩] : Int) = barOffset t.columnWidths 2 ↔
      (1 : Int) = 0) := by
  obtain ⟨t, ht, hwidths⟩ := exists_pushed
  have hsettings := (filled_of_ofCalls ht).settings
  have hrow : [⟨"aaaa", 1⟩, ⟨"b", 1⟩] ∈ t.rows := by
    rw [(filled_of_ofCalls ht).rows]
    decide
  have hsingle : ∀ x ∈ [(⟨"aaaa", 1⟩ : Cell), ⟨"b", 1⟩], x.span = 1 := by decide
  have hpushed : 0 < (closingBar t.columnWidths 1 [⟨"aaaa", 1⟩] : Int) -
      barOffset t.columnWidths 1 := by
    rw [hwidths]
    decide
  have hslack : (closingBar t.columnWidths 1 [⟨"aaaa", 1⟩] : Int) - barOffset t.columnWidths 1 ≤
      t.columnWidths.getD 1 0 - 2 * 1 - 1 := by
    rw [hwidths]
    decide
  have hbars := closingBar_behind_overflow [] [] hrow hsingle
  rw [hsettings] at hbars
  exact ⟨t, ht, hrow, hsingle, hpushed, hslack, (hbars.2.2.2 hpushed hslack).1⟩

/-- The second cell has more room than the first one took, and gives up only a part of it. -/
theorem pushed_not_back : ∃ t : Layout ℚ, ofCalls ⟨15, 1, 1 / 4⟩ pushed = .ok t ∧
    [⟨"aaaa", 1⟩, ⟨"b", 1⟩] ∈ t.rows ∧
    ¬ (0 < (closingBar t.columnWidths 1 [⟨"aaaa", 1⟩] : Int) - barOffset t.columnWidths 1 →
      (closingBar t.columnWidths 1 [⟨"aaaa", 1⟩] : Int) - barOffset t.columnWidths 1 ≤
        t.columnWidths.getD 1 0 - 2 * 1 - 1 →
      (closingBar t.columnWidths 1 [⟨"aaaa", 1⟩, ⟨"b", 1⟩] : Int) =
        barOffset t.columnWidths 2) := by
  obtain ⟨t, ht, hwidths⟩ := exists_pushed
  refine ⟨t, ht, ?_, ?_⟩
  · rw [(filled_of_ofCalls ht).rows]
    decide
  · rw [hwidths]
    decide

end Layout

end Markwright.Table
