import Mathlib.Data.List.DropRight
import Markwright.Proofs.Bars
import Markwright.Proofs.Filling

/-!
# Tables that are read back

A row is read from its line by cutting the line at the bars that divide. A piece with something in
it is a cell, and each empty piece behind it is one more column that the cell covers. A cell that is
drawn has its padding around it and so is never taken for an empty piece, however wide its column is
and whatever the cell before it took from its room (`readRow_rowLine`). So the rows of a table that
was filled are all there in what it is drawn as (`Layout.draw_readBack`).
-/

namespace Markwright

namespace Text

variable {p : Char → Bool} {a b cs : List Char}

theorem trimBoth_around (ha : ∀ c ∈ a, p c = true) (hb : ∀ c ∈ b, p c = true) :
    trimBoth p (a ++ cs ++ b) = trimBoth p cs := by
  have hback : ∀ ds : List Char, (ds ++ b).rdropWhile p = ds.rdropWhile p := by
    intro ds
    rw [List.rdropWhile, List.reverse_append, List.dropWhile_append_of_pos, List.rdropWhile]
    simpa using hb
  change ((a ++ cs ++ b).dropWhile p).rdropWhile p = (cs.dropWhile p).rdropWhile p
  rw [List.append_assoc, List.dropWhile_append_of_pos ha, List.dropWhile_append]
  split
  · rename_i hempty
    rw [List.isEmpty_iff.1 hempty, ← hback [], List.nil_append, List.dropWhile_eq_nil_iff.2 hb,
      List.rdropWhile_eq_nil_iff.2 hb]
    rfl
  · exact hback _

theorem trimBoth_trimBoth (p : Char → Bool) (cs : List Char) :
    trimBoth p (trimBoth p cs) = trimBoth p cs := by
  have hfront := List.takeWhile_append_dropWhile (p := p) (l := cs)
  have hback := List.rdropWhile_append_rtakeWhile (p := p) (l := cs.dropWhile p)
  have hcs : cs.takeWhile p ++ trimBoth p cs ++ (cs.dropWhile p).rtakeWhile p = cs := by
    rw [List.append_assoc]
    exact (congrArg _ hback).trans hfront
  have htrim : trimBoth p (cs.takeWhile p ++ trimBoth p cs ++ (cs.dropWhile p).rtakeWhile p) =
      trimBoth p (trimBoth p cs) :=
    trimBoth_around (fun _ => List.mem_takeWhile_imp) fun _ => List.mem_rtakeWhile_imp
  rw [hcs] at htrim
  exact htrim.symm

theorem strip_strip (s : String) : strip (strip s) = strip s := by
  rw [strip, strip, String.toList_ofList, trimBoth_trimBoth]

/-- Spaces around a text do not count. -/
theorem strip_spaced (m n : Nat) (s : String) :
    strip (String.ofList (List.replicate m ' ' ++ s.toList ++ List.replicate n ' ')) = strip s := by
  have hspace : ∀ k, ∀ c ∈ List.replicate k ' ', isBlank c = true := by
    intro k c hc
    rw [(List.mem_replicate.1 hc).2]
    exact isBlank_space
  rw [strip, String.toList_ofList, trimBoth_around (hspace m) (hspace n), strip]

end Text

namespace Escape

/-- The pieces between the bars that divide, told whether the first character is protected. -/
def pieces : Bool → List Char → List (List Char)
  | _, [] => [[]]
  | p, c :: cs =>
    if c = '|' ∧ p = false then [] :: pieces (opens p c) cs
    else (pieces (opens p c) cs).modifyHead (c :: ·)

theorem pieces_bar (cs : List Char) : pieces false ('|' :: cs) = [] :: pieces false cs := by
  rw [pieces, if_pos ⟨rfl, rfl⟩]
  rfl

/-- Up to its end, a text without dividing bars is one piece. -/
theorem pieces_append_bar {a : List Char} (cs : List Char) : ∀ {p : Bool}, bars p a = 0 →
    opensAfter p a = false → pieces p (a ++ '|' :: cs) = a :: pieces false cs := by
  induction a with
  | nil =>
    rintro p - rfl
    exact pieces_bar cs
  | cons c a ih =>
    intro p hbars hrest
    rw [bars, Nat.add_eq_zero_iff] at hbars
    have hc : ¬ (c = '|' ∧ p = false) := fun h => by simp [h] at hbars
    rw [List.cons_append, pieces, if_neg hc, ih hbars.2 hrest, List.modifyHead_cons]

theorem pieces_replicate_bar (cs : List Char) (n : Nat) :
    pieces false (List.replicate n '|' ++ cs) = List.replicate n [] ++ pieces false cs := by
  induction n with
  | zero => rfl
  | succ n ih =>
    rw [List.replicate_succ, List.cons_append, pieces_bar, ih]
    rfl

end Escape

open Escape (Contained Sealed bars pieces pieces_append_bar pieces_replicate_bar pieces_bar)

namespace Table

/-! ## Rows -/

/-- The cells that pieces spell: each piece with something in it is one, and covers one more column
for each empty piece right behind it. -/
def gather : List (List Char) → Row
  | [] => []
  | piece :: rest =>
    if piece.isEmpty then gather rest
    else ⟨Text.strip (String.ofList piece), 1 + (rest.takeWhile List.isEmpty).length⟩ :: gather rest

/-- The row that a line holds between its outer bars. -/
def readRow (line : List Char) : Row := gather (pieces false line).tail.dropLast

theorem gather_replicate (n : Nat) (ps : List (List Char)) :
    gather (List.replicate n [] ++ ps) = gather ps := by
  induction n with
  | zero => rfl
  | succ n ih =>
    rw [List.replicate_succ, List.cons_append, gather, if_pos List.isEmpty_nil, ih]

/-- A piece takes the empty pieces up to the next one that is not empty. -/
theorem gather_cons {piece : List Char} (hpiece : piece ≠ []) (n : Nat) {ps : List (List Char)}
    (hps : ps.head? ≠ some []) : gather (piece :: (List.replicate n [] ++ ps)) =
      ⟨Text.strip (String.ofList piece), n + 1⟩ :: gather ps := by
  have hstop : ps.takeWhile List.isEmpty = [] := by
    rcases ps with _ | ⟨q, ps⟩
    · rfl
    · refine List.takeWhile_cons_of_neg fun hq => hps ?_
      rw [List.head?_cons, List.isEmpty_iff.1 hq]
  have hrun : ((List.replicate n [] ++ ps).takeWhile List.isEmpty).length = n := by
    rw [List.takeWhile_append_of_pos fun q hq => by rw [(List.mem_replicate.1 hq).2]; rfl, hstop,
      List.append_nil, List.length_replicate]
  rw [gather, if_neg (by simpa using hpiece), hrun, gather_replicate, Nat.add_comm]

/-- A cell that can be read back. -/
structure Cell.Legible (c : Cell) : Prop where
  span : 0 < c.span
  stripped : Text.strip c.content = c.content
  contained : Contained c.content.toList

variable (widths : List Int) {minPadding : Int}

/-- The pieces of the cells, the last of which ends in a bar. -/
theorem exists_pieces_drawCells (hpad : 1 ≤ minPadding) : ∀ {cells : List Cell},
    (∀ c ∈ cells, c.Legible) → ∀ col overflow : Nat, ∃ ps,
      pieces false (drawCells widths minPadding col overflow cells).toList = ps ++ [[]] ∧
        ps.head? ≠ some [] ∧ gather ps = cells
  | [], _, _, _ => ⟨[], rfl, nofun, rfl⟩
  | c :: rest, h, col, overflow => by
    have hc := h c (by simp)
    obtain ⟨n, hspan⟩ : ∃ n, c.span = n + 1 := ⟨c.span - 1, by have := hc.span; omega⟩
    -- The room may be too small or even negative: the cell has its padding all the same.
    let room : Int := ((widths.drop col).take c.span).foldr (· + ·) 0 - (overflow : Int)
    let text := Text.padRight (room - minPadding).toNat (spaces minPadding ++ c.content) ++
      spaces minPadding
    obtain ⟨ps, hps, hhead, hgather⟩ := exists_pieces_drawCells hpad
      (fun d hd => h d (List.mem_cons_of_mem c hd)) (col + c.span)
      ((c.content.length : Int) - room).toNat
    have hdraw : (drawCells widths minPadding col overflow (c :: rest)).toList =
        text.toList ++ '|' :: (List.replicate n '|' ++ (drawCells widths minPadding (col + c.span)
          ((c.content.length : Int) - room).toNat rest).toList) := by
      rw [drawCells, String.toList_append, String.toList_append, Text.toList_times '|' rfl,
        List.append_assoc, ← List.cons_append, ← List.replicate_succ, ← hspan]
    have hsealed : Sealed text.toList := sealed_padded hpad hc.contained _
    obtain ⟨k, hk⟩ : ∃ k, text.toList = List.replicate minPadding.toNat ' ' ++ c.content.toList ++
      List.replicate (k + minPadding.toNat) ' ' := toList_padded minPadding c.content _
    have hne : text.toList ≠ [] := by
      have hlen := congrArg List.length hk
      simp only [List.length_append, List.length_replicate] at hlen
      exact List.length_pos_iff.1 (by omega)
    have hstrip : Text.strip (String.ofList text.toList) = c.content := by
      rw [hk, Text.strip_spaced, hc.stripped]
    refine ⟨text.toList :: (List.replicate n [] ++ ps), ?_, ?_, ?_⟩
    · rw [hdraw, pieces_append_bar _ hsealed.bars hsealed.rest, pieces_replicate_bar, hps,
        List.cons_append, List.append_assoc]
    · rw [List.head?_cons]
      exact fun heq => hne (Option.some.inj heq)
    · rw [gather_cons hne n hhead, hstrip, hgather, ← hspan]

/-- A row is read back from its line. -/
theorem readRow_rowLine (hpad : 1 ≤ minPadding) {row : Row} (h : ∀ c ∈ row, c.Legible) :
    readRow (rowLine widths minPadding row) = row := by
  obtain ⟨ps, hps, -, hgather⟩ := exists_pieces_drawCells widths hpad h 0 0
  rw [readRow, rowLine, pieces_bar, hps, List.tail_cons, List.dropLast_concat, hgather]

/-! ## Tables -/

namespace Layout

variable {ω : Type} {settings : Settings ω} {fs : List Filling} {t : Layout ω}

theorem Filled.legible (h : t.Filled settings fs)
    (hcontents : ∀ content isHeader q, .addCell content isHeader q ∈ fs →
      Contained (Text.strip content).toList) : ∀ row ∈ t.rows, ∀ c ∈ row, c.Legible := by
  intro row hrow c hc
  obtain ⟨hspan, content, isHeader, q, hmem, hcontent⟩ := h.cells row hrow c hc
  refine ⟨hspan, ?_, ?_⟩
  · rw [hcontent, Text.strip_strip]
  · rw [hcontent]
    exact hcontents content isHeader q hmem

variable [Weight ω]

/-- What a filled table is drawn as is a line for each row and the divider, which stands behind the
header rows. The rows that were asked for are read back from the other lines. -/
theorem draw_readBack (h : ofCalls settings fs = .ok t) (hpad : 1 ≤ settings.minPadding)
    (hcontents : ∀ content isHeader q, .addCell content isHeader q ∈ fs →
      Contained (Text.strip content).toList) (hrows : filledRows fs ≠ []) :
    ∃ (lines : List (List Char)) (dashes : List Char),
      t.draw.toList = lines.flatMap (fun line => line ++ ['\n']) ∧
      (∀ line ∈ lines, '\n' ∉ line) ∧ lines.length = (filledRows fs).length + 1 ∧
      (divider t.alignments t.columnWidths).toList = dashes ++ ['\n'] ∧
      lines[t.headerRows]? = some dashes ∧
      (lines.eraseIdx t.headerRows).map readRow = filledRows fs := by
  have hfilled := filled_of_ofCalls h
  have hlegible := hfilled.legible hcontents
  rw [← hfilled.rows] at hrows ⊢
  rw [← hfilled.settings] at hpad
  obtain ⟨dashes, hbreak, hdivider⟩ := exists_divider t.alignments t.columnWidths
  let line := rowLine t.columnWidths t.settings.minPadding
  let top := (t.rows.take t.headerRows).map line
  let bottom := (t.rows.drop t.headerRows).map line
  have htop : top.length = t.headerRows := by
    rw [List.length_map, List.length_take, Nat.min_eq_left hfilled.headerRows]
  have hjoin : top ++ bottom = t.rows.map line := by
    rw [← List.map_append, List.take_append_drop]
  refine ⟨top ++ dashes :: bottom, dashes, t.toList_draw hrows hdivider, ?_, ?_, hdivider, ?_, ?_⟩
  · have hlines : ∀ l ∈ top ++ bottom, '\n' ∉ l := by
      rw [hjoin]
      intro l hl
      obtain ⟨row, hrow, rfl⟩ := List.mem_map.1 hl
      exact (rowLine_spec t.columnWidths hpad fun c hc => (hlegible row hrow c hc).contained).1
    intro l hl
    rcases List.mem_append.1 hl with hl | hl
    · exact hlines l (List.mem_append_left _ hl)
    · rcases List.mem_cons.1 hl with rfl | hl
      · exact hbreak
      · exact hlines l (List.mem_append_right _ hl)
  · have hlen : top.length + bottom.length = t.rows.length := by
      rw [← List.length_append, hjoin, List.length_map]
    rw [List.length_append, List.length_cons, ← hlen, Nat.add_assoc]
  · rw [← htop, List.getElem?_append_right (Nat.le_refl _), Nat.sub_self, List.getElem?_cons_zero]
  · rw [← htop, List.eraseIdx_append_of_length_le (Nat.le_refl _), Nat.sub_self,
      List.eraseIdx_cons_zero, hjoin, List.map_map]
    have hread : ∀ row ∈ t.rows, (readRow ∘ line) row = row := fun row hrow =>
      readRow_rowLine t.columnWidths hpad (hlegible row hrow)
    rw [List.map_congr_left hread, List.map_id']

/-- A header row with a cell over two columns and an empty one, a row without cells, and one whose
bar is protected. -/
def ragged : List Filling :=
  [.beginRow, .addCell " long " true (some (.ofList [("colspan", "2")])), .addCell "" true none,
    .beginRow, .beginRow, .addCell "a\\|b" false none]

theorem draw_readBack_ragged : ∃ (t : Layout Float) (lines : List (List Char)),
    ofCalls ⟨6, 1, 0.8⟩ ragged = .ok t ∧
      t.draw.toList = lines.flatMap (fun line => line ++ ['\n']) ∧ lines.length = 4 ∧
      (lines.eraseIdx t.headerRows).map readRow =
        [[⟨"long", 2⟩, ⟨"", 1⟩], [], [⟨"a\\|b", 1⟩]] := by
  obtain ⟨t, ht⟩ : ∃ t, ofCalls (⟨6, 1, 0.8⟩ : Settings Float) ragged = .ok t := ⟨_, rfl⟩
  have hcontents : ∀ content isHeader q, .addCell content isHeader q ∈ ragged →
      Contained (Text.strip content).toList := by
    intro content isHeader q hmem
    simp only [ragged, List.mem_cons, Filling.addCell.injEq, reduceCtorEq, List.not_mem_nil,
      false_or, or_false] at hmem
    rcases hmem with ⟨rfl, -, -⟩ | ⟨rfl, -, -⟩ | ⟨rfl, -, -⟩ <;> exact ⟨by decide, by decide⟩
  obtain ⟨lines, dashes, hdraw, -, hlength, -, -, hread⟩ :=
    draw_readBack ht (by decide) hcontents (by decide)
  have hrows : filledRows ragged = [[⟨"long", 2⟩, ⟨"", 1⟩], [], [⟨"a\\|b", 1⟩]] := by decide
  rw [hrows] at hlength hread
  exact ⟨t, lines, ht, hdraw, hlength, hread⟩

end Layout

end Table

end Markwright
