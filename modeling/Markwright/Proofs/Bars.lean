import Mathlib.Algebra.GroupWithZero.Nat
import Mathlib.Data.List.DropRight
import Markwright.Proofs.Inserted
import Markwright.Session

/-!
# Bars

A bar divides two cells of a row unless an escape character protects it. Text that is escaped in a
table has no bar that divides, and neither has a label or a reference once it is escaped, if it had
none before (`Contained.label`, `Contained.reference`). So a row of cells that hold no such bar and
no line break is drawn as one line, with as many bars as its cells cover columns, and one in front
(`Table.rowLine_spec`).
-/

namespace Markwright

namespace Escape

/-- How many bars are not protected, told whether the first character is. -/
def bars : Bool → List Char → Nat
  | _, [] => 0
  | p, c :: cs => (if c = '|' ∧ p = false then 1 else 0) + bars (opens p c) cs

/-- What is written in a cell breaks neither its line nor its column. -/
structure Contained (cs : List Char) : Prop where
  breaks : '\n' ∉ cs
  bars : bars false cs = 0

/-- It does not protect what comes after it either. -/
structure Sealed (cs : List Char) : Prop extends Contained cs where
  rest : opensAfter false cs = false

/-- No part in tables, lines or escapes. -/
def isPlain (c : Char) : Bool := c != '|' && c != '\n' && c != escapeChar

section Pieces

variable {p : Bool} {a b cs : List Char} {c : Char}

theorem bars_append (a b : List Char) : ∀ p : Bool,
    bars p (a ++ b) = bars p a + bars (opensAfter p a) b := by
  induction a with
  | nil => simp [bars, opensAfter]
  | cons c a ih =>
    intro p
    rw [List.cons_append, bars, bars, ih, opensAfter]
    omega

theorem bars_eq_count (cs : List Char) :
    ∀ p : Bool, bars p cs = (reading p cs).count ('|', false) := by
  induction cs with
  | nil => simp [bars, reading]
  | cons c cs ih =>
    intro p
    rw [bars, ih, reading]
    by_cases ho : opens p c = true
    · have hc : c ≠ '|' := by
        rintro rfl
        cases p <;> cases ho
      rw [if_pos ho, ho, if_neg fun h => hc h.1, Nat.zero_add]
    · rw [if_neg ho, Bool.eq_false_iff.2 ho, List.count_cons, Nat.add_comm]
      simp

theorem ne_of_isPlain (h : isPlain c = true) : c ≠ '|' ∧ c ≠ '\n' ∧ c ≠ escapeChar := by
  simpa [isPlain, and_assoc] using h

theorem Sealed.nil : Sealed [] := ⟨⟨List.not_mem_nil, rfl⟩, rfl⟩

theorem Sealed.before (ha : Sealed a) (hb : Contained b) : Contained (a ++ b) := by
  refine ⟨fun h => (List.mem_append.1 h).elim ha.breaks hb.breaks, ?_⟩
  rw [bars_append, ha.bars, ha.rest, hb.bars]

theorem Sealed.append (ha : Sealed a) (hb : Sealed b) : Sealed (a ++ b) := by
  refine ⟨ha.before hb.toContained, ?_⟩
  rw [opensAfter_append, ha.rest, hb.rest]

/-- What comes before a plain character protects nothing behind it. -/
theorem Contained.close (ha : Contained a) (hc : isPlain c = true) (hb : Sealed b) :
    Sealed (a ++ c :: b) := by
  obtain ⟨hbar, hbreak, hescape⟩ := ne_of_isPlain hc
  have hone : Sealed (a ++ [c]) := by
    refine ⟨⟨?_, ?_⟩, opensAfter_concat false a hescape⟩
    · rw [List.mem_append, List.mem_singleton, not_or]
      exact ⟨ha.breaks, hbreak.symm⟩
    · rw [bars_append, ha.bars]
      simp [Escape.bars, hbar]
  rw [List.append_cons]
  exact hone.append hb

theorem sealed_of_isPlain (h : cs.all isPlain = true) : Sealed cs := by
  induction cs with
  | nil => exact .nil
  | cons c cs ih =>
    rw [List.all_cons, Bool.and_eq_true] at h
    exact Contained.close Sealed.nil.toContained h.1 (ih h.2)

theorem Contained.left (h : Contained (a ++ b)) : Contained a := by
  have hbars := h.bars
  rw [bars_append] at hbars
  exact ⟨fun hm => h.breaks (List.mem_append_left _ hm), by omega⟩

theorem Contained.right (h : Contained (a ++ b)) (ha : opensAfter false a = false) :
    Contained b := by
  have hbars := h.bars
  rw [bars_append, ha] at hbars
  exact ⟨fun hm => h.breaks (List.mem_append_right _ hm), by omega⟩

/-- Blanks at its ends may go. -/
theorem Contained.strip {s : String} (h : Contained s.toList) :
    Contained (Text.strip s).toList := by
  have hfront := List.takeWhile_append_dropWhile (p := Text.isBlank) (l := s.toList)
  have hrest : opensAfter false (s.toList.takeWhile Text.isBlank) = false := by
    refine opensAfter_of_forall_ne fun c hc => ?_
    rintro rfl
    exact absurd (List.mem_takeWhile_imp hc) (by decide)
  rw [← hfront] at h
  obtain ⟨back, hback⟩ := List.rdropWhile_prefix Text.isBlank (l := s.toList.dropWhile Text.isBlank)
  have hright := h.right hrest
  rw [← hback] at hright
  rw [Text.strip, String.toList_ofList, Text.trimBoth]
  exact hright.left

end Pieces

/-! ## Escaped text -/

section Escaped

variable {ctx : Context} {cs : List Char}

theorem ProtectsMore.not_mem {a b : List (Char × Bool)} {c : Char} (h : ProtectsMore a b)
    (ha : (c, false) ∉ a) : (c, false) ∉ b := by
  unfold ProtectsMore at h
  induction h with
  | nil => exact List.not_mem_nil
  | @cons m n a b hmn _ ih =>
    obtain ⟨hm, ha⟩ := not_or.1 (mt List.mem_cons.2 ha)
    rw [List.mem_cons, not_or]
    refine ⟨fun hn => hm ?_, ih ha⟩
    obtain ⟨d, marked⟩ := m
    subst hn
    obtain ⟨rfl, hmarked⟩ := hmn
    cases marked with
    | true => exact absurd (hmarked rfl) Bool.false_ne_true
    | false => rfl

/-- Where it takes no protection away, a backslash before each bar leaves none bare. -/
theorem bars_escapeEach (cs : List Char) : ∀ p : Bool,
    ProtectsMore (reading p cs) (reading p (escapeEach (· == '|') cs)) →
    bars p (escapeEach (· == '|') cs) = 0 := by
  induction cs with
  | nil => exact fun _ _ => rfl
  | cons c cs ih =>
    intro p h
    rw [escapeEach_cons] at h ⊢
    by_cases hc : c = '|'
    · subst hc
      cases p with
      | true =>
        -- The backslash would stand where the protected bar stood.
        obtain ⟨hm, -⟩ := (List.forall₂_cons.1 h).1
        cases hm
      | false =>
        have hrest := ih false (List.forall₂_cons.1 h).2
        simpa [bars, escapeChar, opens] using hrest
    · have hsame : (c == '|') = false := beq_false_of_ne hc
      simp only [hsame, Bool.false_eq_true, if_false, List.cons_append, List.nil_append] at h ⊢
      rw [bars, if_neg fun h => hc h.1, Nat.zero_add]
      rw [reading, reading] at h
      by_cases ho : opens p c = true
      · rw [if_pos ho, if_pos ho] at h
        exact ho ▸ ih true h
      · rw [if_neg ho, if_neg ho] at h
        rw [Bool.eq_false_iff.2 ho]
        exact ih false (List.forall₂_cons.1 h).2

theorem stage_bars (ctx : Context) (cs : List Char) :
    stage ctx 6 cs = guarded ctx.inTable (escapeEach (· == '|')) (stage ctx 5 cs) := rfl

theorem bars_escapeSpan (htable : ctx.inTable = true) (cs : List Char) :
    bars false (escapeSpan ctx cs) = 0 := by
  have hsix : bars false (stage ctx 6 cs) = 0 := by
    have hmore := protectsMore_marks ctx cs 5
    rw [marks, marks, stage_bars, htable] at hmore
    rw [stage_bars, htable]
    exact bars_escapeEach _ false hmore
  rw [bars_eq_count, List.count_eq_zero] at hsix
  have hten := (protectsMore_marks_of_le ctx cs (i := 6) (j := 10) (by omega)).not_mem hsix
  rw [bars_eq_count, List.count_eq_zero]
  exact hten

/-- Text that is escaped in a table divides nothing. -/
theorem sealed_escapeSpan (htable : ctx.inTable = true) (hcs : '\n' ∉ cs) :
    Sealed (escapeSpan ctx cs) :=
  ⟨⟨break_not_mem_escapeSpan ctx hcs, bars_escapeSpan htable cs⟩, (stages_spec ctx cs 9).1⟩

/-- The second text has escape characters besides, none of them before a bar or before another. -/
inductive Slashed : List Char → List Char → Prop
  | nil : Slashed [] []
  | keep {a b : List Char} (c : Char) : Slashed a b → Slashed (c :: a) (c :: b)
  | escape {a b : List Char} {c : Char} : c ≠ '|' → c ≠ escapeChar → Slashed a b →
    Slashed (c :: a) (escapeChar :: c :: b)

variable {a b : List Char}

theorem Slashed.bars (h : Slashed a b) : ∀ p : Bool, bars p b = bars p a := by
  induction h with
  | nil => exact fun _ => rfl
  | keep c _ ih =>
    intro p
    rw [Escape.bars, Escape.bars, ih]
  | @escape a b c hbar hescape _ ih =>
    intro p
    have hslash : escapeChar ≠ '|' := by decide
    simp only [Escape.bars, hbar, hslash, false_and, if_false, opens_of_ne hescape, ih,
      Nat.zero_add]

theorem Slashed.mem {c : Char} (h : Slashed a b) (hc : c ∈ b) : c = escapeChar ∨ c ∈ a := by
  induction h with
  | nil => cases hc
  | keep d _ ih =>
    rcases List.mem_cons.1 hc with rfl | hc
    · simp
    · exact (ih hc).imp_right (List.mem_cons_of_mem d)
  | @escape _ _ d _ _ _ ih =>
    rcases List.mem_cons.1 hc with rfl | hc
    · exact Or.inl rfl
    rcases List.mem_cons.1 hc with rfl | hc
    · simp
    · exact (ih hc).imp_right (List.mem_cons_of_mem d)

theorem Slashed.contained (h : Slashed a b) (ha : Contained a) : Contained b :=
  ⟨fun hmem => (h.mem hmem).elim (by decide) ha.breaks, (h.bars false).trans ha.bars⟩

theorem Inserts.slashed {K : List Char} (hK : ∀ c ∈ K, c ≠ '|' ∧ c ≠ escapeChar)
    (h : Inserts K a b) : Slashed a b := by
  induction h with
  | nil => exact .nil
  | keep c _ ih => exact .keep c ih
  | escape hc _ ih => exact .escape (hK _ hc).1 (hK _ hc).2 ih

theorem slashed_bracket (whole : Bool) (cs : List Char) :
    Slashed cs (Marker.bracket.escapeAll whole cs) := by
  have hK : ∀ c ∈ ['[', ']'], c ≠ '|' ∧ c ≠ escapeChar := by simp [escapeChar]
  refine (inserts_escapeAll (fun {whole c cs h} hh => ?_) whole cs).slashed hK
  rcases cs with _ | ⟨d, cs⟩
  · cases hh
  · simp only [Marker.bracket] at hh
    split at hh <;> cases hh
    rename_i hd
    exact Inserts.insertEscapes [c] _ (by simpa using hd.2)

theorem slashed_parenthesis (whole : Bool) (cs : List Char) :
    Slashed cs (Marker.parenthesis.escapeAll whole cs) := by
  have hK : ∀ c ∈ ['(', ')'], c ≠ '|' ∧ c ≠ escapeChar := by simp [escapeChar]
  refine (inserts_escapeAll (fun {whole c cs h} hh => ?_) whole cs).slashed hK
  simp only [Marker.parenthesis] at hh
  split at hh <;> cases hh
  rename_i hc
  exact inserts_escape_zero (by simpa using hc) _ _

theorem Contained.label {s : String} (h : Contained s.toList) : Contained (label s).toList := by
  rw [Escape.label, String.toList_ofList]
  exact (slashed_bracket true _).contained h

theorem Contained.reference {s : String} (h : Contained s.toList) :
    Contained (reference s).toList := by
  rw [Escape.reference, String.toList_ofList]
  exact (slashed_parenthesis true _).contained h

end Escaped

end Escape

open Escape (Contained Sealed bars)

/-! ## Markup -/

namespace Session

variable {style : Style} {r : Reference}

theorem sealed_openMarkup (f : Format) : Sealed (openMarkup f).toList := by
  refine Escape.sealed_of_isPlain ?_
  cases f <;> decide

theorem sealed_closeMarkup (f : Format) : Sealed (closeMarkup f).toList := by
  refine Escape.sealed_of_isPlain ?_
  cases f <;> decide

theorem sealed_code {code : String} (h : Contained code.toList) :
    Sealed (Code.inLine code).toList := by
  have hticks : ∀ marker, marker = ['\x60'] ∨ marker = ['\x60', '\x60'] →
      Sealed (marker ++ code.toList ++ marker) := by
    rintro marker (rfl | rfl)
    · exact ((Escape.sealed_of_isPlain (by decide)).before h).close (by decide) .nil
    · exact ((Escape.sealed_of_isPlain (by decide)).before h).close (by decide)
        (Escape.sealed_of_isPlain (by decide))
  rw [Code.inLine, String.toList_append, String.toList_append]
  split
  · exact hticks _ (Or.inr rfl)
  · exact hticks _ (Or.inl rfl)

theorem sealed_target {title : Option String} (hr : Contained (style.address r).toList)
    (ht : ∀ t, title = some t → Contained t.toList) : Sealed (target style r title).toList := by
  have hopen : Contained ("(".toList ++ (Escape.reference (style.address r)).toList) :=
    (Escape.sealed_of_isPlain (by decide)).before hr.reference
  have hplain : Sealed ("(".toList ++ (Escape.reference (style.address r)).toList ++ ")".toList) :=
    hopen.close (by decide) .nil
  unfold target
  rw [String.toList_append, String.toList_append, String.toList_append]
  rcases title with _ | t
  · simpa using hplain
  · dsimp only
    split
    · simpa using hplain
    · have hquoted : Contained ("(".toList ++ (Escape.reference (style.address r)).toList ++
          " \"".toList ++ t.toList) :=
        (hopen.close (by decide) (Escape.sealed_of_isPlain (by decide))).before (ht t rfl)
      have hend : Sealed [')'] := Escape.sealed_of_isPlain (by decide)
      have hall := hquoted.close (c := '"') (by decide) hend
      simpa using hall

theorem sealed_labelled {label : String} {title : Option String} {mark : List Char}
    (hmark : Sealed mark) (hlabel : Contained label.toList)
    (hr : Contained (style.address r).toList)
    (ht : ∀ t, title = some t → Contained t.toList) :
    Sealed (mark ++ (Escape.label label).toList ++ ']' :: (target style r title).toList) :=
  (hmark.before hlabel.label).close (by decide) (sealed_target hr ht)

theorem sealed_linkText {label : String} {q : Option Parameters} (hlabel : Contained label.toList)
    (hr : Contained (style.address r).toList)
    (ht : ∀ t, lookupIn q "title" = some t → Contained t.toList) :
    Sealed (linkText style r label q).toList := by
  rw [linkText]
  split
  · have hopen : Sealed ['[', '['] := Escape.sealed_of_isPlain (by decide)
    have hend : Sealed [']'] := Escape.sealed_of_isPlain (by decide)
    have hall := (hopen.before hr.label).close (c := ']') (by decide) hend
    simpa using hall
  · have hopen : Sealed ['['] := Escape.sealed_of_isPlain (by decide)
    have hall := sealed_labelled hopen hlabel hr ht
    simpa using hall

end Session

/-! ## Tables -/

namespace Table

theorem sealed_replicate (n : Nat) : Sealed (List.replicate n ' ') := by
  refine Escape.sealed_of_isPlain (List.all_eq_true.2 fun c hc => ?_)
  rw [(List.mem_replicate.1 hc).2]
  decide

/-- A cell with its padding, as wide as may be. -/
theorem toList_padded (minPadding : Int) (content : String) (width : Nat) : ∃ n,
    (Text.padRight width (spaces minPadding ++ content) ++ spaces minPadding).toList =
      List.replicate minPadding.toNat ' ' ++ content.toList ++
        List.replicate (n + minPadding.toNat) ' ' := by
  refine ⟨width - (spaces minPadding ++ content).length, ?_⟩
  rw [String.toList_append, Text.toList_padRight, String.toList_append, List.append_assoc, spaces,
    String.toList_ofList, List.replicate_append_replicate]

/-- A cell has a space behind it. -/
theorem sealed_padded {minPadding : Int} {content : String} (hpad : 1 ≤ minPadding)
    (h : Contained content.toList) (width : Nat) :
    Sealed (Text.padRight width (spaces minPadding ++ content) ++ spaces minPadding).toList := by
  obtain ⟨n, hn⟩ := toList_padded minPadding content width
  obtain ⟨m, hm⟩ : ∃ m, n + minPadding.toNat = m + 1 := ⟨n + minPadding.toNat - 1, by omega⟩
  rw [hn, hm, List.replicate_succ]
  exact ((sealed_replicate minPadding.toNat).before h).close (by decide) (sealed_replicate m)

theorem bars_replicate (n : Nat) : ∀ cs : List Char,
    bars false (List.replicate n '|' ++ cs) = n + bars false cs := by
  induction n with
  | zero => simp
  | succ n ih =>
    intro cs
    rw [List.replicate_succ, List.cons_append, bars, if_pos ⟨rfl, rfl⟩]
    have hrest : Escape.opens false '|' = false := rfl
    rw [hrest, ih]
    omega

/-- Cells are drawn on one line, each with as many bars behind it as it covers columns. -/
theorem drawCells_spec (widths : List Int) {minPadding : Int} (hpad : 1 ≤ minPadding) :
    ∀ {cells : List Cell}, (∀ c ∈ cells, Contained c.content.toList) → ∀ col overflow : Nat,
      '\n' ∉ (drawCells widths minPadding col overflow cells).toList ∧
        bars false (drawCells widths minPadding col overflow cells).toList =
          (cells.map Cell.span).sum
  | [], _, _, _ => ⟨List.not_mem_nil, rfl⟩
  | c :: rest, h, col, overflow => by
    have hcell := sealed_padded hpad (h c (by simp))
    have hrest := drawCells_spec widths hpad (fun d hd => h d (List.mem_cons_of_mem c hd))
      (col + c.span)
    rw [drawCells, String.toList_append, String.toList_append, List.append_assoc,
      Text.toList_times '|' rfl]
    refine ⟨?_, ?_⟩
    · rw [List.mem_append, List.mem_append, not_or, not_or]
      exact ⟨(hcell _).breaks, fun hm => absurd (List.mem_replicate.1 hm).2 (by decide),
        (hrest _).1⟩
    · rw [Escape.bars_append, (hcell _).bars, (hcell _).rest, bars_replicate, (hrest _).2,
        List.map_cons, List.sum_cons, Nat.zero_add]

/-- The line of a row. -/
def rowLine (widths : List Int) (minPadding : Int) (row : Row) : List Char :=
  '|' :: (drawCells widths minPadding 0 0 row).toList

theorem toList_drawRow (widths : List Int) (minPadding : Int) (row : Row) :
    (drawRow widths minPadding row).toList = rowLine widths minPadding row ++ ['\n'] := by
  rw [drawRow, String.toList_append, String.toList_append]
  rfl

theorem rowLine_spec (widths : List Int) {minPadding : Int} (hpad : 1 ≤ minPadding) {row : Row}
    (h : ∀ c ∈ row, Contained c.content.toList) :
    '\n' ∉ rowLine widths minPadding row ∧
      bars false (rowLine widths minPadding row) = (row.map Cell.span).sum + 1 := by
  obtain ⟨hbreak, hbars⟩ := drawCells_spec widths hpad h 0 0
  refine ⟨by simpa [rowLine] using hbreak, ?_⟩
  rw [rowLine, bars, if_pos ⟨rfl, rfl⟩]
  have hrest : Escape.opens false '|' = false := rfl
  rw [hrest, hbars]
  omega

theorem eq_of_mem_dividerSegment {a : Alignment} {width : Int} {c : Char}
    (hc : c ∈ (dividerSegment a width).toList) : c = ':' ∨ c = '-' := by
  rw [dividerSegment, String.toList_ofList] at hc
  obtain ⟨i, -, rfl⟩ := List.mem_map.1 hc
  split
  · exact Or.inl rfl
  · exact Or.inr rfl

theorem exists_divider (alignments : Columns Alignment) (widths : List Int) :
    ∃ line, '\n' ∉ line ∧ (divider alignments widths).toList = line ++ ['\n'] := by
  refine ⟨_, ?_, String.toList_append⟩
  rw [String.toList_append, String.toList_join, List.mem_append, not_or]
  refine ⟨by decide, fun hmem => ?_⟩
  obtain ⟨segment, hsegment, hmem⟩ := List.mem_flatMap.1 hmem
  obtain ⟨w, -, rfl⟩ := List.mem_map.1 hsegment
  rw [String.toList_append] at hmem
  rcases List.mem_append.1 hmem with hmem | hmem
  · exact absurd (eq_of_mem_dividerSegment hmem) (by decide)
  · exact absurd hmem (by decide)

theorem toList_rows (widths : List Int) (minPadding : Int) (rows : List Row) :
    (String.join (rows.map (drawRow widths minPadding))).toList =
      (rows.map (rowLine widths minPadding)).flatMap fun line => line ++ ['\n'] := by
  rw [String.toList_join, List.flatMap_map, List.flatMap_map]
  simp only [toList_drawRow]

theorem Layout.exists_draw {ω : Type} [Weight ω] (t : Layout ω) (hrows : t.rows ≠ []) :
    ∃ rest, t.draw.toList = '|' :: rest := by
  rw [draw, if_neg (by simpa using hrows)]
  dsimp only
  rw [String.toList_append, String.toList_append, toList_rows]
  rcases t.rows.take t.headerRows with _ | ⟨row, rest⟩
  · rw [divider, String.toList_append, String.toList_append]
    exact ⟨_, rfl⟩
  · exact ⟨_, rfl⟩

/-- The lines that a table is drawn as. -/
theorem Layout.toList_draw {ω : Type} [Weight ω] (t : Layout ω) (hrows : t.rows ≠ [])
    {line : List Char} (hline : (divider t.alignments t.columnWidths).toList = line ++ ['\n']) :
    t.draw.toList =
      ((t.rows.take t.headerRows).map (rowLine t.columnWidths t.settings.minPadding) ++
        line :: (t.rows.drop t.headerRows).map
          (rowLine t.columnWidths t.settings.minPadding)).flatMap fun line => line ++ ['\n'] := by
  have hdraw : t.draw = String.join ((t.rows.take t.headerRows).map
      (drawRow t.columnWidths t.settings.minPadding)) ++ divider t.alignments t.columnWidths ++
      String.join ((t.rows.drop t.headerRows).map
        (drawRow t.columnWidths t.settings.minPadding)) := by
    rw [draw, if_neg (by simpa using hrows)]
  rw [hdraw, String.toList_append, String.toList_append, toList_rows, toList_rows, hline,
    List.flatMap_append, List.flatMap_cons, List.append_assoc]

/-- A table is drawn as lines, one for each row and the divider behind the header rows. -/
theorem Layout.draw_lines {ω : Type} [Weight ω] (t : Layout ω) (hrows : t.rows ≠ [])
    (hpad : 1 ≤ t.settings.minPadding)
    (h : ∀ row ∈ t.rows, ∀ c ∈ row, Contained c.content.toList) :
    ∃ top divider bottom, t.draw.toList =
        (top ++ divider :: bottom).flatMap (fun line => line ++ ['\n']) ∧
      (∀ line ∈ top ++ divider :: bottom, '\n' ∉ line) ∧
      top.length = min t.headerRows t.rows.length ∧
      (top ++ bottom).map (bars false) = t.rows.map fun row => (row.map Cell.span).sum + 1 := by
  obtain ⟨line, hline, hdivider⟩ := exists_divider t.alignments t.columnWidths
  have hspec := fun row hrow => rowLine_spec t.columnWidths hpad (h row hrow)
  have hbreak : ∀ rows : List Row, (∀ row ∈ rows, row ∈ t.rows) →
      ∀ l ∈ rows.map (rowLine t.columnWidths t.settings.minPadding), '\n' ∉ l := by
    intro rows hsub l hl
    obtain ⟨row, hrow, rfl⟩ := List.mem_map.1 hl
    exact (hspec row (hsub row hrow)).1
  refine ⟨_, line, _, t.toList_draw hrows hdivider, ?_, ?_, ?_⟩
  · intro l hl
    rcases List.mem_append.1 hl with hl | hl
    · exact hbreak _ (fun row => List.mem_of_mem_take) l hl
    · rcases List.mem_cons.1 hl with rfl | hl
      · exact hline
      · exact hbreak _ (fun row => List.mem_of_mem_drop) l hl
  · rw [List.length_map, List.length_take]
  · rw [← List.map_append, List.take_append_drop, List.map_map]
    exact List.map_congr_left fun row hrow => (hspec row hrow).2

end Table

end Markwright
