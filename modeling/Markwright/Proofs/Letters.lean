import Markwright.Proofs.Cells
import Markwright.Proofs.Escaping
import Markwright.Proofs.Tokens
import Markwright.Session

/-!
# The letters of a text

Markup has no letters: neither escape characters nor paddings, dividers and bars are letters. So
the letters of an escaped text are those of the text (`letters_markdown`), and the letters of a
table that is drawn are those of its cells, row by row (`letters_draw`).
-/

namespace Markwright

namespace Text

/-- The ASCII letters of a text, in order. -/
def letters (s : String) : List Char := s.toList.filter Char.isAlpha

@[simp] theorem letters_empty : letters "" = [] := rfl

@[simp] theorem letters_ofList (cs : List Char) :
    letters (String.ofList cs) = cs.filter Char.isAlpha := by
  simp [letters]

@[simp] theorem letters_append (s t : String) : letters (s ++ t) = letters s ++ letters t := by
  simp [letters]

theorem letters_join (l : List String) : letters (String.join l) = l.flatMap letters := by
  induction l with
  | nil => rfl
  | cons s l ih => rw [String.join_cons, letters_append, ih, List.flatMap_cons]

theorem letters_times {s : String} (h : letters s = []) (n : Nat) : letters (times n s) = [] := by
  rw [times, letters_join]
  simp [h]

theorem range_of_isAlpha {c : Char} (h : c.isAlpha = true) :
    (65 ≤ c.toNat ∧ c.toNat ≤ 90) ∨ (97 ≤ c.toNat ∧ c.toNat ≤ 122) := by
  rcases (Bool.or_eq_true _ _).mp h with h | h
  · obtain ⟨hlow, hhigh⟩ := of_decide_eq_true h
    exact Or.inl ⟨UInt32.le_iff_toNat_le.1 hlow, UInt32.le_iff_toNat_le.1 hhigh⟩
  · obtain ⟨hlow, hhigh⟩ := (Bool.and_eq_true _ _).mp h
    exact Or.inr ⟨UInt32.le_iff_toNat_le.1 (of_decide_eq_true hlow),
      UInt32.le_iff_toNat_le.1 (of_decide_eq_true hhigh)⟩

theorem isAlpha_of_isBlank {c : Char} (h : isBlank c = true) : c.isAlpha = false := by
  refine Bool.eq_false_iff.2 fun ha => ?_
  have hrange := range_of_isAlpha ha
  simp only [isBlank, inRanges, blankRanges, List.any_cons, List.any_nil, Bool.or_eq_true,
    Bool.and_eq_true, decide_eq_true_eq, Bool.or_false] at h
  omega

theorem filter_dropWhile {p q : Char → Bool} (h : ∀ c, p c = true → q c = false) :
    ∀ cs : List Char, (cs.dropWhile p).filter q = cs.filter q
  | [] => rfl
  | c :: cs => by
    rw [List.dropWhile_cons]
    split
    · rename_i hc
      rw [filter_dropWhile h cs, List.filter_cons_of_neg (by simp [h c hc])]
    · rfl

theorem letters_strip (s : String) : letters (strip s) = letters s := by
  have hdrop := filter_dropWhile fun c hc => isAlpha_of_isBlank (c := c) hc
  rw [strip, trimBoth, letters_ofList, List.filter_reverse, hdrop, List.filter_reverse, hdrop,
    List.reverse_reverse, letters]

theorem letters_stripFinalBreaks (s : String) : letters (stripFinalBreaks s) = letters s := by
  have hdrop := filter_dropWhile (p := fun c => c == '\n') (q := Char.isAlpha)
    fun c hc => by rw [eq_of_beq hc]; rfl
  rw [stripFinalBreaks, letters_ofList, List.filter_reverse, hdrop, List.filter_reverse,
    List.reverse_reverse, letters]

theorem letters_replicate {c : Char} (h : c.isAlpha = false) (n : Nat) :
    letters (String.ofList (List.replicate n c)) = [] := by
  simp [h]

theorem letters_padRight (width : Nat) (s : String) : letters (padRight width s) = letters s := by
  rw [padRight, letters_append, letters_replicate rfl, List.append_nil]

end Text

open Text (letters)

/-! ## Escaping -/

namespace Escape

theorem filter_of_unescape? : ∀ {cs ds : List Char}, unescape? cs = some ds →
    cs.filter Char.isAlpha = ds.filter Char.isAlpha
  | [], _, h => by
    cases h
    rfl
  | [c], ds, h => by
    by_cases hc : c = escapeChar
    · simp [unescape?, hc] at h
    · simp only [unescape?, if_neg hc, Option.map_some, Option.some.injEq] at h
      rw [h]
  | c :: d :: cs, ds, h => by
    by_cases hc : c = escapeChar
    · simp only [unescape?, if_pos hc, Option.map_eq_some_iff] at h
      obtain ⟨es, hes, rfl⟩ := h
      rw [hc, List.filter_cons_of_neg (by decide), List.filter_cons, List.filter_cons,
        filter_of_unescape? hes]
    · rw [unescape?, if_neg hc, Option.map_eq_some_iff] at h
      obtain ⟨es, hes, rfl⟩ := h
      rw [List.filter_cons, List.filter_cons (x := c), filter_of_unescape? hes]

theorem letters_markdown (ctx : Context) (s : String) : letters (markdown ctx s) = letters s := by
  rw [letters, toList_markdown]
  exact filter_of_unescape? (unescape?_escapeSpan ctx s.toList)

end Escape

/-! ## Tables -/

namespace Table

/-- The letters of the cells, row by row. -/
def lettersOf (rows : List Row) : List Char :=
  rows.flatMap fun row => row.flatMap fun c => letters c.content

theorem lettersOf_append (a b : List Row) : lettersOf (a ++ b) = lettersOf a ++ lettersOf b := by
  simp [lettersOf]

theorem letters_spaces (n : Int) : letters (spaces n) = [] :=
  Text.letters_replicate rfl n.toNat

theorem letters_dividerSegment (a : Alignment) (width : Int) :
    letters (dividerSegment a width) = [] := by
  rw [dividerSegment, Text.letters_ofList, List.filter_eq_nil_iff]
  intro c hc
  obtain ⟨i, -, rfl⟩ := List.mem_map.1 hc
  split <;> decide

theorem letters_divider (alignments : Columns Alignment) (widths : List Int) :
    letters (divider alignments widths) = [] := by
  have hbar : letters "|" = [] := rfl
  have hbreak : letters "\n" = [] := rfl
  rw [divider, Text.letters_append, Text.letters_append, Text.letters_join, hbar, hbreak,
    List.nil_append, List.append_nil, List.flatMap_eq_nil_iff]
  intro s hs
  obtain ⟨w, -, rfl⟩ := List.mem_map.1 hs
  rw [Text.letters_append, letters_dividerSegment, hbar]
  rfl

theorem letters_drawCells (widths : List Int) (minPadding : Int) :
    ∀ (cells : List Cell) (col overflow : Nat),
      letters (drawCells widths minPadding col overflow cells) =
        cells.flatMap fun c => letters c.content
  | [], _, _ => rfl
  | c :: rest, col, overflow => by
    rw [drawCells, Text.letters_append, Text.letters_append, Text.letters_append,
      Text.letters_padRight, Text.letters_append, letters_spaces, Text.letters_times rfl,
      letters_drawCells widths minPadding rest, List.flatMap_cons]
    simp

theorem letters_drawRow (widths : List Int) (minPadding : Int) (row : Row) :
    letters (drawRow widths minPadding row) = row.flatMap fun c => letters c.content := by
  have hbar : letters "|" = [] := rfl
  have hbreak : letters "\n" = [] := rfl
  rw [drawRow, Text.letters_append, Text.letters_append, letters_drawCells, hbar, hbreak,
    List.nil_append, List.append_nil]

namespace Layout

variable {ω : Type} {t u : Layout ω}

theorem lettersOf_beginRow (t : Layout ω) : lettersOf t.beginRow.rows = lettersOf t.rows := by
  rw [beginRow, lettersOf_append]
  simp [lettersOf]

variable [Weight ω]

/-- Header rows are drawn first, but they are the first rows. -/
theorem letters_draw (t : Layout ω) : letters t.draw = lettersOf t.rows := by
  have hrows : ∀ rows : List Row,
      letters (String.join (rows.map (drawRow t.columnWidths t.settings.minPadding))) =
        lettersOf rows := by
    intro rows
    rw [Text.letters_join, List.flatMap_map, lettersOf]
    simp only [letters_drawRow]
  unfold draw
  split
  · rename_i h
    rw [List.isEmpty_iff.1 h]
    rfl
  · rw [Text.letters_append, Text.letters_append, letters_divider, hrows, hrows,
      List.append_nil, ← lettersOf_append, List.take_append_drop]

theorem lettersOf_addCell {content : String} {isHeader : Bool} {p : Option Parameters}
    (h : t.addCell content isHeader p = .ok u) :
    lettersOf u.rows = lettersOf t.rows ++ letters content := by
  obtain ⟨front, row, span, hrows, -, hnew, -⟩ := exists_of_addCell h
  rw [hrows, hnew, lettersOf_append, lettersOf_append]
  simp [lettersOf, Text.letters_strip]

end Layout

end Table

end Markwright
