import Markwright.Proofs.BarOffsets
import Markwright.Proofs.Budgets

/-!
# Dividers as delimiter rows

A divider is read as the delimiter row of a table if it has a dash under each column, with colons at
the ends that the alignment of the column asks for (`IsDelimiter`). The colons are put over dashes,
and a column is as wide as the length that is left to it and its padding. So a column has its dash
if and only if that is more than its colons (`Layout.isDelimiter_iff`). With padding on both sides
only a centered column is ever too narrow, when all that is left to it are blank cells.
-/

namespace Markwright.Table

/-- The colon before the dashes. -/
def Alignment.lead : Alignment → List Char
  | .left | .center => [':']
  | .right | .default => []

/-- The colon behind the dashes. -/
def Alignment.trail : Alignment → List Char
  | .right | .center => [':']
  | .left | .default => []

/-- How many colons the segment of a column has at its ends. -/
def Alignment.colons (a : Alignment) : Nat := a.lead.length + a.trail.length

/-- What a delimiter row has under a column: at least one dash, and the colons of its alignment. -/
def IsDelimiter (a : Alignment) (cs : List Char) : Prop :=
  ∃ n, cs = a.lead ++ List.replicate (n + 1) '-' ++ a.trail

section Segment

variable (a : Alignment) {width : Int}

theorem length_dividerSegment (width : Int) :
    (dividerSegment a width).toList.length = width.toNat := by
  rw [dividerSegment, String.toList_ofList, List.length_map, List.length_range]

theorem dividerSegment_eq (h : (a.colons : Int) ≤ width) : (dividerSegment a width).toList =
    a.lead ++ List.replicate (width.toNat - a.colons) '-' ++ a.trail := by
  refine List.ext_getElem ?_ fun i hi _ => ?_
  · rw [length_dividerSegment, List.length_append, List.length_append, List.length_replicate]
    rw [Alignment.colons] at h ⊢
    omega
  · rw [length_dividerSegment] at hi
    simp only [dividerSegment, String.toList_ofList, List.getElem_map, List.getElem_range]
    cases a <;>
      simp only [Alignment.lead, Alignment.trail, Alignment.colons, List.getElem_append,
        List.length_append, List.length_replicate, List.length_cons, List.length_nil,
        List.getElem_replicate] at h ⊢ <;>
      grind

theorem dividerSegment_of_le (h : width ≤ a.colons) :
    (dividerSegment a width).toList = List.replicate width.toNat ':' := by
  refine List.ext_getElem ?_ fun i hi _ => ?_
  · rw [length_dividerSegment, List.length_replicate]
  · rw [length_dividerSegment] at hi
    simp only [dividerSegment, String.toList_ofList, List.getElem_map, List.getElem_range,
      List.getElem_replicate]
    cases a <;> simp only [Alignment.colons, Alignment.lead, Alignment.trail] at h <;> grind

/-- A column has its dash if it is wider than its colons. -/
theorem isDelimiter_dividerSegment :
    IsDelimiter a (dividerSegment a width).toList ↔ (a.colons : Int) < width := by
  constructor
  · rintro ⟨n, hn⟩
    have hlength := congrArg List.length hn
    rw [length_dividerSegment, List.length_append, List.length_append,
      List.length_replicate] at hlength
    rw [Alignment.colons]
    omega
  · intro h
    obtain ⟨n, hn⟩ : ∃ n, width.toNat - a.colons = n + 1 :=
      ⟨width.toNat - a.colons - 1, by omega⟩
    exact ⟨n, by rw [dividerSegment_eq a (Int.le_of_lt h), hn]⟩

end Segment

namespace Layout

variable {ω : Type} [Weight ω] {settings : Settings ω} {fs : List Filling} {t : Layout ω}

/-- What the divider has under each column. -/
def dividerSegments (t : Layout ω) : List (List Char) := t.columnWidths.zipIdx.map fun p =>
  (dividerSegment ((t.alignments.lookup p.2).getD .default) p.1).toList

theorem dividerLine_eq (t : Layout ω) : dividerLine t.alignments t.columnWidths =
    '|' :: t.dividerSegments.flatMap (· ++ ['|']) := by
  rw [dividerLine, segments, dividerSegments, List.flatMap_map]

/-- The divider is one of the lines of the table, and has a segment for each column, with a bar
behind it. The segment is as wide as the column, which is one of the lengths of its cells and the
padding on both sides. It has a dash and the colons of the column's alignment where that is more
than the colons, and nothing but colons otherwise. -/
theorem isDelimiter_iff (h : ofCalls settings fs = .ok t) (hpad : 0 ≤ settings.minPadding) :
    (∃ lines, t.DrawnAs lines ('|' :: t.dividerSegments.flatMap (· ++ ['|']))) ∧
    (divider t.alignments t.columnWidths).toList =
      '|' :: (t.dividerSegments.flatMap (· ++ ['|']) ++ ['\n']) ∧
    t.dividerSegments.length = t.columnCount ∧
    ∀ col < t.columnCount, ∃ (segment : List Char) (length : Nat),
      let alignment := (t.alignments.lookup col).getD .default
      t.dividerSegments[col]? = some segment ∧
      (if lengthsAt (filledRows fs) col = [] then length = 0
        else length ∈ lengthsAt (filledRows fs) col) ∧
      (segment.length : Int) = length + 2 * settings.minPadding ∧
      (IsDelimiter alignment segment ↔
        (alignment.colons : Int) < length + 2 * settings.minPadding) ∧
      (¬ IsDelimiter alignment segment → segment = List.replicate segment.length ':') := by
  have hfilled := filled_of_ofCalls h
  refine ⟨⟨_, t.dividerLine_eq ▸ t.drawnAs⟩, ?_, ?_, fun col hcol => ?_⟩
  · rw [toList_divider, t.dividerLine_eq]
    rfl
  · rw [dividerSegments, List.length_map, List.length_zipIdx, length_columnWidths]
  have hlength := (recorded_of_ofCalls h).width_mem col
  have hwidth := getElem?_columnWidths hcol
  rw [hfilled.rows] at hlength
  rw [hfilled.settings] at hwidth
  refine ⟨_, _, ?_, hlength, ?_, isDelimiter_dividerSegment _, fun hnot => ?_⟩
  · rw [dividerSegments, List.getElem?_map, List.getElem?_zipIdx, hwidth, Nat.zero_add]
    rfl
  · rw [length_dividerSegment]
    omega
  · rw [isDelimiter_dividerSegment, Int.not_lt] at hnot
    rw [length_dividerSegment]
    exact dividerSegment_of_le _ hnot

/-- A centered column of a blank cell, and one that is aligned to the left. -/
def blankCenter : List Filling :=
  [.beginRow, .addCell "" false (some (.ofList [("align", "center")])),
    .addCell "ab" false (some (.ofList [("align", "left")]))]

theorem exists_blankCenter : ∃ t : Layout ℚ, ofCalls ⟨100, 1, 4 / 5⟩ blankCenter = .ok t ∧
    t.columnCount = 2 ∧ t.alignments = [(0, .center), (1, .left)] ∧
    t.dividerSegments = ["::".toList, ":---".toList] :=
  ⟨_, rfl, by decide, by decide, by decide⟩

theorem isDelimiter_iff_blankCenter : ∃ t : Layout ℚ,
    ofCalls ⟨100, 1, 4 / 5⟩ blankCenter = .ok t ∧ (0 : Int) ≤ 1 ∧
    (divider t.alignments t.columnWidths).toList = "|::|:---|\n".toList ∧
    IsDelimiter .left ":---".toList := by
  obtain ⟨t, ht, hcount, halignments, hsegments⟩ := exists_blankCenter
  obtain ⟨-, hdivider, -, hcolumns⟩ := isDelimiter_iff ht (by decide)
  obtain ⟨segment, length, hsegment, -, hlength, hiff, -⟩ := hcolumns 1 (by rw [hcount]; decide)
  rw [hsegments] at hdivider hsegment
  rw [halignments] at hiff
  obtain rfl : ":---".toList = segment := Option.some.inj hsegment
  exact ⟨t, ht, by decide, hdivider, hiff.2 (hlength ▸ by decide)⟩

/-- The colons of the centered column take both of its dashes. -/
theorem blankCenter_no_dash : ∃ t : Layout ℚ, ofCalls ⟨100, 1, 4 / 5⟩ blankCenter = .ok t ∧
    ¬ ∀ col < t.columnCount, ∃ segment, t.dividerSegments[col]? = some segment ∧
      IsDelimiter ((t.alignments.lookup col).getD .default) segment := by
  obtain ⟨t, ht, hcount, -, hsegments⟩ := exists_blankCenter
  refine ⟨t, ht, fun hall => ?_⟩
  obtain ⟨segment, hsegment, n, hn⟩ := hall 0 (by rw [hcount]; decide)
  rw [hsegments] at hsegment
  obtain rfl : "::".toList = segment := Option.some.inj hsegment
  have hdash : '-' ∈ "::".toList := by
    rw [hn]
    simp
  exact absurd hdash (by decide)

end Layout

end Markwright.Table
