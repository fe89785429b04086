import Mathlib.Data.List.Basic
import Markwright.Table.Layout

/-!
# Cells that are added

A cell can be added if a row has begun and its span is understood, and then it goes to the end of
the last row. All that it changes is said once (`Layout.exists_of_addCell`), and what follows for
the rows, the spans and the lengths of a layout is read off it.
-/

namespace Markwright.Table.Layout

theorem spanOf_pos {value : Option String} {span : Nat} (h : spanOf value = .ok span) :
    0 < span := by
  unfold spanOf readSpan at h
  split at h
  · cases h
    exact Nat.one_pos
  · split at h
    · cases h
    · split at h <;> cases h
      omega

variable {ω : Type} [Weight ω] {t u : Layout ω} {content : String} {isHeader : Bool}
  {q : Option Parameters} {fault : RenderFault}

/-- What goes wrong is found before anything is kept, so a cell is taken as a whole or not at
all. -/
theorem takeCell_eq (t : Layout ω) (content : String) (isHeader : Bool) (q : Option Parameters) :
    takeCell content isHeader q t =
      match t.rows.getLast? with
      | none => .error .cellOutsideRow t
      | some row =>
        match spanOf (lookupIn q "colspan") with
        | .error fault => .error fault t
        | .ok span => .ok () { t.noteCell row.width (Text.strip content).length
            (Alignment.parse (lookupIn q "align")) isHeader with
            rows := t.rows.dropLast ++ [row ++ [⟨Text.strip content, span⟩]] } := by
  have hget : (get : EStateM RenderFault (Layout ω) (Layout ω)) t = .ok t t := rfl
  unfold takeCell
  simp only [bind, EStateM.bind, hget]
  rcases t.rows.getLast? with _ | row
  · rfl
  · rcases spanOf (lookupIn q "colspan") with fault | span <;> rfl

theorem takeCell_of_addCell (h : t.addCell content isHeader q = .ok u) :
    takeCell content isHeader q t = .ok () u := by
  unfold addCell at h
  split at h
  · rename_i htake
    cases h
    exact htake
  · cases h

/-- A call that fails leaves the layout as it was. -/
theorem eq_of_takeCell_error (h : takeCell content isHeader q t = .error fault u) : u = t := by
  rw [takeCell_eq] at h
  split at h
  · cases h
    rfl
  · split at h <;> cases h
    rfl

theorem takeCell_of_addCell_error (h : t.addCell content isHeader q = .error fault) :
    takeCell content isHeader q t = .error fault t := by
  unfold addCell at h
  split at h
  · cases h
  · rename_i htake
    cases h
    exact eq_of_takeCell_error htake ▸ htake

theorem exists_of_addCell (h : t.addCell content isHeader q = .ok u) :
    ∃ (front : List Row) (row : Row) (span : Nat), t.rows = front ++ [row] ∧
      spanOf (lookupIn q "colspan") = .ok span ∧
      u.rows = front ++ [row ++ [⟨Text.strip content, span⟩]] ∧
      u.settings = t.settings ∧
      u.headerRows = headerRowsWith t.headerRows front.length row.width isHeader ∧
      u.histograms = t.histograms.alter row.width (fun h : Option (Histogram ω) =>
        (h.getD []).record t.settings.bonus (Text.strip content).length) ∧
      u.alignments = t.alignments.alter row.width fun a =>
        a.getD (Alignment.parse (lookupIn q "align")) := by
  have htake := takeCell_of_addCell h
  rw [takeCell_eq] at htake
  split at htake
  · cases htake
  · rename_i row hrow
    split at htake
    · cases htake
    · rename_i span hspan
      cases htake
      have hrows := (List.dropLast_append_getLast? row hrow).symm
      refine ⟨t.rows.dropLast, row, span, hrows, hspan, rfl, rfl, ?_, rfl, rfl⟩
      rw [List.length_dropLast]
      rfl

theorem addCell_error (h : t.addCell content isHeader q = .error fault) :
    t.rows = [] ∧ fault = .cellOutsideRow ∨ spanOf (lookupIn q "colspan") = .error fault := by
  have htake := takeCell_of_addCell_error h
  rw [takeCell_eq] at htake
  split at htake
  · rename_i hrow
    cases htake
    exact Or.inl ⟨List.getLast?_eq_none_iff.1 hrow, rfl⟩
  · split at htake
    · rename_i hspan
      cases htake
      exact Or.inr hspan
    · cases htake

/-- A cell can be added to a row that has begun if its span is understood. -/
theorem exists_addCell_of_span {span : Nat} (content : String) (isHeader : Bool)
    (hrows : t.rows ≠ []) (hspan : spanOf (lookupIn q "colspan") = .ok span) :
    ∃ u, t.addCell content isHeader q = .ok u := by
  rcases hadd : t.addCell content isHeader q with fault | u
  · rcases addCell_error hadd with ⟨hnone, -⟩ | hbad
    · exact absurd hnone hrows
    · exact nomatch hspan.symm.trans hbad
  · exact ⟨u, rfl⟩

end Markwright.Table.Layout
