import Mathlib.Data.List.Induction
import Markwright.Proofs.Grid

/-!
# Layouts that are filled

A layout is filled by calls, each of which begins a row or adds a cell to the last one. What the
calls ask for is known without a layout (`filledRows`): the rows with their cells, each with its
content stripped and the columns that it covers. What holds of a layout that was filled is proved by
one induction over the calls (`Layout.ofCalls_induction`). Calls that all succeed spell rows of
cells (`exists_rowCalls`), and rows of cells whose spans are understood can always be filled in
(`exists_ofCalls_rowCalls`).
-/

namespace Markwright.Table

/-- A call that adds to a layout. -/
inductive Filling where
  | beginRow
  | addCell (content : String) (isHeader : Bool) (parameters : Option Parameters)

/-- The rows with what one more call adds to them. -/
def Filling.addTo (rows : List Row) : Filling → List Row
  | .beginRow => rows ++ [[]]
  | .addCell content _ q =>
    match rows.getLast? with
    | some row => rows.dropLast ++ [row ++ [⟨Text.strip content, cellSpan q⟩]]
    | none => rows

/-- The rows that calls ask for. -/
def filledRows (fs : List Filling) : List Row := fs.foldl Filling.addTo []

theorem filledRows_concat (fs : List Filling) (f : Filling) :
    filledRows (fs ++ [f]) = f.addTo (filledRows fs) := by
  simp [filledRows]

theorem Filling.addTo_addCell (front : List Row) (row : Row) (content : String) (isHeader : Bool)
    (q : Option Parameters) : (Filling.addCell content isHeader q).addTo (front ++ [row]) =
      front ++ [row ++ [⟨Text.strip content, cellSpan q⟩]] := by
  simp [addTo]

namespace Layout

variable {ω : Type} [Weight ω] {settings : Settings ω} {t u : Layout ω} {fs : List Filling}

/-- The layout behind a call. -/
def fill (t : Layout ω) : Filling → Except RenderFault (Layout ω)
  | .beginRow => .ok t.beginRow
  | .addCell content isHeader q => t.addCell content isHeader q

/-- The layout that calls have filled, if all of them succeed. -/
def ofCalls (settings : Settings ω) (fs : List Filling) : Except RenderFault (Layout ω) :=
  fs.foldlM fill (empty settings)

/-- What holds of the empty layout and is kept by each call holds of a layout that was filled. -/
theorem ofCalls_induction {P : List Filling → Layout ω → Prop} (hempty : P [] (empty settings))
    (hstep : ∀ {fs t f u}, ofCalls settings fs = .ok t → P fs t → t.fill f = .ok u →
      P (fs ++ [f]) u) :
    ∀ {fs t}, ofCalls settings fs = .ok t → P fs t := by
  intro fs
  induction fs using List.reverseRecOn with
  | nil =>
    intro t h
    cases h
    exact hempty
  | append_singleton fs f ih =>
    intro u h
    rw [ofCalls, List.foldlM_append] at h
    rcases ht : fs.foldlM fill (empty settings) with fault | t
    · rw [ht] at h
      cases h
    · rw [ht] at h
      have hone : [f].foldlM fill t = t.fill f := by
        rw [List.foldlM_cons]
        exact bind_pure _
      exact hstep ht (ih ht) (hone.symm.trans h)

/-- What the calls have left in the layout. -/
structure Filled (settings : Settings ω) (fs : List Filling) (t : Layout ω) : Prop where
  settings : t.settings = settings
  rows : t.rows = filledRows fs
  headerRows : t.headerRows ≤ t.rows.length
  cells : ∀ row ∈ t.rows, ∀ c ∈ row, 0 < c.span ∧
    ∃ content isHeader q, .addCell content isHeader q ∈ fs ∧ c.content = Text.strip content

theorem headerRowsWith_le {headerRows row col : Nat} (isHeader : Bool)
    (h : headerRows ≤ row + 1) : headerRowsWith headerRows row col isHeader ≤ row + 1 := by
  unfold headerRowsWith
  split_ifs <;> omega

theorem filled_of_ofCalls (h : ofCalls settings fs = .ok t) : t.Filled settings fs := by
  refine ofCalls_induction (P := fun fs t => t.Filled settings fs)
    ⟨rfl, rfl, Nat.le_refl 0, nofun⟩ ?_ h
  intro fs t f u _ ht hu
  have hmore : ∀ {content isHeader q}, Filling.addCell content isHeader q ∈ fs →
      Filling.addCell content isHeader q ∈ fs ++ [f] := List.mem_append_left _
  cases f with
  | beginRow =>
    cases hu
    refine ⟨ht.settings, ?_, ?_, ?_⟩
    · rw [filledRows_concat, ← ht.rows]
      rfl
    · have hle := ht.headerRows
      simp only [beginRow, List.length_append, List.length_singleton]
      omega
    · intro row hrow c hc
      rcases List.mem_append.1 hrow with hrow | hrow
      · obtain ⟨hspan, content, isHeader, q, hmem, hcontent⟩ := ht.cells row hrow c hc
        exact ⟨hspan, content, isHeader, q, hmore hmem, hcontent⟩
      · obtain rfl := List.mem_singleton.1 hrow
        cases hc
  | addCell content isHeader q =>
    obtain ⟨front, row, span, hrows, hspan, hnew, hsettings, hheader, -⟩ := exists_of_addCell hu
    obtain rfl : cellSpan q = span := by rw [cellSpan, hspan]
    refine ⟨hsettings.trans ht.settings, ?_, ?_, ?_⟩
    · rw [filledRows_concat, ← ht.rows, hrows, Filling.addTo_addCell, hnew]
    · have hle := ht.headerRows
      rw [hrows, List.length_append, List.length_singleton] at hle
      rw [hheader, hnew, List.length_append, List.length_singleton]
      exact headerRowsWith_le isHeader hle
    · rw [hnew]
      intro r hr c hc
      have hold : ∀ r ∈ t.rows, ∀ c ∈ r, 0 < c.span ∧ ∃ content' isHeader' q',
          Filling.addCell content' isHeader' q' ∈ fs ++ [.addCell content isHeader q] ∧
            c.content = Text.strip content' := by
        intro r hr c hc
        obtain ⟨hpos, content', isHeader', q', hmem, hcontent⟩ := ht.cells r hr c hc
        exact ⟨hpos, content', isHeader', q', hmore hmem, hcontent⟩
      rw [hrows] at hold
      rcases List.mem_append.1 hr with hr | hr
      · exact hold r (List.mem_append_left _ hr) c hc
      · obtain rfl := List.mem_singleton.1 hr
        rcases List.mem_append.1 hc with hc | hc
        · exact hold row (by simp) c hc
        · obtain rfl := List.mem_singleton.1 hc
          exact ⟨spanOf_pos hspan, content, isHeader, q, by simp, rfl⟩

end Layout

/-! ## Rows of calls -/

/-- A cell as it is asked for. -/
structure NewCell where
  content : String
  isHeader : Bool
  parameters : Option Parameters

namespace NewCell

/-- The call that asks for the cell. -/
def call (c : NewCell) : Filling := .addCell c.content c.isHeader c.parameters

/-- The cell that is drawn in the end. -/
def cell (c : NewCell) : Cell := ⟨Text.strip c.content, cellSpan c.parameters⟩

/-- The number of columns is understood. -/
def Valid (c : NewCell) : Prop := ∃ span, spanOf (lookupIn c.parameters "colspan") = .ok span

theorem Valid.span_pos {c : NewCell} (h : c.Valid) : 0 < c.cell.span := by
  obtain ⟨span, hspan⟩ := h
  rw [cell, cellSpan, hspan]
  exact Layout.spanOf_pos hspan

end NewCell

/-- The calls that fill in rows of cells. -/
def rowCalls (rows : List (List NewCell)) : List Filling :=
  rows.flatMap fun row => .beginRow :: row.map NewCell.call

/-- Rows of cells that are no header cells and ask for nothing else. -/
def dataRows (rows : List (List String)) : List (List NewCell) :=
  rows.map (·.map fun content => ⟨content, false, none⟩)

theorem rowCalls_concat (rows : List (List NewCell)) (row : List NewCell) :
    rowCalls (rows ++ [row]) = rowCalls rows ++ .beginRow :: row.map NewCell.call := by
  simp [rowCalls]

theorem rowCalls_concat_cell (rows : List (List NewCell)) (row : List NewCell) (c : NewCell) :
    rowCalls (rows ++ [row ++ [c]]) = rowCalls (rows ++ [row]) ++ [c.call] := by
  simp [rowCalls]

namespace Layout

variable {ω : Type} [Weight ω] {settings : Settings ω} {t u : Layout ω} {fs : List Filling}

/-- The rows of the layout are those that were asked for. -/
def Took (t : Layout ω) (rows : List (List NewCell)) : Prop :=
  t.rows = rows.map (·.map NewCell.cell)

theorem Took.addCell {front : List (List NewCell)} {row : List NewCell} {c : NewCell}
    (ht : t.Took (front ++ [row])) (h : t.fill c.call = .ok u) :
    u.Took (front ++ [row ++ [c]]) := by
  obtain ⟨before, last, span, hrows, hspan, hnew, -⟩ := exists_of_addCell h
  rw [Took, List.map_append, List.map_singleton] at ht
  obtain ⟨hbefore, hlast⟩ := List.append_inj' (hrows.symm.trans ht) rfl
  obtain rfl := List.singleton_inj.1 hlast
  have hcell : (⟨Text.strip c.content, span⟩ : Cell) = c.cell := by
    rw [NewCell.cell, cellSpan, hspan]
  rw [Took, hnew, hbefore, hcell]
  simp

/-- A cell can be added to a row that has begun if its span is understood. -/
theorem exists_addCell {c : NewCell} (hvalid : c.Valid) (hrows : t.rows ≠ []) :
    ∃ u, t.fill c.call = .ok u := by
  obtain ⟨span, hspan⟩ := hvalid
  exact exists_addCell_of_span c.content c.isHeader hrows hspan

theorem ofCalls_concat {f : Filling} (h : ofCalls settings fs = .ok t) (hu : t.fill f = .ok u) :
    ofCalls settings (fs ++ [f]) = .ok u := by
  rw [ofCalls] at h
  rw [ofCalls, List.foldlM_append, h]
  change ([f].foldlM fill t) = _
  rw [List.foldlM_cons, hu]
  rfl

theorem exists_rowCalls (h : ofCalls settings fs = .ok t) : ∃ rows : List (List NewCell),
    fs = rowCalls rows ∧ t.Took rows ∧ ∀ row ∈ rows, ∀ c ∈ row, c.Valid := by
  refine ofCalls_induction (P := fun fs t => ∃ rows : List (List NewCell), fs = rowCalls rows ∧
    t.Took rows ∧ ∀ row ∈ rows, ∀ c ∈ row, c.Valid) ⟨[], rfl, rfl, nofun⟩ ?_ h
  rintro fs t f u - ⟨rows, rfl, htook, hvalid⟩ hu
  cases f with
  | beginRow =>
    cases hu
    refine ⟨rows ++ [[]], (rowCalls_concat rows []).symm, ?_, fun row hrow => ?_⟩
    · rw [Took, List.map_append, ← htook]
      rfl
    · rcases List.mem_append.1 hrow with hrow | hrow
      · exact hvalid row hrow
      · obtain rfl := List.mem_singleton.1 hrow
        exact List.forall_mem_nil _
  | addCell content isHeader q =>
    obtain ⟨before, last, span, hrows, hspan, -⟩ := exists_of_addCell hu
    rcases List.eq_nil_or_concat rows with rfl | ⟨front, row, rfl⟩
    · rw [Took, hrows] at htook
      simp at htook
    rw [List.concat_eq_append] at htook hvalid ⊢
    have hadded := htook.addCell (c := ⟨content, isHeader, q⟩) hu
    refine ⟨front ++ [row ++ [⟨content, isHeader, q⟩]], ?_, hadded, fun r hr => ?_⟩
    · rw [rowCalls_concat_cell]
      rfl
    · rcases List.mem_append.1 hr with hr | hr
      · exact hvalid r (List.mem_append_left _ hr)
      · obtain rfl := List.mem_singleton.1 hr
        intro c hc
        rcases List.mem_append.1 hc with hc | hc
        · exact hvalid row (by simp) c hc
        · obtain rfl := List.mem_singleton.1 hc
          exact ⟨span, hspan⟩

theorem exists_ofCalls_rowCalls (settings : Settings ω) {rows : List (List NewCell)} :
    (∀ row ∈ rows, ∀ c ∈ row, c.Valid) →
    ∃ t, ofCalls settings (rowCalls rows) = .ok t ∧ t.Took rows := by
  induction rows using List.reverseRecOn with
  | nil => exact fun _ => ⟨empty settings, rfl, rfl⟩
  | append_singleton front row ih =>
    intro hvalid
    obtain ⟨t, ht, htook⟩ := ih fun r hr => hvalid r (List.mem_append_left _ hr)
    have hrow := hvalid row (by simp)
    clear hvalid ih
    induction row using List.reverseRecOn with
    | nil =>
      refine ⟨t.beginRow, ?_, ?_⟩
      · rw [rowCalls_concat]
        exact ofCalls_concat ht rfl
      · rw [Took, List.map_append, ← htook]
        rfl
    | append_singleton row c ih =>
      obtain ⟨u, hu, hutook⟩ := ih fun d hd => hrow d (List.mem_append_left _ hd)
      have hrows : u.rows ≠ [] := by
        rw [hutook]
        simp
      obtain ⟨v, hv⟩ := exists_addCell (hrow c (by simp)) hrows
      refine ⟨v, ?_, hutook.addCell hv⟩
      rw [rowCalls_concat_cell]
      exact ofCalls_concat hu hv

end Layout

end Markwright.Table
