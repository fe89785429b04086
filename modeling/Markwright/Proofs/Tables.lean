import Markwright.Proofs.Grid

/-!
# Tables one after the other

All tables of a document are filled in one layout. Where none stands below another, each finds it
empty, and when it ends the layout holds its rows and cells with what was captured for them. A table
below a cell takes the rows of the outer one away, and the outer cell is then left without a row
(`Node.tables_hold`).
-/

namespace Markwright

open Node (eventsAll)

/-- Rows and cells stand where they belong, spans are valid, and images can be labelled. Nothing is
asked of what else stands where. -/
structure Node.Tabular (style : Style) (n : Node) : Prop where
  rows : n.Everywhere RowsFit
  spans : n.Everywhere SpanValid
  labels : n.Everywhere (Labelled style)

/-- The layout holds the rows of a grid, with the given texts in its cells. -/
structure Table.Layout.Holds (t : Layout Float) (g : Grid) (texts : List String) : Prop where
  spans : t.rows.map (·.map Cell.span) = g.map (·.map Prod.fst)
  headerRows : t.headerRows = Grid.headerRows g
  contents : t.rows.flatten.map Cell.content = texts

namespace Session

variable {style : Style} {s t : Session} {n : Node} {events : List Event}

theorem records_run (h : steps style (start style) events = .ok t) :
    t.table.Records (events.foldl Grid.after []) :=
  records_steps (Table.Layout.records_clear (.empty (start style).table.settings)) h

theorem rows_eq_nil_iff {g : Grid} (h : t.table.Records g) : t.table.rows = [] ↔ g = [] := by
  rw [← List.length_eq_zero_iff, h.length_eq, List.length_eq_zero_iff]

/-- Where tables stand apart, nothing goes wrong. -/
theorem exists_session_of_apart (h : n.Tabular style) (hapart : n.Everywhere Node.TablesApart)
    (hrow : n.place ≠ .table) (hcell : n.place ≠ .tableRow) :
    ∃ t, n.session style = .ok t := by
  rcases hrun : n.session style with f | t
  · obtain ⟨-, m, before, c, t, hat, hm, hc, ht, hrows⟩ :=
      leavesRowless_of_error n h.spans h.labels (start style) f (Int.le_refl 0) hrun
    have hgrid := (rows_eq_nil_iff (records_run ht)).1 hrows
    exact absurd hgrid (hat.foldl_cell h.rows hapart hrow hcell hm hc [])
  · exact ⟨t, rfl⟩

/-- When a table ends that no other stands below or above, the layout holds what its node holds. -/
theorem holds_of_apart (h : n.Tabular style) (hapart : n.Everywhere Node.TablesApart)
    (hrow : n.place ≠ .table) (hcell : n.place ≠ .tableRow) {before : List Event}
    {rows : List Node} {p : Parameters} (hat : n.At before (.table rows p))
    (hs : run style (before ++ [Event.enter (.table p)]) = .ok s)
    (ht : steps style s (eventsAll rows) = .ok t) :
    t.table.Holds (Node.grid rows) (captured style s (eventsAll rows)) := by
  have hw : (Node.table rows p).wrap? = some (.table p) := rfl
  have htables := (hat.everywhere hapart).here
  have hfit := hat.everywhere h.rows
  have hfree : ∀ k ∈ rows, k.TableFree := fun k hk => htables.tableFree hw rfl hk
  have hgrid : (before ++ [Event.enter (.table p)]).foldl Grid.after [] = [] := by
    rw [List.foldl_append, hat.foldl_table h.rows hapart hrow hcell trivial]
    rfl
  have hrecords := records_run hs
  rw [hgrid] at hrecords
  have hempty : s.contents = [] := by
    rw [contents, (rows_eq_nil_iff hrecords).2 rfl]
    rfl
  have hrows := records_steps hrecords ht
  rw [Node.foldl_rows rows [] fun k hk => ?_, List.nil_append] at hrows
  · refine ⟨hrows.spans, hrows.headerRows, ?_⟩
    have hcontents := contents_steps (fun q hq => ?_) ht
    · rw [hempty, List.nil_append] at hcontents
      exact hcontents
    · obtain ⟨a, b, hab⟩ := List.append_of_mem hq
      obtain ⟨x, k, y, inner, rest, hsplit, hk, -⟩ := Node.exists_of_eventsAll_eq hab
      exact Node.leave_table_not_mem (hfree k (by simp [hsplit])) q (by rw [hk]; simp)
  · exact ⟨hfit.child hk, hfree k hk, mt (hfit.here.child hw hk).2 (by rintro ⟨⟩)⟩

/-- A table below a cell takes the rows of the outer one away. -/
theorem error_of_table_below_cell (h : n.Tabular style) (hn : ¬ n.Everywhere Node.CellsPlain) :
    ∃ failure, n.session style = .error failure ∧ failure.fault = .cellOutsideRow := by
  rcases hrun : n.session style with f | t
  · obtain ⟨hfault, -⟩ :=
      leavesRowless_of_error n h.spans h.labels (start style) f (Int.le_refl 0) hrun
    exact ⟨f, rfl, hfault⟩
  simp only [Node.Everywhere, not_forall] at hn
  obtain ⟨m, hm, hcell⟩ := hn
  obtain ⟨before, hat⟩ := Node.exists_at hm
  rcases hw : m.wrap? with _ | c
  · exact absurd (fun hc => by cases m <;> first | exact hc.elim | cases hw) hcell
  simp only [Node.cellsPlain_iff_of_wrap hw, Classical.not_imp] at hcell
  obtain ⟨hc, htables⟩ := hcell
  have hroom : c.room = .content := by
    obtain ⟨q, rfl | rfl⟩ := eq_cell_of_place hc <;> rfl
  have hfit := hat.everywhere h.rows
  have hkids : ∀ k ∈ m.children, k.Spares := fun k hk =>
    Node.spares_of_fit hfit hw (by simp [hroom]) (by simp [hroom]) hk
  obtain ⟨after, hevents⟩ := hat.exists_events
  have hsplit : n.events =
      (before ++ .enter c :: eventsAll m.children) ++ .leave c :: after := by
    rw [hevents, Node.events_of_wrap hw]
    simp [Event.around]
  rw [Node.session, run_eq_steps, hsplit] at hrun
  obtain ⟨u, hu, hrest⟩ := exists_of_steps_append hrun
  obtain ⟨v, hleave, -⟩ := exists_of_steps_cons hrest
  have hrecords := records_run hu
  rw [List.foldl_append, List.foldl_cons, (Node.foldl_spared m.children hkids _).2 htables]
    at hrecords
  have hrows := (rows_eq_nil_iff hrecords).2 rfl
  obtain ⟨x, k, hwrite, -, -⟩ := exists_of_step_leave hleave
  obtain ⟨isHeader, q, hleaves⟩ := exists_writeLeave_eq_leaveCell style u hc
  obtain ⟨content, -, -, hadd⟩ := exists_addCell_of_leaveCell (hleaves.symm.trans hwrite)
  obtain ⟨front, row, -, hrow, -⟩ := Table.Layout.exists_of_addCell hadd
  simp [hrows] at hrow

end Session

namespace Node

variable {style : Style} {kids : List Node} {p : Parameters}

/-- A document in which no table stands below another is rendered, and each of its tables is drawn
from a layout that holds its own rows and cells. If a table stands below a cell there is no page:
the cell has lost its row. -/
theorem tables_hold (h : (document kids p).Tabular style) :
    ((document kids p).Everywhere TablesApart →
      (∃ markdown, (document kids p).render style = .ok markdown) ∧
      ∀ front back q, (document kids p).events = front ++ .leave (.table q) :: back →
        ∃ rows r before s t, .table rows r ∈ (document kids p).descendants ∧ q = some r ∧
          front = before ++ .enter (.table q) :: eventsAll rows ∧
          Session.run style (before ++ [.enter (.table q)]) = .ok s ∧
          Session.steps style s (eventsAll rows) = .ok t ∧
          t.table.Holds (grid rows) (Session.captured style s (eventsAll rows))) ∧
      (¬ (document kids p).Everywhere CellsPlain → ∃ failure,
        (document kids p).render style = .error failure ∧ failure.fault = .cellOutsideRow) := by
  refine ⟨fun hapart => ?_, fun hn => ?_⟩
  · obtain ⟨u, hu⟩ := Session.exists_session_of_apart h hapart nofun nofun
    refine ⟨⟨_, render_of_session hu⟩, fun front back q hsplit => ?_⟩
    obtain ⟨m, before, hat, hm, hfront⟩ := exists_at_of_leave _ hsplit
    obtain ⟨rows, r, rfl, rfl⟩ : ∃ rows r, m = .table rows r ∧ q = some r := by
      cases m
      case table rows r => exact ⟨rows, r, rfl, by cases hm; rfl⟩
      case tableCell content header r => cases header <;> cases hm
      all_goals cases hm
    have hmem : .table rows r ∈ (document kids p).descendants := by
      rcases List.mem_cons.1 hat.mem with heq | hmem
      · cases heq
      · exact hmem
    rw [session, hsplit, hfront] at hu
    obtain ⟨t, ht, -⟩ := Session.exists_of_steps_append hu
    rw [List.append_cons] at ht
    obtain ⟨s, hs, hrows⟩ := Session.exists_of_steps_append ht
    exact ⟨rows, r, before, s, t, hmem, rfl, hfront, hs, hrows,
      Session.holds_of_apart h hapart nofun nofun hat hs hrows⟩
  · obtain ⟨failure, hfailure, hfault⟩ := Session.error_of_table_below_cell h hn
    refine ⟨failure, ?_, hfault⟩
    rw [render, hfailure]
    rfl

end Node

theorem tabular_of_regular {style : Style} {n : Node} (h : n.Regular style) : n.Tabular style :=
  ⟨h.fits.imp fun _ hm k hk _ => hm k hk, h.spans, h.labels⟩

/-- A table of one cell around a table of one cell. -/
def nestedTables : List Node := [
  .table [.tableRow [.tableCell [.text "a",
    .table [.tableRow [.tableCell [.text "b"] false .empty] .empty] .empty] false .empty] .empty]
    .empty]

theorem tabular_nestedTables (style : Style) :
    (Node.document nestedTables .empty).Tabular style ∧
      ¬ (Node.document nestedTables .empty).Everywhere Node.CellsPlain := by
  have hone : Table.spanOf (Parameters.empty.get? "colspan") = .ok 1 := rfl
  have hnodes : (Node.document nestedTables .empty).descendants =
      Node.descendantsAll nestedTables := rfl
  refine ⟨⟨?_, ?_, ?_⟩, ?_⟩ <;> rw [Node.Everywhere, hnodes] <;>
    simp only [nestedTables, Node.descendants, Node.descendantsAll, List.append_nil,
      List.nil_append, List.forall_mem_cons]
  · simp [Node.RowsFit, Node.children, Node.place, Node.room, Node.wrap?, Container.place,
      Container.room]
  · simp [Node.SpanValid, hone]
  · simp [Node.Labelled]
  · simp [Node.CellsPlain, Node.IsCell, Node.IsTable, Node.descendants, Node.descendantsAll]

theorem Node.tables_hold_twoBlocks :
    ((document twoBlocks .empty).Tabular (.standard {}) ∧
      (document twoBlocks .empty).Everywhere TablesApart ∧
      ∃ markdown, (document twoBlocks .empty).render (.standard {}) = .ok markdown) ∧
    (document nestedTables .empty).Tabular (.standard {}) ∧
      ¬ (document nestedTables .empty).Everywhere CellsPlain ∧
      ∃ failure, (document nestedTables .empty).render (.standard {}) = .error failure ∧
        failure.fault = .cellOutsideRow := by
  have htwo : (document twoBlocks .empty).Tabular (.standard {}) :=
    tabular_of_regular (regular_twoBlocks _)
  have hapart : (document twoBlocks .empty).Everywhere TablesApart := by
    simp [Everywhere, TablesApart, twoBlocks, IsTable, descendants, descendantsAll]
  obtain ⟨hnested, hcells⟩ := tabular_nestedTables (.standard {})
  exact ⟨⟨htwo, hapart, ((tables_hold htwo).1 hapart).1⟩, hnested, hcells,
    (tables_hold hnested).2 hcells⟩

/-- The outer table cannot be told to its end. -/
theorem nestedTables_refused : (Node.document nestedTables .empty).Tabular (.standard {}) ∧
    ¬ ∃ markdown, (Node.document nestedTables .empty).render (.standard {}) = .ok markdown := by
  obtain ⟨hnested, hcells⟩ := tabular_nestedTables (.standard {})
  refine ⟨hnested, fun ⟨markdown, hmarkdown⟩ => ?_⟩
  obtain ⟨failure, hfailure, -⟩ := Session.error_of_table_below_cell hnested hcells
  rw [Node.render, hfailure] at hmarkdown
  cases hmarkdown

end Markwright
