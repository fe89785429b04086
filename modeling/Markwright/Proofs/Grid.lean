import Mathlib.Data.List.Basic
import Mathlib.Tactic.SplitIfs
import Markwright.Proofs.AnyTree

/-!
# The grid of a table

What the events of a table say of its rows is known without a session (`Grid.after`): each cell with
the columns that it covers, and whether it is a header cell. A session that takes the events records
it in its layout (`Session.records_steps`), whatever is told. A tree of which the rows and cells
stand where they belong leads to the grid of its node, as long as no other table stands in between
(`Node.foldl_rows`): the end of any table empties the grid, since all of them share one layout.
-/

namespace Markwright

open Node (eventsAll)

/-- The rows of a table: for each cell how many columns it covers and whether it is a header
cell. -/
abbrev Grid := List (List (Nat × Bool))

/-- How many columns a cell asks for, none if its parameters are not understood. -/
def cellSpan (q : Option Parameters) : Nat :=
  match Table.spanOf (lookupIn q "colspan") with
  | .ok span => span
  | .error _ => 0

namespace Grid

/-- Adds a cell to the last row. -/
def addCell (g : Grid) (cell : Nat × Bool) : Grid :=
  match g.getLast? with
  | some row => g.dropLast ++ [row ++ [cell]]
  | none => g

/-- The grid of the table that is filled, after one more event. -/
def after (g : Grid) : Event → Grid
  | .enter (.tableRow _) => g ++ [[]]
  | .leave (.tableCell q) => addCell g (cellSpan q, false)
  | .leave (.tableHeadCell q) => addCell g (cellSpan q, true)
  | .leave (.table _) => []
  | _ => g

/-- A row of header cells, of which there is at least one. -/
def isHeader (row : List (Nat × Bool)) : Bool := !row.isEmpty && row.all Prod.snd

/-- How many rows at the front are made of header cells. -/
def headerRows (g : Grid) : Nat := (g.takeWhile isHeader).length

variable {g : Grid} {row : List (Nat × Bool)}

theorem addCell_concat (g : Grid) (row : List (Nat × Bool)) (cell : Nat × Bool) :
    addCell (g ++ [row]) cell = g ++ [row ++ [cell]] := by
  simp [addCell]

theorem headerRows_le (g : Grid) : headerRows g ≤ g.length :=
  (List.takeWhile_prefix _).length_le

theorem headerRows_concat (g : Grid) (row : List (Nat × Bool)) : headerRows (g ++ [row]) =
    if headerRows g = g.length ∧ isHeader row = true then g.length + 1 else headerRows g := by
  unfold headerRows
  rw [List.takeWhile_append]
  by_cases hg : (g.takeWhile isHeader).length = g.length
  · cases hrow : isHeader row <;> simp [hg, hrow]
  · simp [hg]

end Grid

/-! ## Layouts -/

namespace Table.Layout

variable {t u : Layout Float} {g : Grid}

/-- The layout holds the rows and cells of the grid. -/
structure Records (t : Layout Float) (g : Grid) : Prop where
  spans : t.rows.map (·.map Cell.span) = g.map (·.map Prod.fst)
  headerRows : t.headerRows = Grid.headerRows g
  pos : ∀ row ∈ g, ∀ cell ∈ row, 0 < cell.1

theorem Records.length_eq (h : t.Records g) : t.rows.length = g.length := by
  simpa using congrArg List.length h.spans

theorem records_clear (t : Layout Float) : t.clear.Records [] := ⟨rfl, rfl, nofun⟩

theorem Records.beginRow (h : t.Records g) : t.beginRow.Records (g ++ [[]]) := by
  refine ⟨?_, ?_, ?_⟩
  · simp [Layout.beginRow, h.spans]
  · rw [Grid.headerRows_concat, if_neg fun h => Bool.false_ne_true h.2]
    exact h.headerRows
  · intro row hrow
    rcases List.mem_append.1 hrow with hrow | hrow
    · exact h.pos row hrow
    · obtain rfl := List.mem_singleton.1 hrow
      exact List.forall_mem_nil _

theorem width_eq_zero {row : Row} (h : ∀ cell ∈ row, 0 < cell.span) : row.width = 0 ↔ row = [] := by
  cases row with
  | nil => simp [Row.width]
  | cons cell rest =>
    have := h cell (by simp)
    simp only [Row.width, reduceCtorEq, iff_false]
    omega

/-- How the number of header rows changes with a cell. -/
theorem headerRowsWith_eq (g : Grid) (row : List (Nat × Bool)) (span : Nat) (isHeader : Bool)
    (col : Nat) (hcol : col = 0 ↔ row = []) :
    headerRowsWith (Grid.headerRows (g ++ [row])) g.length col isHeader =
      Grid.headerRows (g ++ [row ++ [(span, isHeader)]]) := by
  have hle := Grid.headerRows_le g
  rw [Grid.headerRows_concat, Grid.headerRows_concat, headerRowsWith]
  cases isHeader with
  | false =>
    have hnot : Grid.isHeader (row ++ [(span, false)]) = false := by simp [Grid.isHeader]
    simp only [hnot, Bool.false_eq_true, and_false, if_false]
    split_ifs <;> omega
  | true =>
    rcases row with _ | ⟨cell, rest⟩
    · have hnil : Grid.isHeader [] = false := rfl
      have hone : Grid.isHeader ([] ++ [(span, true)]) = true := rfl
      simp only [hcol.2 rfl, hnil, hone, Bool.false_eq_true, and_false, and_true, if_false,
        if_true, true_and]
      split_ifs <;> omega
    · have hne : col ≠ 0 := fun h => nomatch hcol.1 h
      have hsame : Grid.isHeader (cell :: rest ++ [(span, true)]) =
          Grid.isHeader (cell :: rest) := by
        simp [Grid.isHeader]
      simp only [hsame, hne, false_and, if_false, if_true]

theorem Records.addCell {content : String} {isHeader : Bool} {q : Option Parameters}
    (h : t.Records g) (hu : t.addCell content isHeader q = .ok u) :
    u.Records (Grid.addCell g (cellSpan q, isHeader)) := by
  obtain ⟨rows, row, span, hrows, hspan, hnew, -, hheader, -⟩ := exists_of_addCell hu
  have hlen := h.length_eq
  rcases List.eq_nil_or_concat g with rfl | ⟨front, cells, rfl⟩
  · simp [hrows] at hlen
  rw [List.concat_eq_append] at h hlen ⊢
  have hspans := h.spans
  rw [hrows, List.map_append, List.map_append, List.map_singleton, List.map_singleton] at hspans
  obtain ⟨hfront, hlast⟩ := List.append_inj' hspans rfl
  have hcells : row.map Cell.span = cells.map Prod.fst := by simpa using hlast
  have hcellSpan : cellSpan q = span := by rw [cellSpan, hspan]
  have hpos : ∀ cell ∈ row, 0 < cell.span := by
    intro cell hcell
    have hmem : cell.span ∈ cells.map Prod.fst := hcells ▸ List.mem_map_of_mem hcell
    obtain ⟨x, hx, hxs⟩ := List.mem_map.1 hmem
    exact hxs ▸ h.pos cells (by simp) x hx
  have hcol : row.width = 0 ↔ cells = [] := by
    rw [width_eq_zero hpos, ← List.map_eq_nil_iff (f := Cell.span), hcells, List.map_eq_nil_iff]
  rw [Grid.addCell_concat, hcellSpan]
  refine ⟨?_, ?_, ?_⟩
  · simp [hnew, hfront, hcells]
  · have hindex : rows.length = front.length := by simpa [hrows] using hlen
    rw [hheader, h.headerRows, hindex, headerRowsWith_eq front cells span isHeader row.width hcol]
  · intro r hr cell hcell
    rcases List.mem_append.1 hr with hr | hr
    · exact h.pos r (by simp [hr]) cell hcell
    · obtain rfl := List.mem_singleton.1 hr
      rcases List.mem_append.1 hcell with hcell | hcell
      · exact h.pos cells (by simp) cell hcell
      · obtain rfl := List.mem_singleton.1 hcell
        exact spanOf_pos hspan

end Table.Layout

/-! ## Sessions -/

namespace Session

variable {style : Style} {s t u : Session} {c : Container} {g : Grid}

theorem table_popPrefix (h : s.popPrefix = .ok t) : t.table = s.table := by
  unfold popPrefix at h
  split at h <;> cases h
  rfl

theorem table_popCapture {text : String} (h : s.popCapture = .ok (text, t)) :
    t.table = s.table := by
  unfold popCapture at h
  split at h <;> cases h
  rfl

theorem table_writeLeave (hc : c.room ≠ .table ∧ c.place ≠ .tableRow)
    (h : writeLeave style s c = .ok t) : t.table = s.table := by
  cases c
  case tableCell | tableHeadCell => exact absurd rfl hc.2
  case table => exact absurd rfl hc.1
  case listItem | quotation => exact table_popPrefix h
  case definitionDescription =>
    have hpop := table_popPrefix (s := s.flush) h
    exact hpop
  case format f _ =>
    cases h
    unfold markFormat
    split
    · rfl
    · dsimp only
      split <;> rfl
  case link r freeStanding _ =>
    unfold writeLeave at h
    dsimp only at h
    split at h
    · cases h
      rfl
    · split at h
      · split at h <;> cases h
        rename_i hv
        have hpop := table_popCapture hv
        exact hpop
      · cases h
        rfl
  all_goals
    cases h
    rfl

theorem exists_addCell_of_leaveCell {isHeader : Bool} {q : Option Parameters}
    (h : s.leaveCell isHeader q = .ok t) : ∃ content u,
      s.popCapture = .ok (content, u) ∧ s.table.addCell content isHeader q = .ok t.table := by
  unfold leaveCell at h
  split at h
  · cases h
  · rename_i content u hpop
    rw [table_popCapture hpop] at h
    split at h <;> cases h
    rename_i hadd
    exact ⟨content, u, hpop, hadd⟩

/-- The layout follows the grid, event by event. -/
theorem records_step {e : Event} (h : s.table.Records g) (hs : step style s e = .ok t) :
    t.table.Records (g.after e) := by
  cases e with
  | enter c =>
    cases hs
    by_cases hp : c.place = .table
    · obtain ⟨q, rfl⟩ := eq_tableRow_of_place hp
      exact h.beginRow
    · have hafter : Grid.after g (.enter c) = g := by
        cases c <;> first | rfl | exact absurd rfl hp
      have htable : (s.entered style c).table = s.table := (entered_spec style s c).2.1 hp
      rw [hafter]
      change (s.entered style c).table.Records g
      rwa [htable]
  | leave c =>
    obtain ⟨u, n, hwrite, -, rfl⟩ := exists_of_step_leave hs
    by_cases hc : c.room ≠ .table ∧ c.place ≠ .tableRow
    · have hafter : Grid.after g (.leave c) = g := by
        cases c <;> first | rfl | exact absurd rfl hc.1 | exact absurd rfl hc.2
      rw [hafter]
      exact table_writeLeave hc hwrite ▸ h
    · cases c
      case table =>
        cases hwrite
        exact Table.Layout.records_clear s.table
      case tableCell | tableHeadCell =>
        obtain ⟨content, v, -, hadd⟩ := exists_addCell_of_leaveCell hwrite
        exact h.addCell hadd
      all_goals exact absurd ⟨by rintro ⟨⟩, by rintro ⟨⟩⟩ hc
  | leaf l =>
    obtain ⟨u, hwrite, rfl⟩ := exists_of_step_leaf hs
    exact (writes_writeLeaf hwrite).table ▸ h

theorem records_steps : ∀ {events : List Event} {s : Session} {g : Grid}, s.table.Records g →
    steps style s events = .ok t → t.table.Records (events.foldl Grid.after g)
  | [], s, g, h, hs => by
    cases hs
    exact h
  | e :: rest, s, g, h, hs => by
    obtain ⟨u, hu, hrest⟩ := exists_of_steps_cons hs
    have hall := records_steps (records_step h hu) hrest
    exact hall

/-! ### Contents -/

/-- What the printer of a cell that is left has captured. -/
def capturedBy (s : Session) : Event → List String
  | .leave (.tableCell _) | .leave (.tableHeadCell _) =>
    [Text.strip (s.printers.active.flush s.nesting.around).written]
  | _ => []

/-- What the printers of cells capture along a run, in the order of the cells. -/
def captured (style : Style) : Session → List Event → List String
  | _, [] => []
  | s, e :: rest =>
    match step style s e with
    | .ok t => s.capturedBy e ++ captured style t rest
    | .error _ => []

/-- The contents of a table, cell by cell. -/
def contents (s : Session) : List String := s.table.rows.flatten.map Table.Cell.content

theorem contents_step {e : Event} (he : ∀ q, e ≠ .leave (.table q))
    (hs : step style s e = .ok t) : t.contents = s.contents ++ s.capturedBy e := by
  have hsame : t.table = s.table → s.capturedBy e = [] →
      t.contents = s.contents ++ s.capturedBy e := by
    intro htable hnil
    rw [hnil, List.append_nil, contents, htable, contents]
  cases e with
  | enter c =>
    cases hs
    by_cases hp : c.place = .table
    · obtain ⟨q, rfl⟩ := eq_tableRow_of_place hp
      change List.map _ (s.table.rows ++ [[]]).flatten = s.contents ++ []
      simp [contents]
    · exact hsame ((entered_spec style s c).2.1 hp) rfl
  | leave c =>
    obtain ⟨u, n, hwrite, -, rfl⟩ := exists_of_step_leave hs
    have hcell : ∀ {isHeader : Bool} {q : Option Parameters}, s.leaveCell isHeader q = .ok u →
        u.contents = s.contents ++
          [Text.strip (s.printers.active.flush s.nesting.around).written] := by
      intro isHeader q h
      obtain ⟨content, v, hpop, hadd⟩ := exists_addCell_of_leaveCell h
      have hcontent : content = (s.printers.active.flush s.nesting.around).written := by
        rcases hcaptures : s.printers.captures with _ | ⟨p, rest⟩
        · simp [popCapture, PrinterStack.pop?, hcaptures] at hpop
        · simp only [popCapture, PrinterStack.pop?, hcaptures, Except.ok.injEq, Prod.mk.injEq]
            at hpop
          simp [PrinterStack.active, hcaptures, hpop.1]
      obtain ⟨front, row, span, hrows, -, hnew, -⟩ := Table.Layout.exists_of_addCell hadd
      rw [contents, contents, hnew, hrows, hcontent]
      simp
    by_cases hc : c.room ≠ .table ∧ c.place ≠ .tableRow
    · have htable : u.table = s.table := table_writeLeave hc hwrite
      refine hsame htable ?_
      cases c <;> first | rfl | exact absurd rfl hc.2
    · cases c
      case table q => exact absurd rfl (he q)
      case tableCell | tableHeadCell => exact hcell hwrite
      all_goals exact absurd ⟨by rintro ⟨⟩, by rintro ⟨⟩⟩ hc
  | leaf l =>
    obtain ⟨u, hwrite, rfl⟩ := exists_of_step_leaf hs
    exact hsame (writes_writeLeaf hwrite).table rfl

/-- As long as no table ends, the table holds what the printers of its cells captured. -/
theorem contents_steps : ∀ {events : List Event} {s : Session},
    (∀ q, .leave (.table q) ∉ events) → steps style s events = .ok t →
    t.contents = s.contents ++ captured style s events
  | [], s, _, hs => by
    cases hs
    simp [captured]
  | e :: rest, s, he, hs => by
    obtain ⟨u, hu, hrest⟩ := exists_of_steps_cons hs
    have hstep := contents_step (fun q hq => he q (by simp [hq])) hu
    have hall := contents_steps (fun q hq => he q (List.mem_cons_of_mem _ hq)) hrest
    rw [hall, hstep, captured, hu, List.append_assoc]

end Session

/-! ## Trees -/

namespace Node

/-- Rows stand in tables only, and cells in rows. -/
def RowsFit (n : Node) : Prop :=
  ∀ k ∈ n.children, k.place = .table ∨ k.place = .tableRow → k.place = n.room

/-- No table stands below a table. -/
def TablesApart (n : Node) : Prop := n.IsTable → ∀ m ∈ n.descendants, ¬ m.IsTable

/-- How many columns a cell covers, and whether it is a header cell. -/
def cell? : Node → Option (Nat × Bool)
  | .tableCell _ header p => some (cellSpan p, header)
  | _ => none

/-- The cells of a row. What stands in it and is no cell is left out. -/
def row? : Node → Option (List (Nat × Bool))
  | .tableRow cells _ => some (cells.filterMap cell?)
  | _ => none

/-- The grid that the rows of a table make up. -/
def grid (rows : List Node) : Grid := rows.filterMap row?

variable {n k m : Node} {c : Container} {kids : List Node} {g : Grid} {before : List Event}

theorem RowsFit.child (h : n.RowsFit) (hw : n.wrap? = some c) (hk : k ∈ n.children) :
    (k.place = .table → c.room = .table) ∧ (k.place = .tableRow → c.room = .tableRow) := by
  rw [← room_of_wrap hw]
  exact ⟨fun hp => (h k hk (Or.inl hp)).symm.trans hp,
    fun hp => (h k hk (Or.inr hp)).symm.trans hp⟩

/-- The grid stays as it is, unless there is a table, which leaves it empty. -/
def Spares (n : Node) : Prop := ∀ g : Grid,
  (n.TableFree → n.events.foldl Grid.after g = g) ∧
    (¬ n.TableFree → n.events.foldl Grid.after g = [])

theorem foldl_spared : ∀ kids : List Node, (∀ k ∈ kids, k.Spares) → ∀ g : Grid,
    ((∀ k ∈ kids, k.TableFree) → (eventsAll kids).foldl Grid.after g = g) ∧
      (¬ (∀ k ∈ kids, k.TableFree) → (eventsAll kids).foldl Grid.after g = [])
  | [], _, g => ⟨fun _ => rfl, fun h => absurd nofun h⟩
  | k :: rest, h, g => by
    obtain ⟨hrest, hrest'⟩ := foldl_spared rest (fun l hl => h l (List.mem_cons_of_mem _ hl))
      (k.events.foldl Grid.after g)
    obtain ⟨hk, hk'⟩ := h k (by simp) g
    rw [eventsAll, List.foldl_append, List.forall_mem_cons]
    refine ⟨fun hall => by rw [hrest hall.2, hk hall.1], fun hnot => ?_⟩
    by_cases hfree : ∀ l ∈ rest, l.TableFree
    · rw [hrest hfree, hk' fun hkfree => hnot ⟨hkfree, hfree⟩]
    · exact hrest' hfree

theorem foldl_around (c : Container) (inner : List Event) (g : Grid) :
    (Event.around c inner).foldl Grid.after g =
      (inner.foldl Grid.after (g.after (.enter c))).after (.leave c) := by
  simp [Event.around]

theorem foldl_leaves : ∀ (leaves : List Leaf) (g : Grid),
    (leaves.map Event.leaf).foldl Grid.after g = g
  | [], _ => rfl
  | _ :: rest, g => foldl_leaves rest g

/-- Whatever is no row and no cell spares the grid. -/
theorem spares (n : Node) : n.Everywhere RowsFit → n.place ≠ .table → n.place ≠ .tableRow →
    n.Spares := by
  induction n using childrenInduction with
  | step n ih =>
  intro hfit hrow hcell g
  rcases hw : n.wrap? with _ | c
  · rw [events_of_leaves hw]
    exact ⟨fun _ => foldl_leaves _ g, fun h => absurd (tableFree_of_wrap_none hw) h⟩
  rw [place_of_wrap hw] at hrow hcell
  rw [events_of_wrap hw, foldl_around, tableFree_iff_of_wrap hw]
  by_cases hroom : c.room = .table
  · refine ⟨fun h => absurd hroom h.1, fun _ => ?_⟩
    cases c <;> first | rfl | cases hroom
  · have hkids : ∀ k ∈ n.children, k.Spares := by
      intro k hk
      obtain ⟨htable, htableRow⟩ := hfit.here.child hw hk
      refine ih k hk (hfit.child hk) (mt htable hroom) fun hp => ?_
      exact hrow (Session.place_of_room_tableRow (htableRow hp))
    obtain ⟨hfree, hnot⟩ := foldl_spared n.children hkids g
    have henter : Grid.after g (.enter c) = g := by
      cases c <;> first | rfl | exact absurd rfl hrow
    have hleave : ∀ g : Grid, Grid.after g (.leave c) = g := by
      intro g
      cases c <;> first | rfl | exact absurd rfl hcell | exact absurd rfl hroom
    rw [henter, hleave]
    exact ⟨fun h => hfree h.2, fun h => hnot fun hall => h ⟨hroom, hall⟩⟩

theorem spares_of_fit (hfit : n.Everywhere RowsFit) (hw : n.wrap? = some c)
    (hroom : c.room ≠ .table) (hrow : c.room ≠ .tableRow) (hk : k ∈ n.children) : k.Spares := by
  obtain ⟨htable, htableRow⟩ := hfit.here.child hw hk
  exact spares k (hfit.child hk) (mt htable hroom) (mt htableRow hrow)

theorem wrap_of_cell? {cell : Nat × Bool} (h : n.cell? = some cell) :
    ∃ c, n.wrap? = some c ∧ c.room = .content ∧ (∀ g, Grid.after g (.enter c) = g) ∧
      ∀ g, Grid.after g (.leave c) = Grid.addCell g cell := by
  cases n <;> cases h
  rename_i header p
  cases header
  · exact ⟨_, rfl, rfl, fun _ => rfl, fun _ => rfl⟩
  · exact ⟨_, rfl, rfl, fun _ => rfl, fun _ => rfl⟩

theorem foldl_cell {cell : Nat × Bool} (hcell : n.cell? = some cell)
    (hfit : n.Everywhere RowsFit) (hfree : n.TableFree) (g : Grid) (row : List (Nat × Bool)) :
    n.events.foldl Grid.after (g ++ [row]) = g ++ [row ++ [cell]] := by
  obtain ⟨c, hw, hroom, henter, hleave⟩ := wrap_of_cell? hcell
  have hkids : ∀ k ∈ n.children, k.Spares := fun k hk =>
    spares_of_fit hfit hw (by simp [hroom]) (by simp [hroom]) hk
  rw [events_of_wrap hw, foldl_around, henter, hleave,
    (foldl_spared n.children hkids _).1 ((tableFree_iff_of_wrap hw).1 hfree).2,
    Grid.addCell_concat]

theorem place_ne_of_cell? (h : n.cell? = none) : n.place ≠ .tableRow := by
  intro hp
  have hcell := Regular.isCell_of_place hp
  cases n <;> first | exact hcell.elim | cases h

theorem place_ne_of_row? (h : n.row? = none) : n.place ≠ .table := by
  intro hp
  cases n
  case tableRow => cases h
  case tableCell content header p => cases header <;> cases hp
  all_goals cases hp

theorem foldl_cells : ∀ (kids : List Node) (g : Grid) (row : List (Nat × Bool)),
    (∀ k ∈ kids, k.Everywhere RowsFit ∧ k.TableFree ∧ k.place ≠ .table) →
    (eventsAll kids).foldl Grid.after (g ++ [row]) = g ++ [row ++ kids.filterMap cell?]
  | [], g, row, _ => by simp [eventsAll]
  | k :: rest, g, row, h => by
    obtain ⟨hfit, hfree, hplace⟩ := h k (by simp)
    have hrest : ∀ l ∈ rest, l.Everywhere RowsFit ∧ l.TableFree ∧ l.place ≠ .table :=
      fun l hl => h l (List.mem_cons_of_mem _ hl)
    rw [eventsAll, List.foldl_append]
    rcases hcell : k.cell? with _ | cell
    · rw [(spares k hfit hplace (place_ne_of_cell? hcell) _).1 hfree, foldl_cells rest g row hrest,
        List.filterMap_cons_none hcell]
    · rw [foldl_cell hcell hfit hfree, foldl_cells rest g _ hrest, List.filterMap_cons_some hcell,
        List.append_assoc, List.singleton_append]

theorem foldl_row {row : List (Nat × Bool)} (hrow : n.row? = some row)
    (hfit : n.Everywhere RowsFit) (hfree : n.TableFree) (g : Grid) :
    n.events.foldl Grid.after g = g ++ [row] := by
  cases n <;> cases hrow
  rename_i cells p
  have hw : (tableRow cells p).wrap? = some (.tableRow p) := rfl
  rw [events_of_wrap hw, foldl_around]
  change (eventsAll cells).foldl Grid.after (g ++ [[]]) = _
  rw [foldl_cells cells g [] fun k hk => ?_, List.nil_append]
  exact ⟨hfit.child hk, hfree.child hk, mt (hfit.here.child hw hk).1 nofun⟩

/-- The rows of a table with no other table in it add their grid. -/
theorem foldl_rows : ∀ (rows : List Node) (g : Grid),
    (∀ k ∈ rows, k.Everywhere RowsFit ∧ k.TableFree ∧ k.place ≠ .tableRow) →
    (eventsAll rows).foldl Grid.after g = g ++ grid rows
  | [], g, _ => by simp [eventsAll, grid]
  | k :: rest, g, h => by
    obtain ⟨hfit, hfree, hplace⟩ := h k (by simp)
    have hrest : ∀ l ∈ rest, l.Everywhere RowsFit ∧ l.TableFree ∧ l.place ≠ .tableRow :=
      fun l hl => h l (List.mem_cons_of_mem _ hl)
    rw [eventsAll, List.foldl_append]
    rcases hrow : k.row? with _ | row
    · have hgrid : grid (k :: rest) = grid rest := List.filterMap_cons_none hrow
      rw [(spares k hfit (place_ne_of_row? hrow) hplace _).1 hfree, foldl_rows rest g hrest, hgrid]
    · have hgrid : grid (k :: rest) = row :: grid rest := List.filterMap_cons_some hrow
      rw [foldl_row hrow hfit hfree, foldl_rows rest _ hrest, hgrid, List.append_assoc,
        List.singleton_append]

/-! ### Before a node -/

/-- Among content, whatever stands there leaves the empty grid as it is. -/
theorem foldl_nil_of_spares (h : ∀ k ∈ kids, k.Spares) :
    (eventsAll kids).foldl Grid.after [] = [] := by
  obtain ⟨hfree, hnot⟩ := foldl_spared kids h []
  by_cases hall : ∀ k ∈ kids, k.TableFree
  · exact hfree hall
  · exact hnot hall

theorem TablesApart.tableFree (h : n.TablesApart) (hw : n.wrap? = some c) (hc : c.room = .table)
    (hk : k ∈ n.children) : k.TableFree := by
  have htable : n.IsTable := by
    cases c <;> cases hc
    exact isTable_of_wrap hw
  intro m hm
  refine h htable m ?_
  rw [descendants_eq, mem_descendantsAll]
  exact ⟨k, hk, hm⟩

/-- Where tables stand apart, none has begun to be filled before a table. -/
theorem At.foldl_table (h : At n before m) (hfit : n.Everywhere RowsFit)
    (hapart : n.Everywhere TablesApart) (hrow : n.place ≠ .table) (hcell : n.place ≠ .tableRow)
    (hm : m.IsTable) : before.foldl Grid.after [] = [] := by
  induction h with
  | here n => rfl
  | @inside n m k c front back before hw hk h ih =>
    have hmem : k ∈ n.children := by simp [hk]
    rw [place_of_wrap hw] at hrow hcell
    have hroom : c.room ≠ .table := by
      intro hc
      exact hapart.here.tableFree hw hc hmem m h.mem hm
    have hroom' : c.room ≠ .tableRow := mt Session.place_of_room_tableRow hrow
    have hkids : ∀ l ∈ front, l.Spares := fun l hl =>
      spares_of_fit hfit hw hroom hroom' (by simp [hk, hl])
    obtain ⟨htable, htableRow⟩ := hfit.here.child hw hmem
    have henter : Grid.after [] (.enter c) = [] := by
      cases c <;> first | rfl | exact absurd rfl hrow
    rw [List.foldl_append, List.foldl_cons, henter, foldl_nil_of_spares hkids]
    exact ih (hfit.child hmem) (hapart.child hmem) (mt htable hroom) (mt htableRow hroom') hm

theorem grid_ne_nil_after {e : Event} (he : ∀ q, e ≠ .leave (.table q)) (hg : g ≠ []) :
    Grid.after g e ≠ [] := by
  obtain ⟨front, row, rfl⟩ := (List.eq_nil_or_concat g).resolve_left hg
  rw [List.concat_eq_append] at hg ⊢
  have hadd : ∀ cell, Grid.addCell (front ++ [row]) cell ≠ [] := by
    intro cell
    rw [Grid.addCell_concat]
    simp
  unfold Grid.after
  split
  · simp
  · exact hadd _
  · exact hadd _
  · rename_i q
    exact absurd rfl (he q)
  · exact hg

theorem leave_table_not_mem (hfree : n.TableFree) (q : Option Parameters) :
    Event.leave (.table q) ∉ n.events := by
  intro hmem
  obtain ⟨front, back, h⟩ := List.append_of_mem hmem
  obtain ⟨m, before, hat, hm, -⟩ := exists_at_of_leave n h
  exact hfree m hat.mem (isTable_of_wrap hm)

theorem foldl_ne_nil : ∀ {events : List Event} {g : Grid}, (∀ q, .leave (.table q) ∉ events) →
    g ≠ [] → events.foldl Grid.after g ≠ []
  | [], _, _, hg => hg
  | e :: rest, g, h, hg => by
    have hrest : ∀ q, .leave (.table q) ∉ rest := fun q hq => h q (List.mem_cons_of_mem _ hq)
    have he : ∀ q, e ≠ .leave (.table q) := fun q hq => h q (by simp [hq])
    rw [List.foldl_cons]
    exact foldl_ne_nil hrest (grid_ne_nil_after he hg)

/-- Where no table ends, a row that has begun is there when one of its cells is left. -/
theorem At.foldl_cell_of_tableFree (h : At n before m) (hfit : n.Everywhere RowsFit)
    (hfree : n.TableFree) (hm : m.wrap? = some c) (hc : c.place = .tableRow) : ∀ {g : Grid},
    (n.place = .tableRow → g ≠ []) →
    (before ++ .enter c :: eventsAll m.children).foldl Grid.after g ≠ [] := by
  induction h with
  | here n =>
    intro g hg
    have hne := hg ((place_of_wrap hm).trans hc)
    rw [List.nil_append]
    refine foldl_ne_nil (fun q hq => ?_) hne
    refine leave_table_not_mem hfree q ?_
    rw [events_of_wrap hm, Event.around]
    exact List.mem_append_left _ hq
  | @inside n m k d front back before hw hk h ih =>
    intro g hg
    have hmem : k ∈ n.children := by simp [hk]
    obtain ⟨-, htableRow⟩ := hfit.here.child hw hmem
    rw [List.append_assoc, List.foldl_append]
    refine ih (hfit.child hmem) (hfree.child hmem) hm fun hp => ?_
    have hd := Session.place_of_room_tableRow (htableRow hp)
    obtain ⟨q, rfl⟩ := Session.eq_tableRow_of_place hd
    rw [List.foldl_cons]
    refine foldl_ne_nil (fun q' hq => ?_) (by simp [Grid.after])
    obtain ⟨a, b, hab⟩ := List.append_of_mem hq
    obtain ⟨x, l, y, inner, rest, hfront, hl, -⟩ := exists_of_eventsAll_eq hab
    refine leave_table_not_mem (hfree.child (k := l) ?_) q' (by rw [hl]; simp)
    simp [hk, hfront]

/-- Where tables stand apart, each cell that is left has a row to go to. -/
theorem At.foldl_cell (h : At n before m) (hfit : n.Everywhere RowsFit)
    (hapart : n.Everywhere TablesApart) (hrow : n.place ≠ .table) (hcell : n.place ≠ .tableRow)
    (hm : m.wrap? = some c) (hc : c.place = .tableRow) (g : Grid) :
    (before ++ .enter c :: eventsAll m.children).foldl Grid.after g ≠ [] := by
  induction h generalizing g with
  | here n => exact absurd ((place_of_wrap hm).trans hc) hcell
  | @inside n m k d front back before hw hk h ih =>
    have hmem : k ∈ n.children := by simp [hk]
    obtain ⟨htable, htableRow⟩ := hfit.here.child hw hmem
    rw [place_of_wrap hw] at hrow
    have hroom' : d.room ≠ .tableRow := mt Session.place_of_room_tableRow hrow
    rw [List.append_assoc, List.foldl_append]
    by_cases hroom : d.room = .table
    · exact h.foldl_cell_of_tableFree (hfit.child hmem) (hapart.here.tableFree hw hroom hmem) hm hc
        fun hp => absurd (htableRow hp) hroom'
    · exact ih (hfit.child hmem) (hapart.child hmem) (mt htable hroom) (mt htableRow hroom') hm _

end Node

end Markwright
