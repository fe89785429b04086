import Markwright.Proofs.Bars
import Markwright.Proofs.Grid
import Markwright.Proofs.ParagraphLines

/-!
# The lines of a table

What is captured for a cell divides nothing and stays on one line, as long as no text in it is
broken and what is written as markup, code and references and titles, has no bar of its own
(`Session.inCell_of_steps`). So a table whose cells hold nothing else is written as one line for
each row and one for the divider, and the line of a row has as many bars as the row covers columns,
and one more (`Node.table_lines`). A bar in code is written as it is and divides its cell.
-/

namespace Markwright

open Escape (Contained Sealed bars)
open Node (eventsAll)

/-! ## What a cell may hold -/

/-- The reference and the title of a link or an image stay in a cell. -/
structure TargetContained (style : Style) (r : Reference) (q : Option Parameters) : Prop where
  address : Contained (style.address r).toList
  title : ∀ t, lookupIn q "title" = some t → Contained t.toList

/-- What is written around the content stays in a cell. A reference that is written as it is must
not protect what comes after it. -/
def Container.KeepsGrid (style : Style) : Container → Prop
  | .format .. => True
  | .link r freeStanding q => TargetContained style r q ∧
      (freeStanding = true → Escape.opensAfter false (style.address r).toList = false)
  | _ => False

/-- Inline content that stays in a cell: text without line breaks, and markup that has no bar. -/
def Node.KeepsGrid (style : Style) : Node → Prop
  | .text content => Unbroken content.toList
  | .verbatim content inLine _ => inLine = true ∧ Contained content.toList
  | .image r _ p => TargetContained style r p ∧
      ∀ s label t, Session.imageLabel style s r p = .ok (label, t) → Contained label.toList
  | .span f _ p => (Container.format f p).KeepsGrid style
  | .link r _ freeStanding p => (Container.link r freeStanding p).KeepsGrid style
  | .anchor _ => True
  | _ => False

theorem Node.KeepsGrid.wrap {style : Style} {n : Node} {c : Container} (h : n.KeepsGrid style)
    (hw : n.wrap? = some c) : c.KeepsGrid style := by
  cases n <;> cases hw <;> first | exact h | exact h.elim

/-! ## Printers -/

namespace Printer

variable {p : Printer} {s : String} {around : Surroundings}

/-- The printer of a cell: what it has written and what waits stay in the cell. -/
structure Clean (p : Printer) : Prop where
  linePrefixes : p.linePrefixes = []
  written : Sealed p.written.toList
  pending : ∀ text, p.pending = some text → '\n' ∉ text.toList

theorem clean_fresh (onNewLine : Bool) : (fresh onNewLine).Clean := ⟨rfl, .nil, nofun⟩

theorem Clean.write (h : p.Clean) (hs : Sealed s.toList) : (p.write s).Clean := by
  have hpassed : p.passed s = s.toList :=
    passed_of_head?_ne fun _ hhead => hs.breaks (List.mem_of_head? hhead)
  by_cases hnil : p.passed s = []
  · rwa [write_of_passed_nil hnil]
  · have hwritten : (p.write s).written.toList = p.written.toList ++ s.toList := by
      rw [written_write p s hnil, hpassed, before, indentation_of_nil h.linePrefixes,
        Shows.indentBreaks_nil]
      simp
    refine ⟨?_, hwritten ▸ h.written.append hs, fun text htext => h.pending text ?_⟩
    · rw [write_of_passed_ne hnil]
      exact h.linePrefixes
    · rwa [pending_write] at htext

theorem Clean.flush (h : p.Clean) (htable : around.inTable = true) : (p.flush around).Clean := by
  unfold Printer.flush
  split
  · exact h
  · rename_i text htext
    have hclean : Clean { p with pending := none, flushes := p.flushes + 1 } :=
      ⟨h.linePrefixes, h.written, nofun⟩
    refine hclean.write ?_
    rw [Escape.toList_markdown]
    exact Escape.sealed_escapeSpan htable (h.pending text htext)

theorem Clean.print (h : p.Clean) (htable : around.inTable = true) (hs : Sealed s.toList) :
    (p.print around s).Clean := (h.flush htable).write hs

theorem Clean.delay (h : p.Clean) (hs : '\n' ∉ s.toList) : (p.delay s).Clean := by
  refine ⟨h.linePrefixes, h.written, fun text htext => ?_⟩
  obtain rfl := Option.some.inj htext
  rw [String.toList_append, List.mem_append, not_or]
  refine ⟨?_, hs⟩
  rcases hpending : p.pending with _ | waiting
  · exact List.not_mem_nil
  · exact h.pending waiting hpending

theorem Clean.escapeSpaces (h : p.Clean) (b : Bool) : Clean { p with escapeSpaces := b } :=
  ⟨h.linePrefixes, h.written, h.pending⟩

end Printer

/-! ## Inside a cell -/

namespace Session

variable {style : Style} {s t u : Session} {c : Container} {n : Node} {text : String}

/-- A table is open, and what is written stays in a cell of it. -/
structure InCell (s : Session) : Prop where
  printer : s.printers.active.Clean
  tables : 0 < s.nesting.tables

namespace InCell

theorem inTable (h : s.InCell) : s.nesting.around.inTable = true := decide_eq_true h.tables

theorem of_eq (h : s.InCell) (ht : t.printers = s.printers)
    (hn : t.nesting.tables = s.nesting.tables) : t.InCell :=
  ⟨ht ▸ h.printer, hn ▸ h.tables⟩

theorem modify {f : Printer → Printer} (h : s.InCell) (hf : (f s.printers.active).Clean) :
    (s.modifyPrinter f).InCell := by
  refine ⟨?_, h.tables⟩
  rw [modifyPrinter, PrinterStack.modify, PrinterStack.active_setActive]
  exact hf

theorem print (h : s.InCell) (hs : Sealed text.toList) : (s.print text).InCell :=
  h.modify (h.printer.print h.inTable hs)

theorem flush (h : s.InCell) : s.flush.InCell := h.modify (h.printer.flush h.inTable)

theorem delay (h : s.InCell) (hs : '\n' ∉ text.toList) : (s.delay text).InCell :=
  h.modify (h.printer.delay hs)

theorem markFormat (h : s.InCell) (f : Format) (hs : Sealed text.toList) (entered : Bool) :
    (s.markFormat f text entered).InCell := by
  unfold Session.markFormat
  split
  · exact h
  · dsimp only
    split
    · exact (h.print hs).modify ((h.print hs).printer.escapeSpaces entered)
    · exact h.print hs

/-- What was captured for a cell, with what waits. -/
theorem sealed (h : s.InCell) :
    Sealed (s.printers.active.flush s.nesting.around).written.toList :=
  (h.printer.flush h.inTable).written

end InCell

theorem imageLabel_spec {r : Reference} {q : Option Parameters} {label : String}
    (h : imageLabel style s r q = .ok (label, t)) :
    t.printers = s.printers ∧ t.nesting = s.nesting ∧ t.table = s.table := by
  unfold imageLabel at h
  split at h
  · cases h
    exact ⟨rfl, rfl, rfl⟩
  · split at h <;> cases h <;> exact ⟨rfl, rfl, rfl⟩

theorem inCell_leaf {l : Leaf} (hn : n.KeepsGrid style) (hl : l ∈ n.leaves) (hs : s.InCell)
    (h : writeLeaf style s l = .ok t) : t.InCell := by
  cases n
  case text content =>
    obtain ⟨k, hk, rfl⟩ := List.mem_map.1 hl
    have hne : ∀ bs, k ≠ .lineBreak bs := by
      rintro bs rfl
      exact Text.Token.lineBreak_not_mem hn hk
    rw [writeLeaf_ofToken style hne] at h
    cases h
    refine hs.delay ?_
    rw [String.toList_ofList]
    exact fun hm => ((Text.Token.chars_spec hk hne).2 _ hm).2 rfl
  case verbatim content inLine q =>
    obtain ⟨rfl, hcontent⟩ := hn
    obtain rfl := List.mem_singleton.1 hl
    cases h
    exact hs.print (sealed_code hcontent)
  case image r f q =>
    obtain ⟨htarget, hlabel⟩ := hn
    obtain rfl := List.mem_singleton.1 hl
    unfold writeLeaf at h
    dsimp only at h
    split at h
    · cases h
    · rename_i label v hv
      cases h
      obtain ⟨hprinters, hnesting, -⟩ := imageLabel_spec hv
      refine InCell.print (hs.of_eq hprinters (congrArg Nesting.tables hnesting)) ?_
      have hopen : Sealed ['!', '['] := Escape.sealed_of_isPlain (by decide)
      have hall := sealed_labelled hopen (hlabel s label v hv) htarget.address htarget.title
      simpa using hall
  case anchor name =>
    obtain rfl := List.mem_singleton.1 hl
    cases h
    exact hs.of_eq rfl rfl
  all_goals first | exact hn.elim | cases hl

theorem inCell_leaves (hn : n.KeepsGrid style) : ∀ {leaves : List Leaf} {s : Session},
    (∀ l ∈ leaves, l ∈ n.leaves) → s.InCell → steps style s (leaves.map .leaf) = .ok t →
    t.InCell ∧ t.table = s.table
  | [], s, _, hs, h => by
    cases h
    exact ⟨hs, rfl⟩
  | l :: rest, s, hl, hs, h => by
    obtain ⟨u, hu, hrest⟩ := exists_of_steps_cons h
    obtain ⟨v, hv, rfl⟩ := exists_of_step_leaf hu
    have hin : InCell { v with nesting := { v.nesting with previous := Nesting.completes l } } :=
      (inCell_leaf hn (hl l (by simp)) hs hv).of_eq rfl rfl
    obtain ⟨ht, htable⟩ := inCell_leaves hn (fun l hm => hl l (List.mem_cons_of_mem _ hm)) hin hrest
    exact ⟨ht, htable.trans (writes_writeLeaf hv).table⟩

theorem inCell_entered (hc : c.KeepsGrid style) (hs : s.InCell) : (s.entered style c).InCell := by
  cases c
  case format f q =>
    have hin : InCell { s with nesting := s.nesting.enter (.format f q) } := hs.of_eq rfl rfl
    exact hin.markFormat f (sealed_openMarkup f) true
  case link r freeStanding q =>
    have hin : InCell { s with nesting := s.nesting.enter (.link r freeStanding q) } :=
      hs.of_eq rfl rfl
    simp only [entered, writeEnter]
    split
    · exact ⟨Printer.clean_fresh _, hin.tables⟩
    · exact hin.flush
  all_goals exact hc.elim

/-- Leaving a format or a link writes what stays in the cell. -/
theorem inCell_left (hc : c.KeepsGrid style) (hs : s.InCell) (h : (s.entered style c).Stays t)
    (ht : t.InCell) (hu : writeLeave style t c = .ok u) : u.InCell := by
  cases c
  case format f q =>
    cases hu
    exact ht.markFormat f (sealed_closeMarkup f) false
  case link r freeStanding q =>
    obtain ⟨htarget, hrest⟩ := hc
    have hlinks : t.nesting.links = s.nesting.links + 1 := by
      rw [h.links, (entered_spec style s _).1]
      rfl
    cases freeStanding with
    | true =>
      cases hu
      exact ht.print ⟨htarget.address, hrest rfl⟩
    | false =>
      by_cases hone : t.nesting.links = 1
      · have hin : InCell (flush { s with nesting := s.nesting.enter (.link r false q) }) :=
          InCell.flush (hs.of_eq rfl rfl)
        have hpush : (s.entered style (.link r false q)).printers =
            (flush { s with nesting := s.nesting.enter (.link r false q) }).printers.push := by
          have hlt : s.nesting.links + 1 < 2 := by omega
          simp only [entered, writeEnter]
          rw [if_pos ⟨hlt, rfl⟩]
          rfl
        have hcaptures := PrinterStack.captures_push
          (flush { s with nesting := s.nesting.enter (.link r false q) }).printers
        rw [← hpush] at hcaptures
        have hpop := popCapture_of_captures (hcaptures.extends h.printers)
        simp only [writeLeave, hone, hpop, Bool.false_eq_true, if_false, if_true,
          Except.ok.injEq] at hu
        subst hu
        refine InCell.print ⟨hin.printer, ht.tables⟩ ?_
        exact sealed_linkText ht.sealed.toContained htarget.address htarget.title
      · simp only [writeLeave, hone, Bool.false_eq_true, if_false, Except.ok.injEq] at hu
        exact hu ▸ ht
  all_goals exact hc.elim

theorem inCell_eventsAll : ∀ {kids : List Node} {s t : Session},
    (∀ k ∈ kids, ∀ s t : Session, 0 ≤ s.nesting.links → s.InCell → steps style s k.events = .ok t →
      t.InCell ∧ t.table = s.table) →
    0 ≤ s.nesting.links → s.InCell → steps style s (eventsAll kids) = .ok t →
    t.InCell ∧ t.table = s.table
  | [], s, _, _, _, hs, h => by
    cases h
    exact ⟨hs, rfl⟩
  | k :: rest, s, t, hkids, hl, hs, h => by
    obtain ⟨u, hk, hrest⟩ := exists_of_steps_append h
    obtain ⟨hu, htable⟩ := hkids k (by simp) s u hl hs hk
    have hlinks := (stays_of_steps k s u hl hk).links
    obtain ⟨ht, htable'⟩ := inCell_eventsAll (fun l hm => hkids l (List.mem_cons_of_mem _ hm))
      (hlinks ▸ hl) hu hrest
    exact ⟨ht, htable'.trans htable⟩

/-- What inline content writes in a cell stays there, and no table is filled meanwhile. -/
theorem inCell_of_steps (n : Node) : n.Everywhere (Node.KeepsGrid style) → ∀ s t : Session,
    0 ≤ s.nesting.links → s.InCell → steps style s n.events = .ok t →
    t.InCell ∧ t.table = s.table := by
  induction n using Node.childrenInduction with
  | step n ih =>
  intro hn s t hl hs h
  rcases hw : n.wrap? with _ | c
  · rw [Node.events_of_leaves hw] at h
    exact inCell_leaves hn.here (fun l hm => hm) hs h
  have hc := hn.here.wrap hw
  have hplace : c.place ≠ .table ∧ c.room ≠ .table ∧ c.place ≠ .tableRow := by
    cases c <;> first | exact hc.elim | exact ⟨nofun, nofun, nofun⟩
  rw [Node.events_of_wrap hw] at h
  obtain ⟨u, hu, hleave⟩ := exists_of_steps_around h
  obtain ⟨v, m, hv, hm, rfl⟩ := exists_of_step_leave hleave
  have hstays := stays_of_eventsAll (fun k _ => stays_of_steps k) (links_entered hl c) hu
  obtain ⟨hin, htable⟩ := inCell_eventsAll (fun k hk => ih k hk (hn.child hk)) (links_entered hl c)
    (inCell_entered hc hs) hu
  have hout := inCell_left hc hs hstays hin hv
  refine ⟨hout.of_eq rfl ?_, ?_⟩
  · cases c <;> first | exact hc.elim | (cases hm; rfl)
  · exact (table_writeLeave hplace.2 hv).trans
      (htable.trans ((entered_spec style s c).2.1 hplace.1))

/-! ## Rows -/

/-- A table is filled, and the contents of its cells so far divide nothing. -/
structure Fills (s : Session) : Prop where
  links : 0 ≤ s.nesting.links
  tables : 0 < s.nesting.tables
  contents : ∀ row ∈ s.table.rows, ∀ cell ∈ row, Contained cell.content.toList

/-- Cells and rows came in, and all that was written was captured for them. -/
structure Filled (s t : Session) : Prop where
  fills : t.Fills
  printers : t.printers = s.printers
  settings : t.table.settings = s.table.settings

protected theorem Filled.trans (h : s.Filled t) (k : t.Filled u) : s.Filled u :=
  ⟨k.fills, k.printers.trans h.printers, k.settings.trans h.settings⟩

theorem contained_addCell {t u : Table.Layout Float} {content : String} {isHeader : Bool}
    {q : Option Parameters} (ht : ∀ row ∈ t.rows, ∀ cell ∈ row, Contained cell.content.toList)
    (hc : Contained content.toList) (h : t.addCell content isHeader q = .ok u) :
    (∀ row ∈ u.rows, ∀ cell ∈ row, Contained cell.content.toList) ∧ u.settings = t.settings := by
  obtain ⟨front, row, span, hrows, -, hnew, hsettings, -⟩ := Table.Layout.exists_of_addCell h
  rw [hrows] at ht
  refine ⟨fun r hr cell hcell => ?_, hsettings⟩
  rw [hnew] at hr
  rcases List.mem_append.1 hr with hr | hr
  · exact ht r (List.mem_append_left _ hr) cell hcell
  · obtain rfl := List.mem_singleton.1 hr
    rcases List.mem_append.1 hcell with hcell | hcell
    · exact ht row (by simp) cell hcell
    · obtain rfl := List.mem_singleton.1 hcell
      exact hc.strip

theorem filled_eventsAll : ∀ {kids : List Node} {s t : Session},
    (∀ k ∈ kids, ∀ s t : Session, s.Fills → steps style s k.events = .ok t → s.Filled t) →
    s.Fills → steps style s (eventsAll kids) = .ok t → s.Filled t
  | [], s, _, _, hs, h => by
    cases h
    exact ⟨hs, rfl, rfl⟩
  | k :: rest, s, t, hkids, hs, h => by
    obtain ⟨u, hk, hrest⟩ := exists_of_steps_append h
    have hu := hkids k (by simp) s u hs hk
    exact hu.trans
      (filled_eventsAll (fun l hm => hkids l (List.mem_cons_of_mem _ hm)) hu.fills hrest)

/-- A cell adds what was captured for it. -/
theorem filled_cell (hplace : n.place = .tableRow)
    (hkids : ∀ k ∈ n.children, k.Everywhere (Node.KeepsGrid style)) (s t : Session) (hs : s.Fills)
    (h : steps style s n.events = .ok t) : s.Filled t := by
  have hstays := stays_of_steps n s t hs.links h
  obtain ⟨c, hw, hplace⟩ := Node.exists_wrap_of_place hplace nofun
  rw [Node.events_of_wrap hw] at h
  obtain ⟨u, hu, hleave⟩ := exists_of_steps_around h
  obtain ⟨v, m, hv, -, rfl⟩ := exists_of_step_leave hleave
  obtain ⟨hcaptures, hentered⟩ : s.printers.Captures (s.entered style c).printers ∧
      (s.entered style c).InCell := by
    have htables : 0 < (s.nesting.enter c).tables := by
      obtain ⟨q, rfl | rfl⟩ := eq_cell_of_place hplace <;> exact hs.tables
    obtain ⟨q, rfl | rfl⟩ := eq_cell_of_place hplace <;>
      exact ⟨PrinterStack.captures_push _, Printer.clean_fresh _, htables⟩
  have hin := stays_of_eventsAll (fun k _ => stays_of_steps k) (links_entered hs.links c) hu
  obtain ⟨hcell, htable⟩ := inCell_eventsAll (fun k hk => inCell_of_steps k (hkids k hk))
    (links_entered hs.links c) hentered hu
  have hsame : u.table = s.table :=
    htable.trans ((entered_spec style s c).2.1 (by rw [hplace]; decide))
  have hout := hcaptures.extends hin.printers
  obtain ⟨isHeader, q, hleaves⟩ := exists_writeLeave_eq_leaveCell style u hplace
  rw [hleaves] at hv
  obtain ⟨content, w, hpop, hadd⟩ := exists_addCell_of_leaveCell hv
  rw [popCapture_of_captures hout, Except.ok.injEq, Prod.mk.injEq] at hpop
  rw [hsame, ← hpop.1] at hadd
  have hprinters : v.printers = s.printers := printers_leaveCell hout hv
  obtain ⟨hcontents, hsettings⟩ :=
    contained_addCell hs.contents hcell.sealed.toContained hadd
  exact ⟨⟨hstays.links ▸ hs.links, hstays.tables ▸ hs.tables, hcontents⟩,
    hprinters, hsettings⟩

/-- A row is begun, and its cells come in. -/
theorem filled_row (hplace : n.place = .table) (hfits : n.Fits)
    (hkeeps : ∀ cell ∈ n.children, ∀ k ∈ cell.children, k.Everywhere (Node.KeepsGrid style))
    (s t : Session) (hs : s.Fills) (h : steps style s n.events = .ok t) : s.Filled t := by
  have hroom := Node.Regular.room_of_place_table hplace
  have hstays := stays_of_steps n s t hs.links h
  obtain ⟨c, hw, hplace⟩ := Node.exists_wrap_of_place hplace nofun
  obtain ⟨q, rfl⟩ := eq_tableRow_of_place hplace
  rw [Node.events_of_wrap hw] at h
  obtain ⟨u, hu, hleave⟩ := exists_of_steps_around h
  obtain ⟨v, m, hv, -, rfl⟩ := exists_of_step_leave hleave
  cases hv
  have hbegun : (s.entered style (.tableRow q)).Fills := by
    refine ⟨hs.links, hs.tables, fun row hrow cell hcell => ?_⟩
    rcases List.mem_append.1 hrow with hrow | hrow
    · exact hs.contents row hrow cell hcell
    · obtain rfl := List.mem_singleton.1 hrow
      cases hcell
  have hfilled := filled_eventsAll
    (fun k hk => filled_cell ((hfits k hk).trans hroom) (hkeeps k hk)) hbegun hu
  exact ⟨⟨hstays.links ▸ hs.links, hstays.tables ▸ hs.tables, hfilled.fills.contents⟩,
    hfilled.printers, hfilled.settings⟩

/-! ## The table -/

variable {w : List Char} {suppressed onNewLine : Bool} {rows : List Node} {q : Parameters}

theorem written_leaveTable (h : s.Shows ⟨w, suppressed, onNewLine, none⟩)
    (hne : s.table.draw.toList ≠ []) (hhead : s.table.draw.toList.head? ≠ some '\n') :
    s.leaveTable.written.toList =
      w ++ (if suppressed then [] else ['\n', '\n']) ++ s.table.draw.toList := by
  cases suppressed with
  | true =>
    have hdropped : s.emptyLine.Shows ⟨w, true, onNewLine, none⟩ := by
      refine h.modify (f := (·.print s.nesting.around "\n\n")) ?_
      rw [Printer.print_of_suppressed _ h.root.suppressed h.root.pending (by simp)]
      exact h.root
    have hdrawn := hdropped.print s.table.draw hne fun _ => hhead
    rw [if_pos rfl, List.append_nil]
    exact hdrawn.root.written
  | false =>
    have hempty := h.print_shown "\n\n" (by decide)
    have hdrawn := hempty.print_shown s.table.draw hne
    exact hdrawn.root.written

/-- What is written before a block that asks for an empty line. -/
def blockStart (s : Session) : List Char :=
  s.written.toList ++ if s.printers.root.suppressBreaks then [] else ['\n', '\n']

theorem lastLine_blockStart (h : s.printers.root.suppressBreaks = false ∨ s.written = "") :
    lastLine s.blockStart = [] := by
  rw [blockStart]
  cases hs : s.printers.root.suppressBreaks with
  | false =>
    have hbreaks : s.written.toList ++ ['\n', '\n'] =
        (s.written.toList ++ ['\n']) ++ ['\n'] := by simp
    simp only [Bool.false_eq_true, if_false]
    rw [hbreaks, lastLine_append_break _ [] List.not_mem_nil]
  | true =>
    rw [h.resolve_left (by simp [hs])]
    rfl

theorem Neutral.shows (h : s.Neutral) :
    s.Shows ⟨s.written.toList, s.printers.root.suppressBreaks, s.printers.root.onNewLine, none⟩ :=
  ⟨h.captures, h.linePrefixes, h.escapeSpaces, rfl, rfl, rfl, h.pending⟩

end Session

namespace Node

theorem length_grid : ∀ {rows : List Node}, (∀ r ∈ rows, r.place = .table) →
    (grid rows).length = rows.length
  | [], _ => rfl
  | r :: rest, h => by
    have hrest := length_grid fun l hl => h l (List.mem_cons_of_mem r hl)
    rcases hrow : r.row? with _ | row
    · exact absurd (h r (by simp)) (place_ne_of_row? hrow)
    · rw [grid] at hrest ⊢
      rw [List.filterMap_cons_some hrow, List.length_cons, List.length_cons, hrest]

end Node

namespace Session

/-- What is asked of a table here: rows and cells in their places, and contents that stay in their
cells. -/
structure Gridded (style : Style) (rows : List Node) : Prop where
  ne : rows ≠ []
  regular : ∀ r ∈ rows, r.Regular style ∧ r.place = .table
  keeps : ∀ r ∈ rows, ∀ cell ∈ r.children, ∀ k ∈ cell.children,
    k.Everywhere (Node.KeepsGrid style)

variable {style : Style} {s t : Session} {rows : List Node} {q : Parameters}

theorem records_rows (h : Gridded style rows) (hs : s.table.Records [])
    (ht : steps style s (eventsAll rows) = .ok t) : t.table.Records (Node.grid rows) := by
  have hrows := records_steps hs ht
  rwa [Node.foldl_rows rows [] fun r hr => ?_, List.nil_append] at hrows
  obtain ⟨hregular, hplace⟩ := h.regular r hr
  exact ⟨(tabular_of_regular hregular).rows, hregular.tableFree_of_place (Or.inl hplace),
    by rw [hplace]; decide⟩

/-- A table is written as lines, after what comes before a block. -/
theorem exists_lines_of_table (h : Gridded style rows) (hs : s.Neutral)
    (htable : s.table = (start style).table) (hpad : 1 ≤ style.options.tableMinPadding)
    (ht : steps style s (Node.table rows q).events = .ok t) : ∃ top divider bottom,
      t.written.toList = s.blockStart ++
        (top ++ divider :: bottom).flatMap (fun line => line ++ ['\n']) ∧
      (∀ line ∈ top ++ divider :: bottom, '\n' ∉ line) ∧
      top.length = (Node.grid rows).headerRows ∧
      (top ++ bottom).map (bars false) =
        (Node.grid rows).map fun row => (row.map Prod.fst).sum + 1 := by
  obtain ⟨v, hv, hleave⟩ := exists_of_steps_around ht
  obtain ⟨x, m, hx, -, rfl⟩ := exists_of_step_leave hleave
  cases hx
  have hentered : (s.entered style (.table q)).table = s.table := rfl
  have hfills : (s.entered style (.table q)).Fills := by
    have hlinks : s.nesting.links = 0 := hs.counters .links
    have htables : s.nesting.tables = 0 := hs.counters .tables
    refine ⟨Int.le_of_eq hlinks.symm, ?_, fun row hrow => ?_⟩
    · rw [(entered_spec style s _).1]
      simp [Nesting.enter, htables]
    · rw [hentered, hs.rows] at hrow
      cases hrow
  have hfilled := filled_eventsAll (fun r hr => filled_row (h.regular r hr).2
    (h.regular r hr).1.fits.here (h.keeps r hr)) hfills hv
  have hrecords : v.table.Records (Node.grid rows) := by
    refine records_rows h ?_ hv
    rw [hentered, htable]
    exact Table.Layout.records_clear (start style).table
  have hlength : v.table.rows.length = rows.length :=
    hrecords.length_eq.trans (Node.length_grid fun r hr => (h.regular r hr).2)
  have hrows : v.table.rows ≠ [] := by
    rw [← List.length_pos_iff, hlength]
    exact List.length_pos_iff.2 h.ne
  have hsettings : 1 ≤ v.table.settings.minPadding := by
    rw [hfilled.settings, hentered, htable]
    exact Int.ofNat_le.2 hpad
  obtain ⟨top, divider, bottom, hdraw, hbreaks, htop, hbars⟩ :=
    v.table.draw_lines hrows hsettings hfilled.fills.contents
  refine ⟨top, divider, bottom, ?_, hbreaks, ?_, ?_⟩
  · have hshows : v.Shows ⟨s.written.toList, s.printers.root.suppressBreaks, false, none⟩ := by
      have hroot : Printer.Shows { s.printers.root with onNewLine := false }
          ⟨s.written.toList, s.printers.root.suppressBreaks, false, none⟩ :=
        ⟨hs.linePrefixes, hs.escapeSpaces, rfl, rfl, rfl, hs.pending⟩
      exact (hs.shows.modify (f := ({ · with onNewLine := false })) hroot).of_eq hfilled.printers
    obtain ⟨rest, hrest⟩ := v.table.exists_draw hrows
    have hwritten := written_leaveTable hshows (by simp [hrest]) (by simp [hrest])
    rw [hdraw] at hwritten
    exact hwritten
  · rw [htop, hrecords.headerRows, hrecords.length_eq]
    exact Nat.min_eq_left (Grid.headerRows_le _)
  · rw [hbars]
    have hspans := congrArg (List.map fun l : List Nat => l.sum + 1) hrecords.spans
    simpa [List.map_map, Function.comp_def] using hspans

/-- What comes after is written behind it. -/
theorem exists_written_eventsAll {kids : List Node} (hl : 0 ≤ s.nesting.links)
    (hs : s.printers.captures = []) (h : steps style s (eventsAll kids) = .ok t) :
    ∃ more, t.written = s.written ++ more := by
  have hstays := stays_of_eventsAll (fun k _ => stays_of_steps k) hl h
  have hext := hstays.printers.active
  rw [PrinterStack.active_eq_root hs,
    PrinterStack.active_eq_root (hstays.printers.captures_eq_nil hs)] at hext
  exact hext.written

end Session

namespace Node

variable {style : Style} {front back rows : List Node} {p q : Parameters}

/-- A table among the blocks of a document, whose cells hold inline content that stays in a cell. It
has a line for each row and one for the divider, and the line of a row has as many bars as the row
covers columns, and one more. Its first line starts one unless breaks are suppressed where something
is written. -/
theorem table_lines (hblocks : ∀ b ∈ front ++ back, b.IsBlock)
    (hregular : (document (front ++ .table rows q :: back) p).Regular style)
    (hpad : 1 ≤ style.options.tableMinPadding) (hne : rows ≠ [])
    (hkeeps : ∀ r ∈ rows, ∀ cell ∈ r.children, ∀ k ∈ cell.children,
      k.Everywhere (KeepsGrid style)) :
    ∃ s top divider bottom after,
      Session.run style (.enter (.document p) :: eventsAll front) = .ok s ∧
      (document (front ++ .table rows q :: back) p).render style =
        .ok (style.options.finish (String.ofList (s.blockStart ++
          (top ++ divider :: bottom).flatMap (fun line => line ++ ['\n']) ++ after))) ∧
      (s.printers.root.suppressBreaks = false ∨ s.written = "" → lastLine s.blockStart = []) ∧
      (∀ line ∈ top ++ divider :: bottom, '\n' ∉ line) ∧
      top.length = (grid rows).headerRows ∧ top.length + bottom.length = rows.length ∧
      (top ++ bottom).map (bars false) = (grid rows).map fun row => (row.map Prod.fst).sum + 1 := by
  have hchildren : ∀ b ∈ front ++ .table rows q :: back, b.Regular style ∧ b.place = .content :=
    fun b hb => ⟨hregular.child hb, hregular.place_child hb⟩
  have hall : ∀ b ∈ front ++ .table rows q :: back, b.IsBlock := by
    intro b hb
    rcases List.mem_append.1 hb with hb | hb
    · exact hblocks b (List.mem_append_left _ hb)
    · rcases List.mem_cons.1 hb with rfl | hb
      · trivial
      · exact hblocks b (List.mem_append_right _ hb)
  have htable : (Node.table rows q).Regular style := (hchildren _ (by simp)).1
  have hgridded : Session.Gridded style rows :=
    ⟨hne, fun r hr => ⟨htable.child hr, htable.place_child hr⟩, hkeeps⟩
  obtain ⟨s, -, hfront, hs, hkeeps, -, -⟩ := session_document
    (fun b hb => hblocks b (List.mem_append_left _ hb))
    (fun b hb => hchildren b (List.mem_append_left _ hb)) p
  obtain ⟨x, f, hsteps, -, -, hsession, hwritten⟩ := session_document hall hchildren p
  rw [eventsAll_append, Session.steps_append hfront, eventsAll] at hsteps
  obtain ⟨t, ht, hback⟩ := Session.exists_of_steps_append hsteps
  obtain ⟨top, divider, bottom, hlines, hbreaks, htop, hbars⟩ :=
    Session.exists_lines_of_table hgridded hs hkeeps.table.eq_of_content hpad ht
  have hlinks : 0 ≤ s.nesting.links := Int.le_of_eq (hs.counters .links).symm
  have hstays := Session.stays_of_steps _ s t hlinks ht
  obtain ⟨after, hafter⟩ := Session.exists_written_eventsAll (hstays.links ▸ hlinks)
    (hstays.printers.captures_eq_nil hs.captures) hback
  refine ⟨s, top, divider, bottom, after.toList, (Session.run_document style p _).trans hfront, ?_,
    Session.lastLine_blockStart, hbreaks, htop, ?_, hbars⟩
  · rw [render_of_session hsession, hwritten, hafter, ← hlines, String.ofList_append,
      String.ofList_toList, String.ofList_toList]
  · have hlength := congrArg List.length hbars
    rw [List.length_map, List.length_append, List.length_map,
      length_grid fun r hr => (hgridded.regular r hr).2] at hlength
    exact hlength

end Node

/-- The rows of a table of one cell. -/
def oneCell (content : Node) : List Node :=
  [.tableRow [.tableCell [content] false .empty] .empty]

theorem regular_oneCell (style : Style) (text : String) :
    (Node.document ([] ++ .table (oneCell (.text text)) .empty :: []) .empty).Regular style := by
  have hone : Table.spanOf (Parameters.empty.get? "colspan") = .ok 1 := rfl
  constructor <;> rw [Node.Everywhere] <;>
    simp only [oneCell, List.nil_append, Node.descendants, Node.descendantsAll, List.append_nil,
      List.forall_mem_cons]
  · simp [Node.Fits, Node.children, Node.place, Node.room, Node.wrap?, Container.place,
      Container.room]
  · simp [Node.SpanValid, hone]
  · simp [Node.Labelled]
  · simp [Node.CellsPlain, Node.IsCell, Node.IsTable, Node.descendants, Node.descendantsAll]

theorem Node.table_lines_barredText :
    (document ([] ++ .table (oneCell (.text "a|b")) .empty :: []) .empty).Regular (.standard {}) ∧
      (Node.text "a|b").KeepsGrid (.standard {}) ∧ ∃ s divider line after,
        (document ([] ++ .table (oneCell (.text "a|b")) .empty :: []) .empty).render
            (.standard {}) =
          .ok (Options.finish {} (String.ofList (Session.blockStart s ++
            [divider, line].flatMap (fun line => line ++ ['\n']) ++ after))) ∧
        '\n' ∉ line ∧ bars false line = 2 := by
  have hregular := regular_oneCell (.standard {}) "a|b"
  have hkeeps : (Node.text "a|b").KeepsGrid (.standard {}) := by
    simp [Node.KeepsGrid, Unbroken]
  have hcells : ∀ r ∈ oneCell (.text "a|b"), ∀ cell ∈ r.children, ∀ k ∈ cell.children,
      k.Everywhere (Node.KeepsGrid (.standard {})) := by
    simp [oneCell, children, Everywhere, descendants, hkeeps]
  obtain ⟨s, top, divider, bottom, after, -, hrender, -, hbreaks, htop, hlength, hbars⟩ :=
    table_lines (by simp) hregular (Nat.le_refl 1) (List.cons_ne_nil _ _) hcells
  -- No row is a header row, so the divider comes first and one line follows it.
  obtain rfl : top = [] := List.length_eq_zero_iff.1 htop
  obtain ⟨line, rfl⟩ : ∃ line, bottom = [line] := by
    rw [List.length_nil, Nat.zero_add] at hlength
    exact List.length_eq_one_iff.1 hlength
  have htwo : bars false line = 2 := List.head_eq_of_cons_eq hbars
  exact ⟨hregular, hkeeps, s, divider, line, after, hrender, hbreaks line (by simp), htwo⟩

/-- A bar in code is written as it is, and the only cell of the row is divided. -/
theorem barredCode_divided :
    ((Node.document [.table (oneCell (.verbatim "a|b" true .empty)) .empty] .empty).render
      (.standard {})).toOption = some "|-------|\n| `a|b` |\n" ∧
      bars false "| `a|b` |".toList = 3 := by
  decide +kernel

end Markwright
