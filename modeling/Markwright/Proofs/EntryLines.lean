import Markwright.Proofs.Entries
import Markwright.Proofs.Tables

/-!
# The lines that entries start

The marker of an item stands on the line, and what follows it in the item is indented deeper than
the item itself. So once an item has ended the line that was begun last reaches past the margin of
its list (`Printer.Past`), and the next item starts a line only by the line break it writes. A
description writes none. It starts a line behind a term, which ends with a break, but never behind
another description. The breaks are dropped where nothing has been written since an item or a
quotation was begun, and then the marker stands behind whatever came before
(`Node.entries_start_lines`).
-/

namespace Markwright

open Node (eventsAll)

/-! ## Past the margin -/

/-- A line of marks and blanks that is no longer than the margin does not look like this. -/
def Clears (margin line : List Char) : Prop :=
  (∃ c ∈ line, c ≠ ' ' ∧ c ≠ '>') ∨ margin.length < line.length

section Clears

variable {margin line : List Char}

theorem Clears.append (h : Clears margin line) (cs : List Char) : Clears margin (line ++ cs) := by
  rcases h with ⟨c, hc, hmark⟩ | hlong
  · exact Or.inl ⟨c, List.mem_append_left cs hc, hmark⟩
  · exact Or.inr (by rw [List.length_append]; omega)

theorem Clears.ne (h : Clears margin line) (hmargin : ∀ c ∈ margin, c = ' ' ∨ c = '>') :
    line ≠ margin := by
  rintro rfl
  rcases h with ⟨c, hc, hblank, hquote⟩ | hlong
  · exact (hmargin c hc).elim hblank hquote
  · exact absurd hlong (Nat.lt_irrefl _)

end Clears

namespace Printer

variable {margin : List Char} {p q : Printer}

/-- Lines are indented deeper than the margin, and the last one reaches past it. -/
structure Past (margin : List Char) (p : Printer) : Prop where
  indents : ∀ x ∈ p.linePrefixes, IsIndent x
  deeper : margin.length < p.indentation.length
  begun : p.pageBlank = false
  line : Clears margin (lastLine p.written.toList)

theorem mem_indentation (h : p.Indented) : ∀ c ∈ p.indentation, c = ' ' ∨ c = '>' := by
  intro c hc
  rw [indentation, String.toList_join, List.mem_flatMap] at hc
  obtain ⟨x, hx, hc⟩ := hc
  rcases h.indents x hx with rfl | hblanks
  · exact (List.forall_iff_forall_mem.1 (by decide) :
      ∀ d ∈ "> ".toList, d = ' ' ∨ d = '>') c hc
  · exact Or.inl (hblanks c hc)

/-- At the margin of a list nothing stands on the line that reaches past it. -/
theorem not_atMargin (h : p.Indented) (hbegun : p.pageBlank = false)
    (hline : Clears p.indentation (lastLine p.written.toList)) : ¬ p.AtMargin := by
  have hbefore : p.before [] = p.written.toList := by simp [before, hbegun, indentBreaks]
  rw [AtMargin, hbefore]
  exact hline.ne (mem_indentation h)

namespace Past

theorem before (h : p.Past margin) (cs : List Char) : Clears margin (lastLine (p.before cs)) := by
  induction cs using List.reverseRecOn with
  | nil => simpa [Printer.before, h.begun, indentBreaks] using h.line
  | append_singleton cs c ih =>
    rw [before_concat]
    split
    · rw [lastLine_append_break _ _ (break_not_mem_indentation h.indents)]
      exact Or.inr h.deeper
    · rename_i hc
      rw [lastLine_append_of_not_mem (by simpa using Ne.symm hc)]
      exact ih.append [c]

theorem write (h : p.Past margin) (s : String) : (p.write s).Past margin := by
  by_cases hs : p.passed s = []
  · rwa [write_of_passed_nil hs]
  · have hline := h.before (p.passed s)
    rw [← written_write p s hs] at hline
    rw [write_of_passed_ne hs] at hline ⊢
    exact ⟨h.indents, h.deeper, rfl, hline⟩

theorem flush (h : p.Past margin) (around : Surroundings) : (p.flush around).Past margin := by
  unfold Printer.flush
  split
  · exact h
  · have hcleared : Past margin { p with pending := none, flushes := p.flushes + 1 } :=
      ⟨h.indents, h.deeper, h.begun, h.line⟩
    exact hcleared.write _

theorem pushPrefix {x : String} (h : p.Past margin) (hx : IsIndent x) :
    (p.pushPrefix x).Past margin := by
  refine ⟨fun y hy => ?_, ?_, h.begun, h.line⟩
  · rcases List.mem_append.1 hy with hy | hy
    · exact h.indents y hy
    · exact List.mem_singleton.1 hy ▸ hx
  · rw [indentation_of_append (rfl : (p.pushPrefix x).linePrefixes = _), List.length_append]
    exact Nat.lt_add_right _ h.deeper

theorem moves (h : p.Past margin) (hpq : p.Moves q) : q.Past margin := by
  induction hpq with
  | refl => exact h
  | print _ around s ih => exact (ih.flush around).write s
  | flush _ around ih => exact ih.flush around
  | pushPrefix _ hx _ ih => exact ih.pushPrefix hx
  | escapeSpaces _ _ _ ih | leaveLine _ ih => exact ⟨ih.indents, ih.deeper, ih.begun, ih.line⟩

end Past

end Printer

/-! ## Behind an entry -/

/-- An item or a description. -/
def Container.IsEntry : Container → Prop
  | .listItem _ | .definitionDescription => True
  | _ => False

namespace Session

variable {style : Style} {s t u : Session} {c : Container} {kids : List Node}
  {margin : List Char}

theorem past_around (hin : (s.entered style c).Stays t)
    (h : ∀ margin, (s.entered style c).printers.active.Past margin →
      t.printers.active.Past margin)
    (hleave : step style t (.leave c) = .ok u) (hout : s.Stays u)
    (hs : s.printers.active.Past margin) : u.printers.active.Past margin := by
  rcases exists_moves_of_around hin hleave hout with
    ⟨q, r, hq, hentered, -, hr, hleft⟩ | ⟨q, hq, hqu⟩
  · have hinside : (s.entered style c).printers.active.Past margin := by
      have hpast := hs.moves hq
      rcases hentered with hentered | ⟨-, -, hentered⟩
      · exact hentered ▸ hpast
      · rw [hentered]
        exact ⟨hpast.indents, hpast.deeper, hpast.begun, hpast.line⟩
    have hpast := (h margin hinside).moves hr
    rcases hleft with hleft | ⟨x, hx⟩
    · exact hleft ▸ hpast
    · have hmargin := Printer.indentation_of_extends hout.printers.active
      obtain ⟨y, -, hy⟩ := Option.map_eq_some_iff.1 hx
      obtain ⟨-, hu⟩ := Prod.mk.inj hy
      refine ⟨fun z hz => ?_, by rw [hmargin]; exact hs.deeper, ?_, ?_⟩ <;> rw [← hu] at *
      · exact hpast.indents z (List.dropLast_subset _ hz)
      · exact hpast.begun
      · exact hpast.line
  · exact (hs.moves hq).moves hqu

theorem past_leaf {l : Leaf} (h : step style s (.leaf l) = .ok t)
    (hs : s.printers.active.Past margin) : t.printers.active.Past margin := by
  have hstep := printers_step h
  generalize t.printers = after at hstep
  cases hstep with
  | stay hq =>
    rw [PrinterStack.active_setActive]
    exact hs.moves hq
  | delay text =>
    rw [PrinterStack.modify, PrinterStack.active_setActive]
    exact ⟨hs.indents, hs.deeper, hs.begun, hs.line⟩

/-- The line that was begun last reaches past the margin after nodes as it did before. -/
def StaysPast (s : Session) (_ : List Event) (t : Session) : Prop :=
  ∀ margin, s.printers.active.Past margin → t.printers.active.Past margin

theorem staysPast_of_eventsAll (hl : 0 ≤ s.nesting.links)
    (h : steps style s (eventsAll kids) = .ok t) : s.StaysPast (eventsAll kids) t := by
  have hnil : ∀ s : Session, s.StaysPast [] s := fun _ _ hs => hs
  have happend : ∀ {s t u : Session} {a b}, s.StaysPast a t → t.StaysPast b u →
      s.StaysPast (a ++ b) u := fun ha hb margin hs => hb margin (ha margin hs)
  refine relates_of_eventsAll hnil happend (fun k _ => ?_) hl h
  exact relates_of_steps hnil happend (fun hleaf _ => past_leaf hleaf)
    (fun hin h hleave hout _ => past_around hin h hleave hout) k

theorem past_entered (hc : c.IsEntry) (hs : s.printers.Indented) :
    (s.entered style c).printers.active.Past s.printers.active.indentation := by
  have hindented := hs.step (printers_step (step_enter style s c))
  have hprefix : (s.entered style c).printers.active.linePrefixes =
      s.printers.active.linePrefixes ++ [indentation style] := by
    have hheld : c.held style = ⟨[indentation style], false⟩ := by
      cases c <;> first | rfl | exact hc.elim
    have hwrites := writes_writeEnter style (s := { s with nesting := s.nesting.enter c })
      (c := c) (by cases c <;> first | exact id | exact hc.elim)
      (by cases c <;> first | exact hc.elim | nofun)
    rw [hheld] at hwrites
    exact hwrites.printers.active.linePrefixes
  obtain ⟨text, hwritten⟩ : ∃ text, (s.entered style c).printers.active.written.toList =
      text ++ (s.entryMarker style c).toList := by
    cases c
    case listItem q => exact ⟨_, written_entered_item style s q⟩
    case definitionDescription => exact ⟨_, written_entered_description style s⟩
    all_goals exact hc.elim
  refine ⟨hindented.active.indents, ?_, ?_, ?_⟩
  · rw [Printer.indentation_of_append hprefix, List.length_append]
    have hthree := style.options.three_le_indent
    simp only [indentation, List.flatMap_cons, List.flatMap_nil, List.append_nil,
      String.toList_ofList, List.length_replicate]
    omega
  · rw [← Bool.not_eq_true]
    intro hblank
    rw [hindented.active.blank hblank] at hwritten
    exact List.append_ne_nil_of_right_ne_nil text (entryMarker_ne_nil style s c) hwritten.symm
  · rw [hwritten, lastLine_append_of_not_mem (break_not_mem_entryMarker style s c)]
    obtain ⟨ch, hch, hmark⟩ := exists_mem_entryMarker style s c
    exact Or.inl ⟨ch, List.mem_append_right _ hch, hmark⟩

/-- After an entry the line that was begun last reaches past the margin of its list. -/
theorem clears_of_entry {n : Node} (hw : n.wrap? = some c) (hc : c.IsEntry)
    (hs : s.printers.Indented) (hl : 0 ≤ s.nesting.links) (h : steps style s n.events = .ok t) :
    t.printers.active.indentation = s.printers.active.indentation ∧
      t.printers.active.pageBlank = false ∧
      Clears s.printers.active.indentation (lastLine t.printers.active.written.toList) ∧
      (c = .definitionDescription → t.printers.active.pending = none) := by
  have hmargin := Printer.indentation_of_extends (stays_of_steps n s t hl h).printers.active
  rw [Node.events_of_wrap hw] at h
  obtain ⟨u, hu, hleave⟩ := exists_of_steps_around h
  have hpast := staysPast_of_eventsAll (links_entered hl c) hu _ (past_entered hc hs)
  obtain ⟨v, m, hwrite, -, rfl⟩ := exists_of_step_leave hleave
  refine ⟨hmargin, ?_⟩
  cases c
  case listItem =>
    have hpop := (active_popPrefix hwrite).1
    dsimp only
    rw [hpop]
    exact ⟨hpast.begun, hpast.line, nofun⟩
  case definitionDescription =>
    have hpop := (active_popPrefix (s := u.flush) hwrite).1
    have hflush : u.flush.printers.active = u.printers.active.flush u.nesting.around := by
      rw [flush, PrinterStack.flush, PrinterStack.modify, PrinterStack.active_setActive]
    have hflushed := hpast.flush u.nesting.around
    dsimp only
    rw [hpop, hflush]
    exact ⟨hflushed.begun, hflushed.line, fun _ => Printer.pending_flush _ _⟩
  all_goals exact hc.elim

/-! ## The lines that entries start -/

/-- A line break at the event ends the line, or there is none to end. -/
def EndsLine (s : Session) (e : Event) : Prop := s.drops e = false ∨ (s.page e).AtMargin

theorem active_print_eq_page {e : Event} {n : Nesting} (text : String)
    (hn : n.around = (s.nesting.atWriting e).around) :
    (({ s with nesting := n } : Session).print text).printers.active = (s.page e).write text := by
  rw [active_print, hn]
  rfl

theorem headsLine_first_item {kind : ListKind} {p q : Option Parameters}
    (hs : s.printers.Indented) :
    (s.entered style (.list kind p)).HeadsLine style (.listItem q) ↔
      s.EndsLine (.enter (.list kind p)) := by
  have hpage := indented_page hs (.enter (.list kind p))
  obtain ⟨n, hactive⟩ : ∃ n, (s.entered style (.list kind p)).printers.active =
      (s.page (.enter (.list kind p))).write (String.ofList (List.replicate (n + 1) '\n')) := by
    rw [entered, writeEnter]
    dsimp only
    split
    · exact ⟨1, active_print_eq_page _ rfl⟩
    · exact ⟨0, active_print_eq_page _ rfl⟩
  have hpending : (s.entered style (.list kind p)).printers.active.pending = none := by
    rw [hactive, Printer.pending_write, page, Printer.pending_flush]
  rw [headsLine_item (hs.step (printers_step (step_enter style s _))), page_of_none hpending,
    itemIndex_first, hactive, Printer.atMargin_write_breaks hpage (String.toList_ofList)]
  simp [EndsLine, drops]

theorem headsLine_behind_item {held : List Node} {q : Option Parameters} {q' : Parameters}
    (hs : s.printers.Indented) (hl : 0 ≤ s.nesting.links)
    (h : steps style s (Node.listItem held q').events = .ok t)
    (hindex : 0 < (t.nesting.enter (.listItem q)).itemIndex) :
    t.HeadsLine style (.listItem q) ↔ t.drops (.enter (.listItem q)) = false := by
  have hitem : (Container.listItem (some q')).IsEntry := trivial
  obtain ⟨hmargin, -, hline, -⟩ := clears_of_entry rfl hitem hs hl h
  have ht := indented_steps hs h
  rw [headsLine_item ht, and_iff_right hindex]
  refine ⟨fun hstarts => hstarts.elim id fun hat => ?_, Or.inl⟩
  rw [← Bool.not_eq_true]
  intro hdrops
  obtain ⟨-, hblank, hpage⟩ := of_drops hdrops
  refine Printer.not_atMargin (indented_page ht _) (hpage.pageBlank.trans hblank) ?_ hat
  rwa [indentation_page, hmargin, hpage.written]

theorem not_headsLine_behind_description {held : List Node} (hs : s.printers.Indented)
    (hl : 0 ≤ s.nesting.links)
    (h : steps style s (Node.definitionDescription held).events = .ok t) :
    ¬ t.HeadsLine style .definitionDescription := by
  have hdescription : Container.definitionDescription.IsEntry := trivial
  obtain ⟨hmargin, hbegun, hline, hpending⟩ := clears_of_entry rfl hdescription hs hl h
  rw [headsLine_description, page_of_none (hpending rfl)]
  refine Printer.not_atMargin (indented_steps hs h).active hbegun ?_
  rwa [hmargin]

theorem headsLine_behind_term (hs : s.printers.Indented)
    (h : step style s (.leave .definitionTerm) = .ok t) :
    t.HeadsLine style .definitionDescription ↔ s.EndsLine (.leave .definitionTerm) := by
  obtain ⟨u, m, hwrite, -, ht⟩ := exists_of_step_leave h
  have hactive : t.printers.active = (s.page (.leave .definitionTerm)).write "\n" := by
    rw [ht]
    cases hwrite
    exact active_print_eq_page "\n" rfl
  have hpending : t.printers.active.pending = none := by
    rw [hactive, Printer.pending_write, page, Printer.pending_flush]
  rw [headsLine_description, page_of_none hpending, hactive,
    Printer.atMargin_write_breaks (indented_page hs _) (n := 0) rfl]
  rfl

/-! ## In a document -/

theorem dropping_inside {n m : Node} {before : List Event} (hat : n.At before m)
    (h : run style (before ++ .enter c :: eventsAll kids) = .ok t) :
    Dropping style (start style) (before ++ .enter c :: eventsAll kids) t := by
  obtain ⟨s, hs, hin⟩ := exists_of_steps_append h
  have hkids := (steps_cons (step_enter style s c)).symm.trans hin
  exact (dropping_of_at hat (Int.le_refl 0) hs).append hs
    (dropping_kids (links_of_at hat (Int.le_refl 0) hs) hkids)

/-- The session behind the last of the children so far, and the one before it. -/
theorem exists_of_run_last {n m k : Node} {before : List Event} (hat : n.At before m)
    (h : run style (before ++ .enter c :: eventsAll (kids ++ [k])) = .ok t) :
    ∃ s u : Session, steps style (s.entered style c) (eventsAll (kids ++ [k])) = .ok t ∧
      u.printers.Indented ∧ 0 ≤ u.nesting.links ∧ steps style u k.events = .ok t := by
  obtain ⟨s, hs, hin⟩ := exists_of_steps_append h
  have hkids := (steps_cons (step_enter style s c)).symm.trans hin
  have hboth := hkids
  rw [Node.eventsAll_append] at hboth
  obtain ⟨u, hu, hk⟩ := exists_of_steps_append hboth
  rw [eventsAll, eventsAll, List.append_nil] at hk
  have hentered := (indented_steps (indented_start style) hs).step
    (printers_step (step_enter style s c))
  exact ⟨s, u, hkids, indented_steps hentered hu,
    links_kids (links_of_at hat (Int.le_refl 0) hs) hu, hk⟩

theorem opened_of_drops {events : List Event} {e : Event}
    (h : Dropping style (start style) events s) (hdrops : s.drops e = true) :
    Opened style (start style) events s := by
  obtain ⟨hdropped, hblank, -⟩ := of_drops hdrops
  exact opened_of_dropping h hdropped hblank

end Session

namespace Node

variable {style : Style} {blocks : List Node} {p : Parameters}

theorem At.child {n m k : Node} {c : Container} {front back : List Node} {before : List Event}
    (h : n.At before m) (hw : m.wrap? = some c) (hk : m.children = front ++ k :: back) :
    n.At (before ++ .enter c :: eventsAll front) k := by
  induction h with
  | here n => simpa using At.inside hw hk (.here k)
  | inside hw' hk' _ ih => simpa using At.inside hw' hk' (ih hw hk)

/-- Whether the marker of an entry starts its line. The first item of a list does if the line break
that the list writes ends the line, an item behind another one unless its line break is dropped, and
a description if the line break of the term before ends the line. The first description of its list
writes no break, and comes wherever the line is. A description behind another one never starts a
line. Breaks are dropped only where nothing has been written since an item or a quotation was
begun. -/
theorem entries_start_lines (hitems : (document blocks p).ItemsInLists) :
    ((document blocks p).Tabular style → (document blocks p).TableFree →
      ∃ markdown, (document blocks p).render style = .ok markdown) ∧
    (∀ {before kind kids q back p' s},
      (document blocks p).At before (.list kind (.listItem kids q :: back) p') →
      Session.run style before = .ok s →
      let list := Container.list kind (some p')
      ((s.entered style list).HeadsLine style (.listItem (some q)) ↔ s.EndsLine (.enter list)) ∧
        (s.drops (.enter list) = true → Session.Opened style (.start style) before s)) ∧
    (∀ {before kind front held q' kids q back p' s},
      (document blocks p).At before
        (.list kind (front ++ .listItem held q' :: .listItem kids q :: back) p') →
      let events := before ++ .enter (.list kind (some p')) ::
        eventsAll (front ++ [.listItem held q'])
      let item := Container.listItem (some q)
      Session.run style events = .ok s →
      (s.HeadsLine style item ↔ s.drops (.enter item) = false) ∧
        (s.drops (.enter item) = true → Session.Opened style (.start style) events s)) ∧
    (∀ {before kids back p' s},
      (document blocks p).At before (.definitionList (.definitionDescription kids :: back) p') →
      Session.run style (before ++ [.enter (.definitionList (some p'))]) = .ok s →
      (s.HeadsLine style .definitionDescription ↔
        (s.page (.enter .definitionDescription)).AtMargin)) ∧
    (∀ {before front held kids back p' s t},
      (document blocks p).At before
        (.definitionList (front ++ .definitionTerm held :: .definitionDescription kids :: back)
          p') →
      let events := before ++ .enter (.definitionList (some p')) :: eventsAll front ++
        .enter .definitionTerm :: eventsAll held
      Session.run style events = .ok s →
      Session.step style s (.leave .definitionTerm) = .ok t →
      (t.HeadsLine style .definitionDescription ↔ s.EndsLine (.leave .definitionTerm)) ∧
        (s.drops (.leave .definitionTerm) = true →
          Session.Opened style (.start style) events s)) ∧
    (∀ {before front held kids back p' s},
      (document blocks p).At before
        (.definitionList
          (front ++ .definitionDescription held :: .definitionDescription kids :: back) p') →
      Session.run style (before ++ .enter (.definitionList (some p')) ::
        eventsAll (front ++ [.definitionDescription held])) = .ok s →
      ¬ s.HeadsLine style .definitionDescription) := by
  have hstart := Session.indented_start style
  refine ⟨?_, ?_, ?_, ?_, ?_, ?_⟩
  · intro htabular hfree
    have hapart : (document blocks p).Everywhere TablesApart := fun m hm ht =>
      absurd ht (hfree m hm)
    obtain ⟨s, hs⟩ := Session.exists_session_of_apart htabular hapart nofun nofun
    exact ⟨_, render_of_session hs⟩
  · intro before kind kids q back p' s hat hs list
    exact ⟨Session.headsLine_first_item (Session.indented_steps hstart hs),
      Session.opened_of_drops (Session.dropping_of_at hat (Int.le_refl 0) hs)⟩
  · intro before kind front held q' kids q back p' s hat events item hs
    have hchild : ∀ k ∈ front ++ [.listItem held q'], k.ItemsInLists := fun k hk =>
      (hat.everywhere hitems).child (List.mem_append.2 (by simpa [or_assoc] using Or.inl hk))
    obtain ⟨u, v, hkids, hv, hlinks, hheld⟩ := Session.exists_of_run_last hat hs
    exact ⟨Session.headsLine_behind_item hv hlinks hheld (Session.itemIndex_pos hchild rfl hkids),
      Session.opened_of_drops (Session.dropping_inside hat hs)⟩
  · intro before kids back p' s hat hs
    exact Session.headsLine_description
  · intro before front held kids back p' s t hat events hs ht
    refine ⟨Session.headsLine_behind_term (Session.indented_steps hstart hs) ht,
      Session.opened_of_drops (Session.dropping_inside (hat.child rfl rfl) hs)⟩
  · intro before front held kids back p' s hat hs
    obtain ⟨u, v, -, hv, hlinks, hheld⟩ := Session.exists_of_run_last hat hs
    exact Session.not_headsLine_behind_description hv hlinks hheld

end Node

/-- A list of two items, with what is given in the first one. -/
def twoItems (held : List Node) : Node :=
  .document [.list .bulleted [.listItem held .empty, .listItem [.text "b"] .empty] .empty] .empty

theorem itemsInLists_twoItems : (twoItems [.text "a"]).ItemsInLists := by
  have hnodes : (twoItems [.text "a"]).descendants =
      Node.descendantsAll (twoItems [.text "a"]).children := rfl
  rw [Node.ItemsInLists, Node.Everywhere, hnodes]
  simp [twoItems, Node.children, Node.descendants, Node.descendantsAll, Node.place, Node.room,
    Node.wrap?, Container.place, Container.room]

/-- Behind an item with text the next one starts a line. -/
theorem Node.entries_start_lines_twoItems : (twoItems [.text "a"]).ItemsInLists ∧
    ∃ s, Session.run (.standard {}) ([.enter (.document (some .empty))] ++
        .enter (.list .bulleted (some .empty)) :: eventsAll [.listItem [.text "a"] .empty]) =
          .ok s ∧
      s.drops (.enter (.listItem (some .empty))) = false ∧
      s.HeadsLine (.standard {}) (.listItem (some .empty)) := by
  have hat : (twoItems [.text "a"]).At [.enter (.document (some .empty))]
      (.list .bulleted ([] ++ .listItem [.text "a"] .empty :: .listItem [.text "b"] .empty :: [])
        .empty) :=
    @Node.At.inside _ _ _ _ [] [] [] rfl rfl (.here _)
  obtain ⟨s, hs, hkept⟩ := Session.exists_of_map_steps (.standard {}) (.start (.standard {}))
    ([.enter (.document (some .empty))] ++
      .enter (.list .bulleted (some .empty)) :: eventsAll [.listItem [.text "a"] .empty])
    (fun s => s.drops (.enter (.listItem (some .empty)))) (x := false) (by decide +kernel)
  obtain ⟨-, -, hbehind, -⟩ := @entries_start_lines (.standard {}) _ _ itemsInLists_twoItems
  exact ⟨itemsInLists_twoItems, s, hs, hkept, (hbehind hat hs).1.2 hkept⟩

/-- Behind an empty item the next one stays on the line, and so does any description behind another
one. -/
theorem emptyItem_shares_line :
    ((twoItems []).render (.standard {})).toOption = some "*   *   b" ∧
    ((Node.document [.definitionList [.definitionDescription [.text "a"],
      .definitionDescription [.text "b"]] .empty] .empty).render (.standard {})).toOption =
        some ":   a:   b" := by
  decide +kernel

end Markwright
