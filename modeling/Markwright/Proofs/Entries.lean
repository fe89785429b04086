import Markwright.Proofs.Observers
import Markwright.Proofs.Suppression

/-!
# How the entries of lists are begun

An item writes the line breaks that part it from the item before, and its marker; a description
writes its marker. Both come behind what waits to be escaped. The marker starts its line
(`Session.HeadsLine`) if what stands before it on the line are the line prefixes and nothing else,
which after a line break is always so, unless the break is dropped (`Session.drops`).
-/

namespace Markwright

open Node (eventsAll)

/-! ## Printers -/

namespace Printer

variable {p : Printer} {s : String} {around : Surroundings}

/-- What is written next comes first on its line, behind the line prefixes. -/
def AtMargin (p : Printer) : Prop := lastLine (p.before []) = p.indentation

theorem atMargin_of_blank (h : p.Indented) (hblank : p.pageBlank = true) : p.AtMargin := by
  have hlead : lastLine ([] ++ p.indentation) = [] ++ p.indentation :=
    lastLine_append_of_not_mem (break_not_mem_indentation h.indents)
  rw [AtMargin, before, h.blank hblank, if_pos hblank]
  exact (congrArg lastLine (List.append_nil _)).trans hlead

theorem lastLine_before_breaks (h : p.Indented) (n : Nat) :
    lastLine (p.before (List.replicate (n + 1) '\n')) = p.indentation := by
  rw [List.replicate_succ', before_concat, if_pos rfl,
    lastLine_append_break _ _ (break_not_mem_indentation h.indents)]

theorem indentation_of_append {q : Printer} {xs : List String}
    (h : q.linePrefixes = p.linePrefixes ++ xs) :
    q.indentation = p.indentation ++ xs.flatMap (·.toList) := by
  rw [indentation, indentation, h, String.toList_join, String.toList_join, List.flatMap_append]

theorem indentation_of_extends {q : Printer} (h : Extends .none p q) :
    q.indentation = p.indentation := by
  rw [indentation_of_append h.linePrefixes, Held.none, List.flatMap_nil, List.append_nil]

theorem indentation_write (p : Printer) (s : String) : (p.write s).indentation = p.indentation :=
  indentation_of_extends (.write p s)

theorem indentation_flush (p : Printer) (around : Surroundings) :
    (p.flush around).indentation = p.indentation :=
  indentation_of_extends (.flush p around)

theorem print_of_none (h : p.pending = none) (around : Surroundings) (s : String) :
    p.print around s = p.write s := by
  rw [print, flush_of_none around h]

/-- Behind a line break that is written the rest is written as it would be with it. -/
theorem before_write_break (h : p.suppressBreaks = false) (cs : List Char) :
    (p.write "\n").before cs = p.before ('\n' :: cs) := by
  have hne : p.passed "\n" ≠ [] := by simp [passed_break, h]
  have hcs : p.before ('\n' :: cs) = p.before ['\n'] ++ indentBreaks p.indentation cs :=
    before_append p ['\n'] cs
  rw [hcs, before, indentation_write, written_write p "\n" hne, passed_break, h]
  rw [write_of_passed_ne hne]
  simp

theorem suppressBreaks_write_break (h : p.suppressBreaks = false) :
    (p.write "\n").suppressBreaks = false := by
  rw [write_of_passed_ne (by simp [passed_break, h])]

theorem written_write_mark (hne : s.toList ≠ []) (hs : '\n' ∉ s.toList) :
    (p.write s).written.toList = p.before [] ++ s.toList := by
  have hpassed : p.passed s = s.toList :=
    passed_of_head?_ne fun _ hhead => hs (List.mem_of_head? hhead)
  rw [written_write p s (hpassed ▸ hne), hpassed, ← List.nil_append s.toList, before_append,
    indentBreaks_of_not_mem hs, List.nil_append]

/-- Behind line breaks the margin is reached unless they are dropped. -/
theorem atMargin_write_breaks (h : p.Indented) {n : Nat}
    (hs : s.toList = List.replicate (n + 1) '\n') :
    (p.write s).AtMargin ↔ (p.suppressBreaks && !p.pageBlank) = false ∨ p.AtMargin := by
  by_cases hp : p.suppressBreaks = true
  · rw [write_of_suppressed hp fun c hc => (List.mem_replicate.1 (hs ▸ hc)).2, hp, Bool.true_and]
    by_cases hblank : p.pageBlank = true
    · simp [hblank, atMargin_of_blank h hblank]
    · simp [hblank]
  · rw [Bool.not_eq_true] at hp
    have hpassed : p.passed s = List.replicate (n + 1) '\n' := by rw [passed, hp, ← hs]; rfl
    have hne : p.passed s ≠ [] := by simp [hpassed]
    have hmargin : (p.write s).AtMargin := by
      have hline := lastLine_before_breaks h n
      rw [← hpassed, ← written_write p s hne] at hline
      rw [AtMargin, indentation_write, ← hline, before, write_of_passed_ne hne]
      simp [indentBreaks]
    simp [hmargin, hp]

end Printer

/-! ## Sessions -/

namespace Session

variable {style : Style} {s t : Session} {q : Option Parameters} {e : Event} {c : Container}

/-- The active printer at an event, once what waits is written. -/
def page (s : Session) (e : Event) : Printer :=
  s.printers.active.flush (s.nesting.atWriting e).around

/-- Line breaks are dropped at the event, though not at the start of a page. -/
def drops (s : Session) (e : Event) : Bool :=
  (s.page e).suppressBreaks && !(s.page e).pageBlank

theorem indented_page (h : s.printers.Indented) (e : Event) : (s.page e).Indented :=
  h.active.flush _

theorem indentation_page (s : Session) (e : Event) :
    (s.page e).indentation = s.printers.active.indentation := Printer.indentation_flush _ _

theorem page_of_none (h : s.printers.active.pending = none) (e : Event) :
    s.page e = s.printers.active := Printer.flush_of_none _ h

/-- Where line breaks are dropped nothing waits that would be written. -/
theorem of_drops (h : s.drops e = true) : s.printers.active.suppressBreaks = true ∧
    s.printers.active.pageBlank = false ∧ s.printers.active.SamePage (s.page e) := by
  obtain ⟨hdropped, hblank⟩ := (Bool.and_eq_true _ _).mp h
  obtain ⟨hbefore, hpage⟩ := Printer.Hushed.flush _ _ hdropped
  refine ⟨hbefore, ?_, hpage⟩
  rw [← hpage.pageBlank]
  simpa [page] using hblank

/-- The marker of an item or a description. -/
def entryMarker (style : Style) (s : Session) (c : Container) : String :=
  Text.padRight style.options.listIndentWidth <|
    match c with
    | .listItem _ => itemMarker { s with nesting := s.nesting.enter c }
    | _ => ":"

/-- What stands before the marker on its line are the line prefixes alone. -/
def HeadsLine (style : Style) (s : Session) (c : Container) : Prop :=
  ∃ text, (s.entered style c).printers.active.written.toList =
    text ++ (s.entryMarker style c).toList ∧ lastLine text = s.printers.active.indentation

theorem headsLine_iff {text : List Char}
    (h : (s.entered style c).printers.active.written.toList =
      text ++ (s.entryMarker style c).toList) :
    s.HeadsLine style c ↔ lastLine text = s.printers.active.indentation := by
  refine ⟨?_, fun hline => ⟨text, h, hline⟩⟩
  rintro ⟨text', h', hline⟩
  rwa [List.append_cancel_right (h.symm.trans h')]

theorem exists_entryMarker (style : Style) (s : Session) (c : Container) :
    ∃ text blanks, (s.entryMarker style c).toList = text.toList ++ List.replicate blanks ' ' ∧
      (text = "*" ∨ text = "1." ∨ text = ":") := by
  have hmarker : ∃ text, s.entryMarker style c = Text.padRight style.options.listIndentWidth text ∧
      (text = "*" ∨ text = "1." ∨ text = ":") := by
    cases c
    case listItem q =>
      refine ⟨_, rfl, ?_⟩
      dsimp only
      unfold itemMarker
      split
      · exact Or.inr (Or.inl rfl)
      · exact Or.inl rfl
    all_goals exact ⟨":", rfl, Or.inr (Or.inr rfl)⟩
  obtain ⟨text, hmarker, htext⟩ := hmarker
  refine ⟨text, style.options.listIndentWidth - text.length, ?_, htext⟩
  rw [hmarker, Text.padRight, String.toList_append, String.toList_ofList]

theorem exists_mem_entryMarker (style : Style) (s : Session) (c : Container) :
    ∃ ch ∈ (s.entryMarker style c).toList, ch ≠ ' ' ∧ ch ≠ '>' := by
  obtain ⟨text, blanks, hmarker, htext⟩ := exists_entryMarker style s c
  rw [hmarker]
  rcases htext with rfl | rfl | rfl
  · exact ⟨'*', List.mem_append_left _ (by decide), by decide, by decide⟩
  · exact ⟨'1', List.mem_append_left _ (by decide), by decide, by decide⟩
  · exact ⟨':', List.mem_append_left _ (by decide), by decide, by decide⟩

theorem entryMarker_ne_nil (style : Style) (s : Session) (c : Container) :
    (s.entryMarker style c).toList ≠ [] := by
  obtain ⟨ch, hmem, -⟩ := exists_mem_entryMarker style s c
  exact List.ne_nil_of_mem hmem

theorem break_not_mem_entryMarker (style : Style) (s : Session) (c : Container) :
    '\n' ∉ (s.entryMarker style c).toList := by
  obtain ⟨text, blanks, hmarker, htext⟩ := exists_entryMarker style s c
  rw [hmarker, List.mem_append, not_or]
  refine ⟨?_, fun hm => absurd (List.eq_of_mem_replicate hm) (by decide)⟩
  rcases htext with rfl | rfl | rfl <;> decide

/-! ### Items -/

/-- How many line breaks are written before the marker of an item. -/
def breaksBefore (s : Session) (q : Option Parameters) : Nat :=
  if (s.page (.enter (.listItem q))).suppressBreaks then 0
  else if 0 < (s.nesting.enter (.listItem q)).itemIndex then if s.afterParagraph then 2 else 1
  else 0

theorem active_print (s : Session) (text : String) :
    (s.print text).printers.active = s.printers.active.print s.nesting.around text := by
  rw [print, PrinterStack.print, PrinterStack.modify, PrinterStack.active_setActive]

/-- Before the marker of an item the line breaks are written that part it from the item before. -/
theorem before_separateItem (s : Session) (q : Option Parameters) :
    let inside : Session := { s with nesting := s.nesting.enter (.listItem q) }
    (inside.separateItem.printers.active.flush inside.nesting.around).before [] =
      (s.page (.enter (.listItem q))).before (List.replicate (s.breaksBefore q) '\n') := by
  intro inside
  have hpage : s.page (.enter (.listItem q)) =
      inside.printers.active.flush inside.nesting.around := rfl
  have hindex : (s.nesting.enter (.listItem q)).itemIndex = inside.nesting.itemIndex := rfl
  have hpending := Printer.pending_flush inside.printers.active inside.nesting.around
  rw [breaksBefore, hpage, hindex]
  generalize hp : inside.printers.active.flush inside.nesting.around = p at hpending
  have hbroken : inside.breakLine.printers.active = p.write "\n" := by
    rw [breakLine, active_print, Printer.print, hp]
  have hnone : (p.write "\n").pending = none := (Printer.pending_write p "\n").trans hpending
  unfold separateItem
  split
  · dsimp only
    have hafter : inside.breakLine.afterParagraph = s.afterParagraph := rfl
    rw [hafter]
    split
    · have htwice : inside.breakLine.breakLine.printers.active = (p.write "\n").write "\n" := by
        rw [breakLine, active_print, hbroken, Printer.print_of_none hnone]
      rw [htwice, Printer.flush_of_none _ ((Printer.pending_write _ _).trans hnone)]
      split
      · rename_i hdropped
        have hdrop : p.write "\n" = p := Printer.write_of_suppressed hdropped (by simp)
        rw [hdrop, hdrop]
        rfl
      · rename_i hkept
        rw [Bool.not_eq_true] at hkept
        rw [Printer.before_write_break (Printer.suppressBreaks_write_break hkept),
          Printer.before_write_break hkept]
        rfl
    · rw [hbroken, Printer.flush_of_none _ hnone]
      split
      · rename_i hdropped
        rw [Printer.write_of_suppressed hdropped (by simp)]
        rfl
      · rename_i hkept
        rw [Bool.not_eq_true] at hkept
        rw [Printer.before_write_break hkept]
        rfl
  · rw [hp, ite_self]
    rfl

/-- The printer inside an item: the marker is written, and the breaks that follow are dropped. -/
theorem exists_active_entered_item (style : Style) (s : Session) (q : Option Parameters) :
    ∃ p : Printer, p.pending = none ∧
      p.before [] = (s.page (.enter (.listItem q))).before
        (List.replicate (s.breaksBefore q) '\n') ∧
      (s.entered style (.listItem q)).printers.active =
        { (p.write (s.entryMarker style (.listItem q))).pushPrefix (indentation style) with
          suppressBreaks := true } := by
  let inside : Session := { s with nesting := s.nesting.enter (.listItem q) }
  have hsame : inside.separateItem.nesting = inside.nesting :=
    (Writes.separateItem inside).nesting
  have hmarker : inside.separateItem.itemMarker = inside.itemMarker := by
    rw [itemMarker, itemMarker, hsame]
  refine ⟨_, Printer.pending_flush _ _, before_separateItem s q, ?_⟩
  have hprint : (inside.separateItem.print (s.entryMarker style (.listItem q))).printers.active =
      (inside.separateItem.printers.active.flush inside.nesting.around).write
        (s.entryMarker style (.listItem q)) := by
    rw [active_print, hsame]
    rfl
  have hactive : (s.entered style (.listItem q)).printers.active =
      { (inside.separateItem.print (Text.padRight style.options.listIndentWidth
          inside.separateItem.itemMarker)).printers.active.pushPrefix (indentation style) with
        suppressBreaks := true } := by
    simp [entered, writeEnter, inside, suppressBreaks, pushPrefix, modifyPrinter,
      PrinterStack.modify]
  rw [hactive, hmarker, ← hprint]
  rfl

theorem written_entered_item (style : Style) (s : Session) (q : Option Parameters) :
    (s.entered style (.listItem q)).printers.active.written.toList =
      (s.page (.enter (.listItem q))).before (List.replicate (s.breaksBefore q) '\n') ++
        (s.entryMarker style (.listItem q)).toList := by
  obtain ⟨p, -, hbefore, hactive⟩ := exists_active_entered_item style s q
  rw [hactive, ← hbefore]
  exact Printer.written_write_mark (entryMarker_ne_nil style s _)
    (break_not_mem_entryMarker style s _)

/-- An item starts its line if it breaks the line before, or stands at the margin anyway. -/
theorem headsLine_item (h : s.printers.Indented) : s.HeadsLine style (.listItem q) ↔
    (0 < (s.nesting.enter (.listItem q)).itemIndex ∧ s.drops (.enter (.listItem q)) = false) ∨
      (s.page (.enter (.listItem q))).AtMargin := by
  have hpage := indented_page h (.enter (.listItem q))
  rw [headsLine_iff (written_entered_item style s q), ← indentation_page, drops, breaksBefore]
  split
  · rename_i hdropped
    rw [hdropped, Bool.true_and, Bool.not_eq_false']
    refine ⟨Or.inr, ?_⟩
    rintro (⟨-, hblank⟩ | hmargin)
    · exact Printer.atMargin_of_blank hpage hblank
    · exact hmargin
  · rename_i hkept
    rw [Bool.not_eq_true] at hkept
    split
    · rename_i hindex
      refine iff_of_true ?_ (Or.inl ⟨hindex, by rw [hkept, Bool.false_and]⟩)
      split
      · exact Printer.lastLine_before_breaks hpage 1
      · exact Printer.lastLine_before_breaks hpage 0
    · rename_i hindex
      exact ⟨Or.inr, fun h => h.resolve_left fun h => hindex h.1⟩

/-! ### Descriptions -/

/-- A description writes no line break before its marker. -/
theorem written_entered_description (style : Style) (s : Session) :
    (s.entered style .definitionDescription).printers.active.written.toList =
      (s.page (.enter .definitionDescription)).before [] ++
        (s.entryMarker style .definitionDescription).toList := by
  have hwritten : (s.entered style .definitionDescription).printers.active.written =
      ((s.page (.enter .definitionDescription)).write
        (s.entryMarker style .definitionDescription)).written := by
    simp [entered, writeEnter, pushPrefix, modifyPrinter, PrinterStack.modify, Printer.pushPrefix,
      active_print, Printer.print, page, Nesting.atWriting, entryMarker]
  rw [hwritten]
  exact Printer.written_write_mark (entryMarker_ne_nil style s _)
    (break_not_mem_entryMarker style s _)

theorem headsLine_description :
    s.HeadsLine style .definitionDescription ↔
      (s.page (.enter .definitionDescription)).AtMargin := by
  rw [headsLine_iff (written_entered_description style s), ← indentation_page, Printer.AtMargin]

end Session

/-! ## Items of a list -/

namespace Node

variable {n k : Node} {q : Option Parameters} {c : Container} {m m' : Nesting} {kind : ListKind}
  {i : Int} {outer : List OpenList}

theorem exists_listItem_of_place (h : k.place = .list) : ∃ q, k.wrap? = some (.listItem q) := by
  obtain ⟨c, hc, hplace⟩ := exists_wrap_of_place h nofun
  cases c <;> cases hplace
  exact ⟨_, hc⟩

/-- An item moves its list on by one. -/
theorem lists_of_item (hw : k.wrap? = some (.listItem q)) (hk : k.ItemsInLists)
    (h : m.steps k.events = .ok m') : m'.lists = Nesting.nextItem m.lists := by
  obtain ⟨l, hl, hinner⟩ := exists_returns_eventsAll (p := .content) (m.enter (.listItem q))
    fun j hj => ⟨fun hp => (room_of_wrap hw).symm.trans (hk.here j hj hp),
      exists_returns j (hk.child hj)⟩
  rw [events_of_wrap hw, Event.around] at h
  change (m.enter (.listItem q)).steps (eventsAll k.children ++ [.leave (.listItem q)]) = _ at h
  rw [Nesting.steps_append hl] at h
  cases h
  exact hinner.lists (by decide)

/-- The index of an item never goes back while the list is open. -/
theorem exists_lists_of_kids : ∀ {kids : List Node} {m : Nesting} {i : Int},
    (∀ k ∈ kids, k.ItemsInLists) → m.lists = ⟨kind, i⟩ :: outer →
    m.steps (eventsAll kids) = .ok m' → ∃ j, i ≤ j ∧ m'.lists = ⟨kind, j⟩ :: outer
  | [], m, i, _, hm, h => by
    cases h
    exact ⟨i, Int.le_refl i, hm⟩
  | k :: rest, m, i, hkids, hm, h => by
    have hk := hkids k (by simp)
    obtain ⟨l, hl, hreturns⟩ := exists_returns k hk m
    rw [eventsAll, Nesting.steps_append hl] at h
    obtain ⟨j, hij, hj⟩ : ∃ j, i ≤ j ∧ l.lists = ⟨kind, j⟩ :: outer := by
      by_cases hplace : k.place = .list
      · obtain ⟨q, hq⟩ := exists_listItem_of_place hplace
        exact ⟨i + 1, by omega, by rw [lists_of_item hq hk hl, hm, Nesting.nextItem]⟩
      · exact ⟨i, Int.le_refl i, (hreturns.lists hplace).trans hm⟩
    obtain ⟨j', hle, hj'⟩ := exists_lists_of_kids (fun x hx => hkids x (by simp [hx])) hj h
    exact ⟨j', hij.trans hle, hj'⟩

end Node

namespace Session

variable {style : Style} {s t : Session} {q q' : Option Parameters} {kind : ListKind}
  {p : Option Parameters}

theorem nesting_steps {events : List Event} (h : steps style s events = .ok t) :
    s.nesting.steps events = .ok t.nesting := (chain style).nesting_steps h

theorem exists_of_map_steps {α : Type} (style : Style) (s : Session) (events : List Event)
    (f : Session → α) {x : α}
    (h : ((steps style s events).map f).toOption = some x) :
    ∃ t, steps style s events = .ok t ∧ f t = x := by
  rcases ht : steps style s events with failure | t
  · rw [ht] at h
    cases h
  · rw [ht] at h
    exact ⟨t, rfl, Option.some.inj h⟩

/-- Behind another item of its list an item is not the first. -/
theorem itemIndex_pos {front : List Node} {prev : Node}
    (hkids : ∀ k ∈ front ++ [prev], k.ItemsInLists) (hprev : prev.wrap? = some (.listItem q'))
    (h : steps style (s.entered style (.list kind p)) (eventsAll (front ++ [prev])) = .ok t) :
    0 < (t.nesting.enter (.listItem q)).itemIndex := by
  rw [Node.eventsAll_append] at h
  obtain ⟨u, hu, hlast⟩ := exists_of_steps_append h
  rw [eventsAll, eventsAll, List.append_nil] at hlast
  have hlists : (s.entered style (.list kind p)).nesting.lists = ⟨kind, -1⟩ :: s.nesting.lists := by
    rw [(entered_spec style s _).1]
    rfl
  obtain ⟨j, hj, hfront⟩ := Node.exists_lists_of_kids
    (fun k hk => hkids k (List.mem_append_left _ hk)) hlists (nesting_steps hu)
  have hafter := Node.lists_of_item hprev (hkids prev (by simp)) (nesting_steps hlast)
  rw [hfront] at hafter
  simp only [Nesting.enter, Nesting.itemIndex, hafter, Nesting.nextItem, List.head?_cons,
    Option.map_some, Option.getD_some]
  omega

/-- The first item of a list has index zero. -/
theorem itemIndex_first (style : Style) (s : Session) (kind : ListKind)
    (p q : Option Parameters) :
    ((s.entered style (.list kind p)).nesting.enter (.listItem q)).itemIndex = 0 := by
  rw [(entered_spec style s _).1]
  rfl

end Session

end Markwright
