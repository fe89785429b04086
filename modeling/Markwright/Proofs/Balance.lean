import Markwright.Proofs.Cells
import Markwright.Proofs.Extension
import Markwright.Proofs.Tree

/-!
# Whole trees leave a session as they found it

A container counts up what it counts down again, takes off the prefix that it adds, and pops the
printer that it pushes. What lies between is told by its children, which return to where they began
too, so by induction the events of a tree are all taken (`steps_events`) and what follows them
finds the nesting, the printers and the table that they found (`Session.Keeps`).
-/

namespace Markwright

/-! ## The nesting -/

/-- All counters are where they were; of the lists only the item of the innermost may have
changed, and only by what stands in a list. -/
structure Nesting.Agrees (p : Place) (m n : Nesting) : Prop where
  links : n.links = m.links
  tables : n.tables = m.tables
  quotations : n.quotations = m.quotations
  inLine : n.inLine = m.inLine
  definitionLists : n.definitionLists = m.definitionLists
  outerLists : n.lists.tail = m.lists.tail
  listDepth : n.lists.length = m.lists.length
  lists : p ≠ .list → n.lists = m.lists

namespace Nesting

variable {p : Place} {l m n : Nesting}

protected theorem Agrees.refl (p : Place) (n : Nesting) : n.Agrees p n :=
  ⟨rfl, rfl, rfl, rfl, rfl, rfl, rfl, fun _ => rfl⟩

protected theorem Agrees.trans (h : l.Agrees p m) (k : m.Agrees p n) : l.Agrees p n :=
  ⟨k.links.trans h.links, k.tables.trans h.tables, k.quotations.trans h.quotations,
    k.inLine.trans h.inLine, k.definitionLists.trans h.definitionLists,
    k.outerLists.trans h.outerLists, k.listDepth.trans h.listDepth,
    fun hp => (k.lists hp).trans (h.lists hp)⟩

theorem length_nextItem : ∀ ls : List OpenList, (nextItem ls).length = ls.length
  | [] => rfl
  | _ :: _ => rfl

theorem tail_nextItem : ∀ ls : List OpenList, (nextItem ls).tail = ls.tail
  | [] => rfl
  | _ :: _ => rfl

theorem agrees_leave (c : Container) (h : (m.enter c).Agrees c.room n) :
    ∃ n', n.leave c = .ok n' ∧ m.Agrees c.place n' := by
  obtain ⟨hlinks, htables, hquotations, hinLine, hdefinitions, houter, hdepth, hlists⟩ := h
  cases c
  case list kind _ =>
    simp only [enter, List.length_cons] at hdepth
    rcases hn : n.lists with _ | ⟨top, rest⟩
    · simp [hn] at hdepth
    · have hrest : rest = m.lists := by simpa [hn, enter] using houter
      refine ⟨{ n with lists := rest, previous := .list }, by simp [leave, hn], ?_⟩
      exact ⟨hlinks, htables, hquotations, hinLine, hdefinitions, by rw [hrest],
        by rw [hrest], fun _ => hrest⟩
  case listItem =>
    have hl : n.lists = nextItem m.lists := hlists (by simp [Container.room])
    refine ⟨_, rfl, ?_⟩
    constructor <;> simp_all [enter, leaveInLine, Container.place, length_nextItem, tail_nextItem]
  all_goals
    refine ⟨_, rfl, ?_⟩
    constructor <;>
      simp_all [enter, leaveInLine, Container.room, Container.place]

end Nesting

/-! ## The table -/

/-- Among content the table stays as it is. In a table rows may be added, and in a row cells. -/
structure Table.Layout.Keeps (p : Place) (t u : Table.Layout Float) : Prop where
  settings : u.settings = t.settings
  same : p ≠ .table → p ≠ .tableRow → u = t
  rows : p = .tableRow → t.rows ≠ [] → u.rows ≠ []

namespace Table.Layout

variable {p : Place} {t u v : Layout Float}

protected theorem Keeps.refl (p : Place) (t : Layout Float) : t.Keeps p t :=
  ⟨rfl, fun _ _ => rfl, fun _ h => h⟩

protected theorem Keeps.trans (h : t.Keeps p u) (k : u.Keeps p v) : t.Keeps p v :=
  ⟨k.settings.trans h.settings, fun h1 h2 => (k.same h1 h2).trans (h.same h1 h2),
    fun hp hr => k.rows hp (h.rows hp hr)⟩

theorem Keeps.eq_of_content (h : t.Keeps .content u) : u = t :=
  h.same (by decide) (by decide)

theorem addCell_ok (content : String) (isHeader : Bool) {parameters : Option Parameters}
    {span : Nat} (hr : t.rows ≠ []) (hs : spanOf (lookupIn parameters "colspan") = .ok span) :
    ∃ u, t.addCell content isHeader parameters = .ok u ∧ t.Keeps .tableRow u := by
  obtain ⟨u, hu⟩ := exists_addCell_of_span content isHeader hr hs
  obtain ⟨front, row, span, -, -, hnew, hsettings, -⟩ := exists_of_addCell hu
  exact ⟨u, hu, hsettings, fun _ h => absurd rfl h, fun _ _ => by simp [hnew]⟩

end Table.Layout

/-! ## Containers -/

/-- What a container holds on the printer that it was entered on. -/
def Container.held (style : Style) : Container → Held
  | .listItem _ | .definitionDescription => ⟨[Session.indentation style], false⟩
  | .quotation _ => ⟨["> "], false⟩
  | .format f _ => ⟨[], Session.escapesSpaces f⟩
  | _ => .none

/-- The container pushes a printer of its own, told the nesting inside it. -/
def Container.Captures (n : Nesting) : Container → Prop
  | .tableCell _ | .tableHeadCell _ => True
  | .link _ freeStanding _ => n.links < 2 ∧ freeStanding = false
  | _ => False

namespace Session

variable {style : Style} {s t u : Session}

/-! ## Steps -/

/-- The session that events lead to, unless one of them fails. -/
def steps (style : Style) (s : Session) (events : List Event) : Except Failure Session :=
  events.foldlM (step style) s

theorem run_eq_steps (style : Style) (events : List Event) :
    run style events = steps style (start style) events := rfl

theorem steps_append {a b : List Event} (h : steps style s a = .ok t) :
    steps style s (a ++ b) = steps style t b := by
  rw [steps, List.foldlM_append]
  change (steps style s a >>= fun t => steps style t b) = _
  rw [h]
  rfl

theorem steps_cons {e : Event} {rest : List Event} (h : step style s e = .ok t) :
    steps style s (e :: rest) = steps style t rest := by
  rw [steps, List.foldlM_cons, h]
  rfl

/-- The session inside a container. -/
def entered (style : Style) (s : Session) (c : Container) : Session :=
  writeEnter style { s with nesting := s.nesting.enter c } c

theorem step_enter (style : Style) (s : Session) (c : Container) :
    step style s (.enter c) = .ok (s.entered style c) := rfl

theorem step_leave {c : Container} {n : Nesting} (h : writeLeave style s c = .ok t)
    (hn : t.nesting.leave c = .ok n) : step style s (.leave c) = .ok { t with nesting := n } := by
  simp only [step, Event.dispatch, Event.order, List.reverse_cons, List.reverse_nil,
    List.nil_append, List.cons_append, List.foldlM_cons, List.foldlM_nil, write, h]
  simp only [bind, Except.bind, track, Nesting.step, hn]
  rfl

theorem step_leaf {l : Leaf} (h : writeLeaf style s l = .ok t) :
    step style s (.leaf l) =
      .ok { t with nesting := { t.nesting with previous := Nesting.completes l } } := by
  simp only [step, Event.dispatch, Event.order, List.reverse_cons, List.reverse_nil,
    List.nil_append, List.cons_append, List.foldlM_cons, List.foldlM_nil, write, h]
  rfl

theorem steps_singleton {e : Event} (h : step style s e = .ok t) : steps style s [e] = .ok t :=
  steps_cons h

theorem exists_of_step_leave {c : Container} (h : step style s (.leave c) = .ok t) :
    ∃ u n, writeLeave style s c = .ok u ∧ u.nesting.leave c = .ok n ∧
      t = { u with nesting := n } := by
  simp only [step, Event.dispatch, Event.order, List.reverse_cons, List.reverse_nil,
    List.nil_append, List.cons_append, List.foldlM_cons, List.foldlM_nil, write] at h
  rcases hw : writeLeave style s c with failure | u
  · simp [hw, bind, Except.bind] at h
  · rcases hn : u.nesting.leave c with fault | n
    · simp [hw, bind, Except.bind, track, Nesting.step, hn] at h
    · simp only [hw, bind, Except.bind, track, Nesting.step, hn] at h
      exact ⟨u, n, rfl, hn, (Except.ok.inj h).symm⟩

theorem exists_of_step_leaf {l : Leaf} (h : step style s (.leaf l) = .ok t) :
    ∃ u, writeLeaf style s l = .ok u ∧
      t = { u with nesting := { u.nesting with previous := Nesting.completes l } } := by
  simp only [step, Event.dispatch, Event.order, List.reverse_cons, List.reverse_nil,
    List.nil_append, List.cons_append, List.foldlM_cons, List.foldlM_nil, write] at h
  rcases hw : writeLeaf style s l with failure | u
  · simp [hw, bind, Except.bind] at h
  · simp only [hw, bind, Except.bind, track, Nesting.step] at h
    exact ⟨u, rfl, (Except.ok.inj h).symm⟩

theorem exists_of_steps_append {a b : List Event} (h : steps style s (a ++ b) = .ok u) :
    ∃ t, steps style s a = .ok t ∧ steps style t b = .ok u := by
  rcases ha : steps style s a with failure | t
  · rw [steps, List.foldlM_append] at h
    change (steps style s a >>= fun t => steps style t b) = _ at h
    rw [ha] at h
    cases h
  · exact ⟨t, rfl, (steps_append ha).symm.trans h⟩

theorem exists_of_steps_cons {e : Event} {rest : List Event}
    (h : steps style s (e :: rest) = .ok u) :
    ∃ t, step style s e = .ok t ∧ steps style t rest = .ok u := by
  rcases he : step style s e with failure | t
  · rw [steps, List.foldlM_cons, he] at h
    cases h
  · exact ⟨t, rfl, (steps_cons he).symm.trans h⟩

theorem step_of_steps_singleton {e : Event} (h : steps style s [e] = .ok t) :
    step style s e = .ok t := by
  obtain ⟨u, hu, hnil⟩ := exists_of_steps_cons h
  cases hnil
  exact hu

theorem steps_around {c : Container} {inner : List Event}
    (hinner : steps style (s.entered style c) inner = .ok t)
    (hleave : step style t (.leave c) = .ok u) :
    steps style s (Event.around c inner) = .ok u := by
  rw [Event.around, List.cons_append, steps_cons (step_enter style s c), steps_append hinner,
    steps_cons hleave]
  rfl

theorem exists_of_steps_around {c : Container} {inner : List Event}
    (h : steps style s (Event.around c inner) = .ok u) :
    ∃ t, steps style (s.entered style c) inner = .ok t ∧ step style t (.leave c) = .ok u := by
  rw [Event.around, List.cons_append, steps_cons (step_enter style s c)] at h
  obtain ⟨t, ht, hleave⟩ := exists_of_steps_append h
  exact ⟨t, ht, step_of_steps_singleton hleave⟩

/-! ## Writing -/

/-- `t` differs from `s` in what was written and what is held on the active printer. -/
structure Writes (held : Held) (s t : Session) : Prop where
  nesting : t.nesting = s.nesting
  table : t.table = s.table
  printers : s.printers.Extends held t.printers

namespace Writes

variable {held : Held}

protected theorem refl (s : Session) : Writes .none s s := ⟨rfl, rfl, .refl _⟩

protected theorem trans (h : Writes held s t) (k : Writes .none t u) : Writes held s u :=
  ⟨k.nesting.trans h.nesting, k.table.trans h.table, h.printers.trans k.printers⟩

protected theorem after (h : Writes .none s t) (k : Writes held t u) : Writes held s u :=
  ⟨k.nesting.trans h.nesting, k.table.trans h.table, h.printers.after k.printers⟩

theorem modifyPrinter {f : Printer → Printer}
    (h : Printer.Extends held s.printers.active (f s.printers.active)) :
    Writes held s (s.modifyPrinter f) := ⟨rfl, rfl, .modify h⟩

theorem print (s : Session) (text : String) : Writes .none s (s.print text) :=
  modifyPrinter (f := (·.print s.nesting.around text)) (.print _ _ _)

theorem flush (s : Session) : Writes .none s s.flush :=
  modifyPrinter (f := (·.flush s.nesting.around)) (.flush _ _)

theorem delay (s : Session) (text : String) : Writes .none s (s.delay text) :=
  modifyPrinter (.of_eq rfl rfl rfl)

theorem note (s : Session) (n : Note) : Writes .none s (s.note n) := ⟨rfl, rfl, .refl _⟩

theorem breakLine (s : Session) : Writes .none s s.breakLine := print s "\n"

theorem emptyLine (s : Session) : Writes .none s s.emptyLine := print s "\n\n"

theorem pushPrefix (s : Session) (text : String) :
    Writes ⟨[text], false⟩ s (s.pushPrefix text) :=
  modifyPrinter (.pushPrefix _ _)

theorem suppressBreaks (s : Session) : Writes .none s s.suppressBreaks :=
  modifyPrinter (.of_eq rfl rfl rfl)

theorem setParagraph (h : Writes held s t) (b : Bool) :
    Writes held s { t with afterParagraph := b } := ⟨h.nesting, h.table, h.printers⟩

theorem separateItem (s : Session) : Writes .none s s.separateItem := by
  unfold Session.separateItem
  split
  · dsimp only
    split
    · exact (breakLine s).trans (breakLine _)
    · exact breakLine s
  · exact .refl s

theorem markFormat_open (s : Session) (f : Format) :
    Writes ⟨[], escapesSpaces f⟩ s (s.markFormat f (openMarkup f) true) := by
  unfold Session.markFormat
  split
  · rename_i hf
    subst hf
    exact .refl s
  · dsimp only
    split
    · rename_i he
      rw [he]
      exact (print s _).after (modifyPrinter ⟨⟨"", by simp⟩, by simp, fun _ => Or.inl rfl⟩)
    · rename_i he
      rw [Bool.not_eq_true] at he
      rw [he]
      exact print s _

end Writes

theorem markFormat_closes {b : PrinterStack} {f : Format}
    (h : b.Extends ⟨[], escapesSpaces f⟩ s.printers) :
    let t := s.markFormat f (closeMarkup f) false
    t.nesting = s.nesting ∧ t.table = s.table ∧ b.Extends .none t.printers := by
  intro t
  by_cases he : escapesSpaces f = true
  · have hf : f ≠ .none := by rintro rfl; cases he
    have ht : t = (s.print (closeMarkup f)).modifyPrinter ({ · with escapeSpaces := false }) := by
      simp [t, markFormat, hf, he]
    obtain ⟨p, hp, hext⟩ := h.trans (Writes.print s (closeMarkup f)).printers
    rw [ht]
    refine ⟨rfl, rfl, { p with escapeSpaces := false }, ?_, ?_⟩
    · exact ⟨hp.written, hp.linePrefixes, by simp⟩
    · simp only [modifyPrinter, PrinterStack.modify, hext, PrinterStack.active_setActive,
        PrinterStack.setActive_setActive]
  · rw [Bool.not_eq_true] at he
    rw [he] at h
    have hw : Writes .none s t := by
      by_cases hf : f = .none
      · have ht : t = s := by simp [t, markFormat, hf]
        rw [ht]
        exact .refl s
      · have ht : t = s.print (closeMarkup f) := by simp [t, markFormat, hf, he]
        rw [ht]
        exact .print s _
    exact ⟨hw.nesting, hw.table, h.trans hw.printers⟩

theorem writes_writeEnter (style : Style) {c : Container} (hc : ¬ c.Captures s.nesting)
    (hp : c.place ≠ .table) :
    Writes (c.held style) s (writeEnter style s c) := by
  cases c
  case document | definitionList => exact .refl s
  case header level _ _ =>
    simp only [writeEnter]
    split
    · exact (Writes.print s _).trans (.print _ _)
    · exact (Writes.emptyLine s).trans (.print _ _)
  case paragraph => exact (Writes.emptyLine s).setParagraph true
  case format f _ => exact .markFormat_open s f
  case list =>
    simp only [writeEnter]
    split
    · exact (Writes.emptyLine s).setParagraph false
    · exact (Writes.breakLine s).setParagraph false
  case listItem =>
    refine Writes.setParagraph (Writes.trans ?_ (.suppressBreaks _)) false
    exact ((Writes.separateItem s).trans (.print _ _)).after (.pushPrefix _ _)
  case definitionTerm => exact .emptyLine s
  case definitionDescription => exact (Writes.print s _).after (.pushPrefix _ _)
  case table => exact .modifyPrinter (.of_eq rfl rfl rfl)
  case tableRow => exact absurd rfl hp
  case tableCell | tableHeadCell => exact absurd trivial hc
  case quotation =>
    have h := (Writes.breakLine s).after (.pushPrefix _ "> ")
    exact (h.trans (.breakLine _)).trans (.suppressBreaks _)
  case quotationLine =>
    simp only [writeEnter]
    split
    · exact .refl s
    · exact .emptyLine s
  case link r freeStanding _ =>
    simp only [writeEnter]
    split
    · rename_i h
      exact absurd ⟨h.1, by simpa using h.2⟩ hc
    · exact .flush s

theorem writeEnter_of_captures (style : Style) {c : Container} (hc : c.Captures s.nesting) :
    ∃ t, Writes .none s t ∧ writeEnter style s c = t.pushCapture := by
  cases c
  case tableCell | tableHeadCell => exact ⟨s, .refl s, rfl⟩
  case link r freeStanding _ =>
    refine ⟨s.flush, .flush s, ?_⟩
    simp only [writeEnter]
    rw [if_pos ⟨hc.1, by simpa using hc.2⟩]
  all_goals exact hc.elim

/-! ## Leaving -/

theorem writeLeave_of_extends {b : PrinterStack} {c : Container}
    (h : b.Extends (c.held style) s.printers) (hc : ¬ c.Captures s.nesting)
    (hp : c.place ≠ .table) (hr : c.room ≠ .table) :
    ∃ t, writeLeave style s c = .ok t ∧ t.nesting = s.nesting ∧ t.table = s.table ∧
      b.Extends .none t.printers := by
  have hpop : ∀ {x : String} {u : Session}, b.Extends ⟨[x], false⟩ u.printers →
      ∃ t, u.popPrefix = .ok t ∧ t.nesting = u.nesting ∧ t.table = u.table ∧
        b.Extends .none t.printers := by
    intro x u hu
    obtain ⟨r, hr, hext, -⟩ := hu.active.popPrefix?
    refine ⟨{ u with printers := u.printers.setActive r }, by simp [popPrefix, hr], rfl, rfl, ?_⟩
    obtain ⟨q, -, hq⟩ := hu
    exact ⟨r, hext, by simp [hq]⟩
  have hwrites : ∀ {t : Session}, c.held style = .none → Writes .none s t →
      t.nesting = s.nesting ∧ t.table = s.table ∧ b.Extends .none t.printers := by
    intro t hn hw
    rw [hn] at h
    exact ⟨hw.nesting, hw.table, h.trans hw.printers⟩
  cases c
  case document | header | paragraph | list | quotationLine =>
    exact ⟨_, rfl, hwrites rfl (.flush s)⟩
  case definitionList => exact ⟨_, rfl, hwrites rfl (.refl s)⟩
  case definitionTerm => exact ⟨_, rfl, hwrites rfl (.breakLine s)⟩
  case format f _ => exact ⟨_, rfl, markFormat_closes h⟩
  case listItem | quotation => exact hpop h
  case definitionDescription =>
    obtain ⟨t, ht, hn, htab, hext⟩ := hpop (h.trans (Writes.flush s).printers)
    exact ⟨t, ht, hn, htab, hext⟩
  case table => exact absurd rfl hr
  case tableRow => exact absurd rfl hp
  case tableCell | tableHeadCell => exact absurd trivial hc
  case link r freeStanding p =>
    simp only [writeLeave]
    by_cases hf : freeStanding = true
    · rw [if_pos hf]
      exact ⟨_, rfl, hwrites rfl (.print s _)⟩
    · have hl : s.nesting.links ≠ 1 := fun hl => hc ⟨by omega, by simpa using hf⟩
      rw [if_neg hf, if_neg hl]
      exact ⟨s, rfl, hwrites rfl (.refl s)⟩

theorem writeLeave_table (style : Style) (s : Session) (p : Option Parameters) :
    ∃ t, writeLeave style s (.table p) = .ok t ∧ t.nesting = s.nesting ∧
      t.table = s.table.clear ∧ s.printers.Extends .none t.printers := by
  refine ⟨_, rfl, rfl, rfl, ?_⟩
  exact ((Writes.emptyLine s).trans (.print _ s.table.draw)).printers

theorem popCapture_of_captures {b : PrinterStack} (h : b.Captures s.printers) :
    s.popCapture = .ok ((s.printers.active.flush s.nesting.around).written,
      { s with printers := b }) := by
  simp [popCapture, h.pop?]

theorem leaveCell_of_captures {b : PrinterStack} {p : Option Parameters} {span : Nat}
    (isHeader : Bool) (h : b.Captures s.printers) (hr : s.table.rows ≠ [])
    (hs : Table.spanOf (lookupIn p "colspan") = .ok span) :
    ∃ t, s.leaveCell isHeader p = .ok t ∧ t.nesting = s.nesting ∧
      s.table.Keeps .tableRow t.table ∧ b.Extends .none t.printers := by
  obtain ⟨u, hu, hk⟩ := Table.Layout.addCell_ok
    (s.printers.active.flush s.nesting.around).written isHeader hr hs
  refine ⟨{ s with printers := b, table := u }, ?_, rfl, hk, .refl b⟩
  simp [leaveCell, popCapture_of_captures h, hu]

theorem writeLeave_link_of_captures (style : Style) {b : PrinterStack} (r : Reference)
    (p : Option Parameters) (h : b.Captures s.printers) (hl : s.nesting.links = 1) :
    ∃ t, writeLeave style s (.link r false p) = .ok t ∧ t.nesting = s.nesting ∧
      t.table = s.table ∧ b.Extends .none t.printers := by
  have hw := Writes.print { s with printers := b }
    (linkText style r (s.printers.active.flush s.nesting.around).written p)
  refine ⟨_, ?_, hw.nesting, hw.table, hw.printers⟩
  simp [writeLeave, hl, popCapture_of_captures h]

/-! ## Leaves -/

theorem writeLeaf_ok {l : Leaf} (hl : ∀ r f p, l = .image r f p →
    ∀ scheme target, style.labels.label r ≠ .failed scheme target) :
    ∃ t, writeLeaf style s l = .ok t ∧ Writes .none s t := by
  cases l
  case image r _ p =>
    have himage : ∃ label t, imageLabel style s r p = .ok (label, t) ∧ Writes .none s t := by
      unfold imageLabel
      split
      · exact ⟨_, _, rfl, .refl s⟩
      · split
        · exact ⟨_, _, rfl, .note s _⟩
        · exact ⟨_, _, rfl, .refl s⟩
        · rename_i h
          exact absurd h (hl _ _ _ rfl _ _)
    obtain ⟨label, t, ht, hw⟩ := himage
    exact ⟨_, by simp only [writeLeaf, ht]; rfl, hw.trans (.print t _)⟩
  case call =>
    refine ⟨_, rfl, Writes.trans ?_ (.print _ _)⟩
    split
    · exact .refl s
    · exact .emptyLine s
  case verbatim content inLine p =>
    simp only [writeLeaf]
    split
    · exact ⟨_, rfl, .print s _⟩
    · exact ⟨_, rfl, (Writes.emptyLine s).trans (.print _ _)⟩
  case rawText =>
    refine ⟨_, rfl, Writes.trans ?_ (.print _ _)⟩
    split
    · exact .refl s
    · exact .emptyLine s
  case horizontalLine => exact ⟨_, rfl, (Writes.emptyLine s).trans (.print _ _)⟩
  case emptyLines => exact ⟨_, rfl, .print s _⟩
  case word | symbol | space => exact ⟨_, rfl, .delay s _⟩
  case newLine =>
    refine ⟨_, rfl, ?_⟩
    split
    · exact .print s _
    · exact .breakLine s
  case anchor => exact ⟨_, rfl, .note s _⟩

/-! ## Trees -/

/-- What a node leads to, and so do several that belong in one place. -/
structure Keeps (p : Place) (s t : Session) : Prop where
  nesting : s.nesting.Agrees p t.nesting
  printers : s.printers.Extends .none t.printers
  table : s.table.Keeps p t.table

/-- A node can be told: a cell has a row to go to, and a table finds no other one. -/
structure Ready (n : Node) (s : Session) : Prop where
  links : 0 ≤ s.nesting.links
  row : n.place = .tableRow → s.table.rows ≠ []
  table : n.TableFree ∨ s.table = s.table.clear

section Trees

variable {p : Place} {n : Node} {c : Container}

protected theorem Keeps.refl (p : Place) (s : Session) : s.Keeps p s :=
  ⟨.refl _ _, .refl _, .refl _ _⟩

protected theorem Keeps.trans (h : s.Keeps p t) (k : t.Keeps p u) : s.Keeps p u :=
  ⟨h.nesting.trans k.nesting, h.printers.trans k.printers, h.table.trans k.table⟩

theorem Ready.keeps (h : Ready n s) (hn : n.Regular style) (k : s.Keeps n.place t) :
    Ready n t := by
  refine ⟨k.nesting.links ▸ h.links, fun hp => k.table.rows hp (h.row hp), ?_⟩
  by_cases hp : n.place = .table ∨ n.place = .tableRow
  · exact Or.inl (hn.tableFree_of_place hp)
  · have hsame := k.table.same (fun e => hp (Or.inl e)) fun e => hp (Or.inr e)
    rw [hsame]
    exact h.table

theorem steps_eventsAll : ∀ (kids : List Node) {s : Session},
    (∀ k ∈ kids, k.Regular style ∧ k.place = p ∧ Ready k s) →
    (∀ k ∈ kids, ∀ s, Ready k s → ∃ t, steps style s k.events = .ok t ∧ s.Keeps k.place t) →
    ∃ t, steps style s (Node.eventsAll kids) = .ok t ∧ s.Keeps p t
  | [], s, _, _ => ⟨s, rfl, .refl p s⟩
  | k :: rest, s, hkids, hsteps => by
    obtain ⟨hk, hp, hr⟩ := hkids k (by simp)
    obtain ⟨t, ht, hst⟩ := hsteps k (by simp) s hr
    rw [hp] at hst
    have hrest : ∀ k ∈ rest, k.Regular style ∧ k.place = p ∧ Ready k t := by
      intro k' hk'
      obtain ⟨h1, h2, h3⟩ := hkids k' (by simp [hk'])
      exact ⟨h1, h2, h3.keeps h1 (h2.symm ▸ hst)⟩
    obtain ⟨u, hu, htu⟩ := steps_eventsAll rest hrest fun k' hk' => hsteps k' (by simp [hk'])
    refine ⟨u, ?_, hst.trans htu⟩
    rw [Node.eventsAll, steps_append ht, hu]

theorem steps_leaves : ∀ (leaves : List Leaf) {s : Session},
    (∀ r f q, Leaf.image r f q ∈ leaves → ∀ scheme target,
      style.labels.label r ≠ .failed scheme target) →
    ∃ t, steps style s (leaves.map .leaf) = .ok t ∧ s.Keeps .content t
  | [], s, _ => ⟨s, rfl, .refl _ s⟩
  | l :: rest, s, h => by
    obtain ⟨t, ht, hw⟩ := writeLeaf_ok (s := s) (l := l)
      fun r f q e => h r f q (e ▸ List.mem_cons_self)
    obtain ⟨u, hu, htu⟩ := steps_leaves rest
      (s := { t with nesting := { t.nesting with previous := Nesting.completes l } })
      fun r f q hm => h r f q (List.mem_cons_of_mem _ hm)
    refine ⟨u, by rw [List.map_cons, steps_cons (step_leaf ht), hu], Keeps.trans ?_ htu⟩
    refine ⟨?_, hw.printers, hw.table ▸ .refl _ _⟩
    rw [hw.nesting]
    exact ⟨rfl, rfl, rfl, rfl, rfl, rfl, rfl, fun _ => rfl⟩

/-- The session outside a container, once the container is written to its end. -/
theorem leave_of_writeLeave (h : writeLeave style t c = .ok u) (hn : u.nesting = t.nesting)
    (hin : (s.nesting.enter c).Agrees c.room t.nesting)
    (hp : s.printers.Extends .none u.printers) (ht : s.table.Keeps c.place u.table) :
    ∃ v, step style t (.leave c) = .ok v ∧ s.Keeps c.place v := by
  obtain ⟨n, hleave, hagrees⟩ := Nesting.agrees_leave c hin
  refine ⟨{ u with nesting := n }, step_leave h (hn ▸ hleave), hagrees, hp, ht⟩

theorem links_le_enter (m : Nesting) (c : Container) : m.links ≤ (m.enter c).links := by
  cases c
  case link => exact Int.le_add_one (Int.le_refl _)
  all_goals exact Int.le_refl _

theorem eq_tableRow_of_place : ∀ {c : Container}, c.place = .table → ∃ q, c = .tableRow q
  | .tableRow q, _ => ⟨q, rfl⟩

theorem eq_table_of_room : ∀ {c : Container}, c.room = .table → ∃ q, c = .table q
  | .table q, _ => ⟨q, rfl⟩

theorem place_of_room_tableRow : ∀ {c : Container}, c.room = .tableRow → c.place = .table
  | .tableRow _, _ => rfl

theorem captures_congr {m m' : Nesting} (h : m'.links = m.links) :
    c.Captures m' ↔ c.Captures m := by
  cases c <;> simp [Container.Captures, h]

/-- What entering leaves alone: the writer does not touch the nesting, and only a row the table. -/
theorem entered_spec (style : Style) (s : Session) (c : Container) :
    (s.entered style c).nesting = s.nesting.enter c ∧
      (c.place ≠ .table → (s.entered style c).table = s.table) ∧
      (c.place = .table → (s.entered style c).table.rows ≠ []) := by
  by_cases hp : c.place = .table
  · obtain ⟨q, rfl⟩ := eq_tableRow_of_place hp
    exact ⟨rfl, fun h => absurd hp h, fun _ => by simp [entered, writeEnter, Table.Layout.beginRow]⟩
  · have hboth : (s.entered style c).nesting = s.nesting.enter c ∧
        (s.entered style c).table = s.table := by
      by_cases hc : c.Captures (s.nesting.enter c)
      · obtain ⟨t, hw, ht⟩ := writeEnter_of_captures style
          (s := { s with nesting := s.nesting.enter c }) hc
        rw [entered, ht]
        exact ⟨hw.nesting, hw.table⟩
      · have hw := writes_writeEnter style (s := { s with nesting := s.nesting.enter c }) hc hp
        exact ⟨hw.nesting, hw.table⟩
    exact ⟨hboth.1, fun _ => hboth.2, fun h => absurd h hp⟩

/-- What is told in a container that pushed a printer is captured. -/
theorem exists_captures_of_keeps (hc : c.Captures (s.nesting.enter c))
    (h : (s.entered style c).Keeps p t) :
    ∃ b : Session, Writes .none { s with nesting := s.nesting.enter c } b ∧
      b.printers.Captures t.printers := by
  obtain ⟨b, hw, hb⟩ := writeEnter_of_captures style
    (s := { s with nesting := s.nesting.enter c }) hc
  have hin := h.printers
  rw [entered, hb] at hin
  exact ⟨b, hw, (PrinterStack.captures_push b.printers).extends hin⟩

theorem captures_of_cell (hc : c.place = .tableRow) (h : (s.entered style c).Keeps p t) :
    s.printers.Captures t.printers := by
  have hpush : (s.entered style c).printers = s.printers.push := by
    cases c <;> first | rfl | cases hc
  have hcaptures := PrinterStack.captures_push s.printers
  rw [← hpush] at hcaptures
  exact hcaptures.extends h.printers

theorem exists_leave_of_captures (hc : c.Captures (s.nesting.enter c))
    (hl : 0 ≤ s.nesting.links) (hrow : c.place = .tableRow → s.table.rows ≠ [])
    (hspan : ∀ q, c = .tableCell q ∨ c = .tableHeadCell q →
      ∃ span, Table.spanOf (lookupIn q "colspan") = .ok span)
    (h : (s.entered style c).Keeps c.room t) :
    ∃ u, step style t (.leave c) = .ok u ∧ s.Keeps c.place u := by
  obtain ⟨hnest, htab, -⟩ := entered_spec style s c
  have hin := h.nesting
  rw [hnest] at hin
  obtain ⟨b, hw, hcap⟩ := exists_captures_of_keeps hc h
  have hcell : ∀ {isHeader : Bool} {q : Option Parameters}, c.place = .tableRow →
      c.room = .content → (c = .tableCell q ∨ c = .tableHeadCell q) →
      ∃ v, t.leaveCell isHeader q = .ok v ∧ v.nesting = t.nesting ∧
        s.table.Keeps .tableRow v.table ∧ s.printers.Extends .none v.printers := by
    intro isHeader q hp hr hq
    have hsame : t.table = s.table := by
      rw [← htab (by rw [hp]; decide)]
      exact h.table.same (by rw [hr]; decide) (by rw [hr]; decide)
    obtain ⟨span, hs⟩ := hspan q hq
    obtain ⟨v, hv, hn, hk, hext⟩ := leaveCell_of_captures isHeader hcap (hsame ▸ hrow hp) hs
    exact ⟨v, hv, hn, hsame ▸ hk, hw.printers.trans hext⟩
  cases c
  case tableCell q =>
    obtain ⟨v, hv, hn, hk, hext⟩ := hcell rfl rfl (Or.inl rfl)
    exact leave_of_writeLeave hv hn hin hext hk
  case tableHeadCell q =>
    obtain ⟨v, hv, hn, hk, hext⟩ := hcell rfl rfl (Or.inr rfl)
    exact leave_of_writeLeave hv hn hin hext hk
  case link r freeStanding q =>
    obtain ⟨hlt, rfl⟩ := hc
    have hone : t.nesting.links = 1 := by
      rw [hin.links]
      simp only [Nesting.enter] at hlt ⊢
      omega
    obtain ⟨v, hv, hn, hk, hext⟩ := writeLeave_link_of_captures style r q hcap hone
    refine leave_of_writeLeave hv hn hin (hw.printers.trans hext) ?_
    rw [hk, h.table.eq_of_content, htab nofun]
    exact .refl _ _
  all_goals exact hc.elim

theorem exists_leave_of_not_captures (hc : ¬ c.Captures (s.nesting.enter c))
    (hp : c.place ≠ .table) (hclear : c.room = .table → s.table = s.table.clear)
    (h : (s.entered style c).Keeps c.room t) :
    ∃ u, step style t (.leave c) = .ok u ∧ s.Keeps c.place u := by
  obtain ⟨hnest, htab, -⟩ := entered_spec style s c
  have hin := h.nesting
  rw [hnest] at hin
  have hext := (writes_writeEnter style
    (s := { s with nesting := s.nesting.enter c }) hc hp).printers.trans h.printers
  by_cases hr : c.room = .table
  · obtain ⟨q, rfl⟩ := eq_table_of_room hr
    obtain ⟨v, hv, hn, hk, hw⟩ := writeLeave_table style t q
    refine leave_of_writeLeave hv hn hin (hext.trans hw) ?_
    have hs : t.table.settings = s.table.settings := by
      rw [h.table.settings, htab nofun]
    rw [hk, Table.Layout.clear, hs, ← Table.Layout.clear, ← hclear rfl]
    exact .refl _ _
  · have hc' : ¬ c.Captures t.nesting := mt (captures_congr hin.links).1 hc
    obtain ⟨v, hv, hn, hk, hw⟩ := writeLeave_of_extends hext hc' hp hr
    refine leave_of_writeLeave hv hn hin hw ?_
    rw [hk, h.table.same hr (mt place_of_room_tableRow hp), htab hp]
    exact .refl _ _

theorem exists_leave_tableRow {q : Option Parameters}
    (h : (s.entered style (.tableRow q)).Keeps .tableRow t) :
    ∃ u, step style t (.leave (.tableRow q)) = .ok u ∧ s.Keeps .table u :=
  leave_of_writeLeave rfl rfl h.nesting h.printers
    ⟨h.table.settings, fun h => absurd rfl h, fun h => nomatch h⟩

theorem label_of_mem_leaves (h : n.Labelled style) {r : Reference} {f : Bool}
    {q : Option Parameters} (hm : Leaf.image r f q ∈ n.leaves) (scheme target : String) :
    style.labels.label r ≠ .failed scheme target := by
  cases n <;> simp only [Node.leaves, List.mem_singleton, List.not_mem_nil, reduceCtorEq] at hm
  case image =>
    obtain ⟨rfl, -, -⟩ := Leaf.image.inj hm
    exact h scheme target
  case text =>
    obtain ⟨t, -, ht⟩ := List.mem_map.1 hm
    cases t <;> cases ht

theorem span_of_wrap (h : n.SpanValid) {q : Option Parameters}
    (hw : n.wrap? = some (.tableCell q) ∨ n.wrap? = some (.tableHeadCell q)) :
    ∃ span, Table.spanOf (lookupIn q "colspan") = .ok span := by
  cases n <;> simp only [Node.wrap?, Option.some.injEq, reduceCtorEq, or_self] at hw
  case tableCell content header p =>
    cases header
    · simp only [Bool.false_eq_true, if_false, Container.tableCell.injEq, reduceCtorEq,
        or_false] at hw
      exact hw ▸ h
    · simp only [if_true, Container.tableHeadCell.injEq, reduceCtorEq, false_or] at hw
      exact hw ▸ h

theorem Ready.child (hs : Ready n s) (hn : n.Regular style) (hw : n.wrap? = some c) {k : Node}
    (hk : k ∈ n.children) : Ready k (s.entered style c) := by
  obtain ⟨hnest, htab, hrow⟩ := entered_spec style s c
  refine ⟨?_, fun hp => ?_, ?_⟩
  · rw [hnest]
    exact Int.le_trans hs.links (links_le_enter _ c)
  · rw [hn.place_child hk, Node.room_of_wrap hw] at hp
    exact hrow (place_of_room_tableRow hp)
  · rcases hs.table with hfree | hclear
    · exact Or.inl (hfree.child hk)
    · by_cases hp : c.place = .table
      · have hfree := hn.tableFree_of_place (Or.inl ((Node.place_of_wrap hw).trans hp))
        exact Or.inl (hfree.child hk)
      · rw [htab hp]
        exact Or.inr hclear

/-- All events of a regular tree are taken, and they lead back to where they began. -/
theorem steps_events (style : Style) (n : Node) : n.Regular style → ∀ {s : Session},
    Ready n s → ∃ t, steps style s n.events = .ok t ∧ s.Keeps n.place t := by
  induction n using Node.childrenInduction with
  | step n ih =>
  intro hn s hs
  rcases hw : n.wrap? with _ | c
  · have hplace := Node.place_of_wrap_none hw
    rw [Node.events_of_leaves hw, hplace]
    exact steps_leaves n.leaves fun r f q hm => label_of_mem_leaves hn.labels.here hm
  · rw [Node.events_of_wrap hw, Node.place_of_wrap hw]
    have hkids : ∀ k ∈ n.children, k.Regular style ∧ k.place = c.room ∧
        Ready k (s.entered style c) := fun k hk =>
      ⟨hn.child hk, (hn.place_child hk).trans (Node.room_of_wrap hw), hs.child hn hw hk⟩
    obtain ⟨t, ht, hst⟩ := steps_eventsAll n.children hkids
      fun k hk s hs => ih k hk (hn.child hk) hs
    have hleave : ∃ u, step style t (.leave c) = .ok u ∧ s.Keeps c.place u := by
      by_cases hp : c.place = .table
      · obtain ⟨q, rfl⟩ := eq_tableRow_of_place hp
        exact exists_leave_tableRow hst
      · by_cases hc : c.Captures (s.nesting.enter c)
        · refine exists_leave_of_captures hc hs.links ?_ ?_ hst
          · rw [← Node.place_of_wrap hw]
            exact hs.row
          · rintro q (rfl | rfl)
            · exact span_of_wrap hn.spans.here (Or.inl hw)
            · exact span_of_wrap hn.spans.here (Or.inr hw)
        · refine exists_leave_of_not_captures hc hp (fun hr => ?_) hst
          obtain ⟨q, rfl⟩ := eq_table_of_room hr
          exact hs.table.resolve_left fun hfree => hfree.here (Node.isTable_of_wrap hw)
    obtain ⟨u, hu, hsu⟩ := hleave
    exact ⟨u, steps_around ht hu, hsu⟩

end Trees

end Session

end Markwright
