import Markwright.Proofs.Counters

/-!
# Text that waits

The text of a document is queued where it comes and escaped by a later event, the first one that
writes on the same printer. The writer takes an event when what is entered counts as open already
and what is left still does (`Nesting.atWriting`), so the text is escaped under what that event sees
and not under what was there when it was queued. Most containers see the same, for they write before
anything else is entered and before they count as left. Those that do not are listed in
`Event.Shifts`; the lemmas here settle one event at a time.
-/

namespace Markwright

/-- The nesting as the writer sees it at an event. -/
def Nesting.atWriting (n : Nesting) : Event → Nesting
  | .enter c => n.enter c
  | _ => n

/-- The counters that surroundings are read from do not lie below zero. -/
structure Nesting.Counts (n : Nesting) : Prop where
  inLine : 0 ≤ n.inLine
  tables : 0 ≤ n.tables

theorem Nesting.Counts.enter {n : Nesting} (h : n.Counts) (c : Container) :
    (n.enter c).Counts := by
  obtain ⟨hinLine, htables⟩ := h
  cases c <;> constructor <;> simp only [Nesting.enter] <;> omega

theorem Nesting.Counts.agrees {m n : Nesting} {p : Place} (h : m.Counts) (hn : m.Agrees p n) :
    n.Counts :=
  ⟨hn.inLine ▸ h.inLine, hn.tables ▸ h.tables⟩

/-- The text of the document that a leaf queues. -/
def Leaf.queued? : Leaf → Option String
  | .word text | .symbol text => some text
  | .space => some " "
  | _ => none

theorem Leaf.queued?_ofToken {k : Text.Token} (hk : ∀ bs, k ≠ .lineBreak bs) :
    (Leaf.ofToken k).queued? = some (String.ofList k.chars) := by
  cases k with
  | lineBreak bs => exact absurd rfl (hk bs)
  | space | word => rfl
  | symbol c => simp [Leaf.ofToken, Leaf.queued?, Text.Token.chars]

/-- What waits at the event was queued inside an item or before a table that is left, or outside
of a line that is entered. -/
def Event.Shifts (n : Nesting) : Event → Prop
  | .leave (.list ..) => n.inLine = 0
  | .leave (.table _) => n.tables = 1
  | .enter (.header ..) | .enter (.paragraph _) | .enter .definitionTerm
  | .enter .definitionDescription => n.inLine = 0
  | _ => False

/-! ## Flushing twice -/

namespace Printer

variable (p : Printer) (a : Surroundings)

theorem flush_flush : (p.flush a).flush a = p.flush a := flush_of_none a (pending_flush p a)

theorem print_flush (s : String) : (p.flush a).print a s = p.print a s := by
  rw [print, print, flush_flush]

end Printer

namespace Session

variable {style : Style} {s t u : Session} {c : Container} {a : Surroundings} {p : Place}

theorem flush_flush (s : Session) : s.flush.flush = s.flush := by
  simp [flush, PrinterStack.flush, PrinterStack.modify, Printer.flush_flush]

theorem print_flush (s : Session) (text : String) : s.flush.print text = s.print text := by
  simp [print, flush, PrinterStack.print, PrinterStack.flush, PrinterStack.modify,
    Printer.print_flush]

theorem breakLine_flush (s : Session) : s.flush.breakLine = s.breakLine := print_flush s "\n"

theorem emptyLine_flush (s : Session) : s.flush.emptyLine = s.emptyLine := print_flush s "\n\n"

theorem emptyLine_print_flush (s : Session) (text : String) :
    s.flush.emptyLine.print text = s.emptyLine.print text := by
  rw [emptyLine_flush]

theorem markFormat_flush (s : Session) {f : Format} (hf : f ≠ .none) (markup : String)
    (entered : Bool) : s.flush.markFormat f markup entered = s.markFormat f markup entered := by
  simp only [markFormat, if_neg hf, print_flush]

/-- The event first escapes what waits on the active printer, under what it sees. -/
def Flushes (style : Style) (s : Session) (e : Event) : Prop :=
  step style s e =
    step style { s with printers := s.printers.flush (s.nesting.atWriting e).around } e

theorem flushes_enter (h : ∀ t : Session, writeEnter style t.flush c = writeEnter style t c) :
    Flushes style s (.enter c) := by
  rw [Flushes, step_enter, step_enter]
  exact congrArg Except.ok (h { s with nesting := s.nesting.enter c }).symm

theorem flushes_leave (h : writeLeave style s.flush c = writeLeave style s c) :
    Flushes style s (.leave c) := by
  have hstep : ∀ s : Session, step style s (.leave c) =
      writeLeave style s c >>= fun t => track t (.leave c) >>= pure := fun _ => rfl
  rw [Flushes, hstep, hstep, ← h]
  rfl

theorem flushes_leaf {l : Leaf} (h : writeLeaf style s.flush l = writeLeaf style s l) :
    Flushes style s (.leaf l) := by
  have hstep : ∀ s : Session, step style s (.leaf l) =
      writeLeaf style s l >>= fun t => track t (.leaf l) >>= pure := fun _ => rfl
  rw [Flushes, hstep, hstep, ← h]
  rfl

/-! ## Leaves -/

theorem writeLeaf_queued {l : Leaf} {text : String} (hl : l.queued? = some text) :
    writeLeaf style s l = .ok (s.delay text) := by
  cases l <;> cases hl <;> rfl

theorem writeLeaf_image_flush {r : Reference} {f : Bool} {q : Option Parameters}
    (h : writeLeaf style s (.image r f q) = .ok t) :
    writeLeaf style s.flush (.image r f q) = writeLeaf style s (.image r f q) := by
  rcases halt : (lookupIn q "alt").filter (Text.strip · ≠ "") with _ | alt
  · rcases hlabel : style.labels.label r with ⟨scheme, text⟩ | label | ⟨scheme, text⟩
    all_goals simp only [writeLeaf, imageLabel, halt, hlabel] at h ⊢
    · exact congrArg Except.ok (print_flush (s.note (.rawLabel scheme)) _)
    · exact congrArg Except.ok (print_flush s _)
    · cases h
  · simp only [writeLeaf, imageLabel, halt]
    exact congrArg Except.ok (print_flush s _)

/-- A leaf flushes what waits, or it queues more of it. -/
theorem leaf_waiting {l : Leaf} {text : String} (h : step style s (.leaf l) = .ok t)
    (hw : s.printers.active.pending = some text) :
    Flushes style s (.leaf l) ∨
      ∃ more, t.printers.active.pending = some (text ++ more) ∧
        t.printers.depth = s.printers.depth ∧ t.nesting.around = s.nesting.around := by
  obtain ⟨u, hwrite, rfl⟩ := exists_of_step_leaf h
  have hdelay : ∀ more, u = s.delay more → ∃ more, u.printers.active.pending = some (text ++ more) ∧
      u.printers.depth = s.printers.depth ∧ u.nesting.around = s.nesting.around := by
    rintro more rfl
    refine ⟨more, ?_, PrinterStack.depth_setActive _ _, rfl⟩
    simp [delay, modifyPrinter, PrinterStack.modify, Printer.delay, hw]
  cases l
  case image => exact Or.inl (flushes_leaf (writeLeaf_image_flush hwrite))
  case call id q content inLine =>
    refine Or.inl (flushes_leaf ?_)
    cases inLine
    · exact congrArg Except.ok (emptyLine_print_flush s _)
    · exact congrArg Except.ok (print_flush s _)
  case verbatim content inLine q =>
    refine Or.inl (flushes_leaf ?_)
    cases inLine
    · exact congrArg Except.ok (emptyLine_print_flush s _)
    · exact congrArg Except.ok (print_flush s _)
  case rawText content dialect =>
    refine Or.inl (flushes_leaf ?_)
    have hsame : s.flush.nesting = s.nesting := rfl
    simp only [writeLeaf, hsame]
    split
    · rw [print_flush]
    · rw [emptyLine_flush]
  case horizontalLine =>
    exact Or.inl (flushes_leaf (congrArg Except.ok (emptyLine_print_flush s _)))
  case emptyLines => exact Or.inl (flushes_leaf (congrArg Except.ok (print_flush s _)))
  case newLine =>
    refine Or.inl (flushes_leaf ?_)
    have hsame : s.flush.nesting = s.nesting := rfl
    simp only [writeLeaf, hsame, print_flush, breakLine_flush]
  case word | symbol | space =>
    cases hwrite
    exact Or.inr (hdelay _ rfl)
  case anchor name =>
    cases hwrite
    exact Or.inr ⟨"", by simpa [note] using hw, rfl, rfl⟩

/-! ## Containers -/

/-- Text that waits where a place has room was queued under `a`. Between the items of a list it
comes from inside of an item, and in a table from before it; what waits in a quotation is flushed
with its line. -/
def Accords (a : Surroundings) (n : Nesting) : Place → Prop
  | .content | .definitionList => a = n.around
  | .list => a = ⟨true, n.around.inTable⟩
  | .table | .tableRow => a = ⟨n.isInLine, decide (1 < n.tables)⟩
  | .quotation => False

theorem Accords.agrees {m n : Nesting} (h : Accords a m p) (hn : m.Agrees p n) :
    Accords a n p := by
  have haround : n.around = m.around := by
    simp [Nesting.around, Nesting.isInLine, hn.inLine, hn.tables]
  cases p
  case quotation => exact h
  all_goals simpa only [Accords, haround, Nesting.isInLine, hn.inLine, hn.tables] using h

/-- What waits is flushed by the event, under `a` unless the event shifts the surroundings. -/
structure Escapes (style : Style) (a : Surroundings) (s : Session) (e : Event) : Prop where
  flushes : Flushes style s e
  around : (s.nesting.atWriting e).around = a ↔ ¬ e.Shifts s.nesting

/-- Entering a container that pushes no printer for a cell flushes what waits, or leaves it. -/
theorem enter_waiting (hc : c.place ≠ .tableRow) (ha : Accords a s.nesting c.place)
    (hn : s.nesting.Counts) :
    Escapes style a s (.enter c) ∨
      (¬ c.Captures (s.nesting.enter c) ∧
        (s.entered style c).printers.active.pending = s.printers.active.pending ∧
        Accords a (s.entered style c).nesting c.room) := by
  obtain ⟨hinLine, htables⟩ := hn
  have hline : ∀ {n : Nesting}, n.inLine = s.nesting.inLine + 1 → n.tables = s.nesting.tables →
      a = s.nesting.around → (n.around = a ↔ ¬ s.nesting.inLine = 0) := by
    rintro n hi ht rfl
    have h1 : 0 < s.nesting.inLine + 1 := by omega
    simp only [Nesting.around, Nesting.isInLine, hi, ht, h1, decide_true, Surroundings.mk.injEq,
      and_true, eq_comm (a := true), decide_eq_true_eq]
    omega
  cases c
  case document | definitionList => exact Or.inr ⟨id, rfl, ha⟩
  case header level _ _ =>
    refine Or.inl ⟨flushes_enter fun t => ?_, hline rfl rfl ha⟩
    simp only [writeEnter, print_flush, emptyLine_flush]
  case paragraph =>
    refine Or.inl ⟨flushes_enter fun t => ?_, hline rfl rfl ha⟩
    simp only [writeEnter, emptyLine_flush]
  case format f _ =>
    by_cases hf : f = .none
    · subst hf
      exact Or.inr ⟨id, rfl, ha⟩
    · refine Or.inl ⟨flushes_enter fun t => markFormat_flush t hf _ _, ?_⟩
      exact ⟨fun _ => id, fun _ => ha.symm⟩
  case list =>
    have hsame : ∀ t : Session, t.flush.nesting = t.nesting := fun _ => rfl
    refine Or.inl ⟨flushes_enter fun t => ?_, ⟨fun _ => id, fun _ => ha.symm⟩⟩
    simp only [writeEnter, emptyLine_flush, breakLine_flush, hsame]
  case listItem =>
    have hsame : ∀ t : Session, t.flush.nesting = t.nesting := fun _ => rfl
    refine Or.inl ⟨flushes_enter fun t => ?_, ⟨fun _ => id, fun _ => ?_⟩⟩
    · by_cases hfirst : 0 < t.nesting.itemIndex
      · simp only [writeEnter, separateItem, hsame, if_pos hfirst, breakLine_flush]
      · have hmarker : t.flush.itemMarker = t.itemMarker := rfl
        simp only [writeEnter, separateItem, hsame, if_neg hfirst, hmarker, print_flush]
    · have h1 : 0 < s.nesting.inLine + 1 := by omega
      have hin : a = ⟨true, s.nesting.around.inTable⟩ := ha
      simp only [hin, Nesting.atWriting, Nesting.around, Nesting.isInLine, Nesting.enter, h1,
        decide_true]
      rfl
  case definitionTerm =>
    refine Or.inl ⟨flushes_enter fun t => ?_, hline rfl rfl ha⟩
    simp only [writeEnter, emptyLine_flush]
  case definitionDescription =>
    refine Or.inl ⟨flushes_enter fun t => ?_, hline rfl rfl ha⟩
    simp only [writeEnter, print_flush]
  case table =>
    -- Nothing is flushed, so what came before the table waits until it is left.
    have hin : a = s.nesting.around := ha
    refine Or.inr ⟨id, ?_, ?_⟩
    · simp [entered, writeEnter, modifyPrinter, PrinterStack.modify]
    · have h1 : 1 < s.nesting.tables + 1 ↔ 0 < s.nesting.tables := by omega
      simp only [hin, Accords, Container.room, entered, writeEnter, modifyPrinter, Nesting.around,
        Nesting.isInLine, Nesting.enter, h1]
      rfl
  case tableRow => exact Or.inr ⟨id, rfl, ha⟩
  case tableCell | tableHeadCell => exact absurd rfl hc
  case quotation =>
    refine Or.inl ⟨flushes_enter fun t => ?_, ⟨fun _ => id, fun _ => ha.symm⟩⟩
    simp only [writeEnter, breakLine_flush]
  case quotationLine => exact ha.elim
  case link r freeStanding _ =>
    have hsame : ∀ t : Session, t.flush.nesting = t.nesting := fun _ => rfl
    refine Or.inl ⟨flushes_enter fun t => ?_, ⟨fun _ => id, fun _ => ha.symm⟩⟩
    simp only [writeEnter, flush_flush]

theorem pending_popPrefix (h : s.popPrefix = .ok t) :
    t.printers.active.pending = s.printers.active.pending := by
  unfold popPrefix at h
  split at h
  · rename_i q hq
    cases h
    obtain ⟨x, -, hx⟩ := Option.map_eq_some_iff.1 hq
    cases hx
    simp
  · cases h

theorem leaveTable_flush (s : Session) : s.flush.leaveTable = s.leaveTable := by
  have htable : s.flush.table = s.table := rfl
  simp only [leaveTable, emptyLine_flush, htable]

/-- Leaving a container that pushed no printer flushes what waits, or leaves it. -/
theorem leave_waiting (hc : ¬ c.Captures s.nesting) (h : step style s (.leave c) = .ok t)
    (ha : Accords a s.nesting c.room) (hn : s.nesting.Counts)
    (hinLine : c.place = .list → 0 < s.nesting.inLine)
    (htables : c.room = .table → 0 < s.nesting.tables) :
    Escapes style a s (.leave c) ∨
      (t.printers.active.pending = s.printers.active.pending ∧ Accords a t.nesting c.place) := by
  obtain ⟨u, n, hwrite, hleave, rfl⟩ := exists_of_step_leave h
  have hsame : c.room = .content → (¬ (Event.leave c).Shifts s.nesting) →
      (((s.nesting.atWriting (.leave c)).around = a) ↔ ¬ (Event.leave c).Shifts s.nesting) := by
    intro hroom hshift
    rw [hroom] at ha
    exact ⟨fun _ => hshift, fun _ => ha.symm⟩
  cases c
  case document | header | paragraph | quotationLine =>
    exact Or.inl ⟨flushes_leave (congrArg Except.ok (flush_flush s)), hsame rfl id⟩
  case definitionTerm =>
    exact Or.inl ⟨flushes_leave (congrArg Except.ok (breakLine_flush s)), hsame rfl id⟩
  case definitionDescription =>
    exact Or.inl ⟨flushes_leave (congrArg popPrefix (flush_flush s)), hsame rfl id⟩
  case format f _ =>
    by_cases hf : f = .none
    · subst hf
      cases hwrite
      cases hleave
      exact Or.inr ⟨rfl, ha⟩
    · exact Or.inl ⟨flushes_leave (congrArg Except.ok (markFormat_flush s hf _ _)), hsame rfl id⟩
  case list =>
    refine Or.inl ⟨flushes_leave (congrArg Except.ok (flush_flush s)), ?_⟩
    have hin : a = ⟨true, s.nesting.around.inTable⟩ := ha
    have hpos := hn.inLine
    have hiff : s.nesting.around = a ↔ 0 < s.nesting.inLine := by
      simp [hin, Nesting.around, Nesting.isInLine]
    exact hiff.trans ⟨fun _ (_ : s.nesting.inLine = 0) => by omega,
      fun (_ : ¬ s.nesting.inLine = 0) => by omega⟩
  case listItem =>
    -- The prefix is popped and nothing is flushed: the text waits outside of its item now.
    have hin : a = s.nesting.around := ha
    have hpos := hinLine rfl
    have hwaits : u.printers.active.pending = s.printers.active.pending := pending_popPrefix hwrite
    refine Or.inr ⟨hwaits, ?_⟩
    rw [nesting_popPrefix hwrite] at hleave
    cases hleave
    simp only [hin, Accords, Container.place, Nesting.around, Nesting.isInLine, hpos, decide_true]
    rfl
  case definitionList =>
    cases hwrite
    cases hleave
    exact Or.inr ⟨rfl, ha⟩
  case table =>
    have hin : a = ⟨s.nesting.isInLine, decide (1 < s.nesting.tables)⟩ := ha
    refine Or.inl ⟨flushes_leave ?_, ?_⟩
    · exact congrArg Except.ok (leaveTable_flush s)
    · have hpos := htables rfl
      have hiff : s.nesting.around = a ↔ (0 < s.nesting.tables ↔ 1 < s.nesting.tables) := by
        simp [hin, Nesting.around]
      exact hiff.trans ⟨fun _ (_ : s.nesting.tables = 1) => by omega,
        fun (_ : ¬ s.nesting.tables = 1) => by omega⟩
  case tableRow =>
    cases hwrite
    cases hleave
    exact Or.inr ⟨rfl, ha⟩
  case tableCell | tableHeadCell => exact absurd trivial hc
  case quotation => exact ha.elim
  case link r freeStanding q =>
    by_cases hfree : freeStanding = true
    · refine Or.inl ⟨flushes_leave ?_, hsame rfl id⟩
      simp only [writeLeave, if_pos hfree, print_flush]
    · have hlinks : s.nesting.links ≠ 1 := fun hl => hc ⟨by omega, by simpa using hfree⟩
      simp only [writeLeave, if_neg hfree, if_neg hlinks] at hwrite
      cases hwrite
      cases hleave
      exact Or.inr ⟨rfl, ha⟩

theorem popCapture_flush {b : PrinterStack} (h : b.Captures s.printers) :
    s.flush.popCapture = s.popCapture := by
  have hflush : b.Captures s.flush.printers := h.extends (Writes.flush s).printers
  rw [popCapture_of_captures h, popCapture_of_captures hflush]
  simp [flush, PrinterStack.flush, PrinterStack.modify, Printer.flush_flush]

/-- Leaving a container that pushed a printer flushes that printer. -/
theorem leave_captured {b : PrinterStack} (h : b.Captures s.printers) (hc : c.Captures s.nesting)
    (hlinks : c.place = .content → 0 < s.nesting.links) :
    Escapes style s.nesting.around s (.leave c) := by
  have hpop := popCapture_flush h
  cases c
  case tableCell | tableHeadCell =>
    refine ⟨flushes_leave ?_, fun _ => id, fun _ => rfl⟩
    simp only [writeLeave, leaveCell, hpop]
  case link =>
    obtain ⟨hlt, rfl⟩ := hc
    have hpos := hlinks rfl
    have hone : s.nesting.links = 1 := by omega
    have hsame : s.flush.nesting = s.nesting := rfl
    refine ⟨flushes_leave ?_, fun _ => id, fun _ => rfl⟩
    simp [writeLeave, hsame, hone, hpop]
  all_goals exact hc.elim

end Session

end Markwright
