import Markwright.Proofs.Flat
import Markwright.Proofs.Neutral
import Markwright.Proofs.Tokens

/-!
# The page of a flat document

What a session has written of a flat document is followed block by block: the page so far, whether
breaks are dropped, whether a line begins, and the text that waits (`Page`). A block adds the empty
lines before it, unless the page is empty, and its own lines (`shows_flat`); so the page of a
document is made of the lines of its blocks and is read back as these blocks
(`Node.readPage_render`).
-/

namespace Markwright

open Escape (escapeSpan)
open Node (eventsAll)

/-- What a printer without line prefixes has come to. -/
structure Page where
  written : List Char
  suppressed : Bool
  onNewLine : Bool
  pending : Option String

/-- A printer without line prefixes whose page, flags and waiting text are those of `v`. -/
structure Printer.Shows (p : Printer) (v : Page) : Prop where
  linePrefixes : p.linePrefixes = []
  escapeSpaces : p.escapeSpaces = false
  written : p.written.toList = v.written
  suppressed : p.suppressBreaks = v.suppressed
  onNewLine : p.onNewLine = v.onNewLine
  pending : p.pending = v.pending

namespace Printer.Shows

variable {p : Printer} {w : List Char} {suppressed onNewLine : Bool} {s : String}

theorem indentBreaks_nil (cs : List Char) : indentBreaks [] cs = cs := by
  induction cs with
  | nil => rfl
  | cons c cs ih =>
    rw [indentBreaks] at ih ⊢
    rw [List.flatMap_cons, ih]
    split
    · rename_i hc
      rw [hc]
      rfl
    · rfl

theorem write (h : p.Shows ⟨w, suppressed, onNewLine, none⟩) (hne : s.toList ≠ [])
    (hs : suppressed = true → s.toList.head? ≠ some '\n') :
    (p.write s).Shows ⟨w ++ s.toList, false, s.toList.getLast? == some '\n', none⟩ := by
  have hpassed : p.passed s = s.toList :=
    passed_of_head?_ne fun hp => hs (h.suppressed.symm.trans hp)
  rw [write_of_passed_ne (hpassed ▸ hne), hpassed, indentation_of_nil h.linePrefixes,
    indentBreaks_nil]
  refine ⟨h.linePrefixes, h.escapeSpaces, ?_, rfl, rfl, h.pending⟩
  simp [h.written]

theorem flush (h : p.Shows ⟨w, suppressed, onNewLine, some s⟩) (hs : IsLine s)
    (around : Surroundings) :
    (p.flush around).Shows ⟨w ++ escapeSpan ⟨around.inLine, around.inTable, onNewLine, false⟩
      s.toList, false, false, none⟩ := by
  have hcontext : p.context around = ⟨around.inLine, around.inTable, onNewLine, false⟩ := by
    rw [context, h.onNewLine, h.escapeSpaces]
  have hlist : ∀ ctx, (Escape.markdown ctx s).toList = escapeSpan ctx s.toList :=
    fun ctx => Escape.toList_markdown ctx s
  have hbreak := FlatBlock.break_not_mem_escapeSpan hs
    ⟨around.inLine, around.inTable, onNewLine, false⟩
  have hclean : Shows { p with pending := none, flushes := p.flushes + 1 }
      ⟨w, suppressed, onNewLine, none⟩ :=
    ⟨h.linePrefixes, h.escapeSpaces, h.written, h.suppressed, h.onNewLine, rfl⟩
  rw [Printer.flush, h.pending]
  dsimp only
  rw [hcontext]
  have hw := hclean.write (s := Escape.markdown ⟨around.inLine, around.inTable, onNewLine, false⟩ s)
    (by rw [hlist]; exact Escape.escapeSpan_ne_nil _ (FlatBlock.toList_ne_nil hs))
    (fun _ hhead => hbreak (hlist _ ▸ List.mem_of_head? hhead))
  have hlast : (escapeSpan ⟨around.inLine, around.inTable, onNewLine, false⟩ s.toList).getLast? ≠
      some '\n' := fun hlast => hbreak (List.mem_of_getLast? hlast)
  rw [hlist, beq_false_of_ne hlast] at hw
  exact hw

theorem delay (h : p.Shows ⟨w, suppressed, onNewLine, none⟩) (s : String) :
    (p.delay s).Shows ⟨w, suppressed, onNewLine, some s⟩ := by
  refine ⟨h.linePrefixes, h.escapeSpaces, h.written, h.suppressed, h.onNewLine, ?_⟩
  rw [Printer.delay, h.pending]
  simp

end Printer.Shows

namespace Session

variable {style : Style} {s t : Session} {v : Page} {w : List Char} {suppressed onNewLine : Bool}
  {x : String}

/-- Nothing captures, and the root shows the page. -/
structure Shows (s : Session) (v : Page) : Prop where
  captures : s.printers.captures = []
  root : s.printers.root.Shows v

namespace Shows

theorem of_eq (h : s.Shows v) (ht : t.printers = s.printers) : t.Shows v := by
  refine ⟨?_, ?_⟩ <;> rw [ht]
  · exact h.captures
  · exact h.root

theorem modify {f : Printer → Printer} {v' : Page} (h : s.Shows v)
    (hf : (f s.printers.root).Shows v') : (s.modifyPrinter f).Shows v' := by
  have hmodify : (s.modifyPrinter f).printers = ⟨f s.printers.root, []⟩ := by
    simp [modifyPrinter, PrinterStack.modify, PrinterStack.setActive, PrinterStack.active,
      h.captures]
  refine ⟨?_, ?_⟩ <;> rw [hmodify]
  exact hf

theorem print (h : s.Shows ⟨w, suppressed, onNewLine, none⟩) (text : String)
    (hne : text.toList ≠ []) (hs : suppressed = true → text.toList.head? ≠ some '\n') :
    (s.print text).Shows ⟨w ++ text.toList, false, text.toList.getLast? == some '\n', none⟩ := by
  refine h.modify (f := (·.print s.nesting.around text)) ?_
  rw [Printer.print, Printer.flush_of_none _ h.root.pending]
  exact h.root.write hne hs

theorem print_shown (h : s.Shows ⟨w, false, onNewLine, none⟩) (text : String)
    (hne : text.toList ≠ []) :
    (s.print text).Shows ⟨w ++ text.toList, false, text.toList.getLast? == some '\n', none⟩ :=
  h.print text hne fun hs => absurd hs Bool.false_ne_true

theorem flush (h : s.Shows ⟨w, suppressed, onNewLine, some x⟩) (hx : IsLine x) {inLine : Bool}
    (haround : s.nesting.around = ⟨inLine, false⟩) :
    s.flush.Shows ⟨w ++ escapeSpan ⟨inLine, false, onNewLine, false⟩ x.toList, false, false,
      none⟩ := by
  refine h.modify (f := (·.flush s.nesting.around)) ?_
  rw [haround]
  exact h.root.flush hx _

theorem print_of_pending (h : s.Shows ⟨w, suppressed, onNewLine, some x⟩) (hx : IsLine x)
    {inLine : Bool} (haround : s.nesting.around = ⟨inLine, false⟩) (text : String)
    (hne : text.toList ≠ []) :
    (s.print text).Shows ⟨w ++ escapeSpan ⟨inLine, false, onNewLine, false⟩ x.toList ++ text.toList,
      false, text.toList.getLast? == some '\n', none⟩ := by
  have hflush := h.flush hx haround
  have hprint : (s.print text).printers = (s.flush.print text).printers := by
    have hnone := Printer.flush_of_none s.nesting.around hflush.root.pending
    have hroot : s.flush.printers.root = s.printers.root.flush s.nesting.around := by
      simp [Session.flush, PrinterStack.flush, PrinterStack.modify, PrinterStack.setActive,
        PrinterStack.active, h.captures]
    rw [hroot] at hnone
    simp [Session.print, Session.flush, PrinterStack.print, PrinterStack.flush,
      PrinterStack.modify, PrinterStack.setActive, PrinterStack.active, h.captures, Printer.print,
      hnone]
  exact (hflush.print_shown text hne).of_eq hprint

theorem delay (h : s.Shows ⟨w, suppressed, onNewLine, none⟩) (x : String) :
    (s.delay x).Shows ⟨w, suppressed, onNewLine, some x⟩ :=
  h.modify (f := (·.delay x)) (h.root.delay x)

theorem suppressBreaks {pending : Option String} (h : s.Shows ⟨w, suppressed, onNewLine, pending⟩) :
    s.suppressBreaks.Shows ⟨w, true, onNewLine, pending⟩ :=
  h.modify (f := ({ · with suppressBreaks := true }))
    ⟨h.root.linePrefixes, h.root.escapeSpaces, h.root.written, rfl, h.root.onNewLine,
      h.root.pending⟩

end Shows

/-! ## Texts of one line -/

theorem delay_delay (s : Session) (a b : String) : (s.delay a).delay b = s.delay (a ++ b) := by
  simp [delay, modifyPrinter, PrinterStack.modify, Printer.delay, String.append_assoc]

theorem writeLeaf_ofToken (style : Style) {k : Text.Token} (hk : ∀ bs, k ≠ .lineBreak bs)
    (s : Session) :
    writeLeaf style s (.ofToken k) = .ok (s.delay (String.ofList k.chars)) := by
  cases k with
  | lineBreak bs => exact absurd rfl (hk bs)
  | space | word => rfl
  | symbol c => simp [Leaf.ofToken, writeLeaf, Text.Token.chars]

theorem steps_tokens (style : Style) : ∀ (ks : List Text.Token) (s : Session), ks ≠ [] →
    (∀ bs, Text.Token.lineBreak bs ∉ ks) →
    ∃ previous, steps style s (ks.map fun k => .leaf (.ofToken k)) =
      .ok { s.delay (String.ofList (ks.flatMap Text.Token.chars)) with
        nesting := { s.nesting with previous } }
  | [], _, h, _ => absurd rfl h
  | [k], s, _, hk => by
    have hwrite := writeLeaf_ofToken style (k := k) (fun bs hbs => hk bs (by simp [hbs])) s
    refine ⟨Nesting.completes (.ofToken k), ?_⟩
    rw [List.map_singleton, steps_cons (step_leaf hwrite), List.flatMap_singleton]
    rfl
  | k :: l :: rest, s, _, hk => by
    have hwrite := writeLeaf_ofToken style (k := k) (fun bs hbs => hk bs (by simp [hbs])) s
    obtain ⟨previous, hsteps⟩ := steps_tokens style (l :: rest)
      { s.delay (String.ofList k.chars) with
        nesting := { s.nesting with previous := Nesting.completes (.ofToken k) } }
      (List.cons_ne_nil _ _) fun bs hbs => hk bs (List.mem_cons_of_mem _ hbs)
    refine ⟨previous, ?_⟩
    rw [List.map_cons, steps_cons (step_leaf hwrite)]
    have hjoin : s.delay (String.ofList ((k :: l :: rest).flatMap Text.Token.chars)) =
        (s.delay (String.ofList k.chars)).delay
          (String.ofList ((l :: rest).flatMap Text.Token.chars)) := by
      rw [delay_delay, List.flatMap_cons, String.ofList_append]
    rw [hjoin]
    exact hsteps

theorem tokens_ne_nil (hx : IsLine x) : Text.tokens x ≠ [] := by
  intro hnil
  have hchars := Text.Token.flatMap_chars x.toList
  rw [← Text.tokens, hnil] at hchars
  exact FlatBlock.toList_ne_nil hx hchars.symm

/-- A text of one line waits as a whole. -/
theorem steps_textEvents (style : Style) (hx : IsLine x) (s : Session) :
    ∃ previous, steps style s (eventsAll [.text x]) =
      .ok { s.delay x with nesting := { s.nesting with previous } } := by
  have hchars := Text.Token.flatMap_chars x.toList
  obtain ⟨previous, hsteps⟩ := steps_tokens style (Text.tokens x) s (tokens_ne_nil hx)
    fun bs => Text.Token.lineBreak_not_mem hx.2
  refine ⟨previous, ?_⟩
  rw [Text.tokens, hchars, String.ofList_toList] at hsteps
  rw [eventsAll, eventsAll, List.append_nil, Node.events, textEvents]
  exact hsteps

/-! ## Headings, paragraphs and rules -/

theorem shows_line {c : Container} (hwrite : ∀ u : Session, writeLeave style u c = .ok u.flush)
    (hleave : ∀ n : Nesting, ∃ m, n.leave c = .ok m) (hx : IsLine x)
    (hs : (s.entered style c).Shows ⟨w, suppressed, onNewLine, none⟩)
    (haround : (s.entered style c).nesting.around = ⟨true, false⟩) :
    ∃ t, steps style s (Event.around c (eventsAll [.text x])) = .ok t ∧
      t.Shows ⟨w ++ escapeSpan ⟨true, false, onNewLine, false⟩ x.toList, false, false, none⟩ := by
  obtain ⟨previous, hinner⟩ := steps_textEvents style hx (s.entered style c)
  obtain ⟨m, hm⟩ := hleave (Session.flush { (s.entered style c).delay x with
    nesting := { (s.entered style c).nesting with previous } }).nesting
  refine ⟨_, steps_around hinner (step_leave (hwrite _) hm), ?_⟩
  have hwaits : Shows { (s.entered style c).delay x with
      nesting := { (s.entered style c).nesting with previous } }
      ⟨w, suppressed, onNewLine, some x⟩ := (hs.delay x).of_eq rfl
  exact (hwaits.flush hx haround).of_eq rfl

/-- The page between two blocks. -/
def between (w : List Char) : Page := ⟨w, w.isEmpty, w.isEmpty, none⟩

/-- The breaks before a block, which an empty page drops. -/
def lead (w : List Char) (b : FlatBlock) : List Char :=
  if w.isEmpty then [] else List.replicate (b.gap + 1) '\n'

/-- The page with one more block. -/
def extend (o : Options) (w : List Char) (b : FlatBlock) : List Char :=
  w ++ lead w b ++ List.intercalate ['\n'] (b.lines o)

theorem shows_between {w : List Char} (h : s.Shows ⟨w, false, false, none⟩) (hw : w ≠ []) :
    s.Shows (between w) := by
  rw [between, List.isEmpty_eq_false_iff.2 hw]
  exact h

theorem shows_lead (b : FlatBlock) (h : s.Shows (between w)) (text : String)
    (ht : text.toList = List.replicate (b.gap + 1) '\n') :
    (s.print text).Shows ⟨w ++ lead w b, w.isEmpty, true, none⟩ := by
  rcases w with _ | ⟨c, w⟩
  · refine h.modify (f := (·.print s.nesting.around text)) ?_
    have hroot : s.printers.root.Shows ⟨[], true, true, none⟩ := h.root
    have hbreaks : ∀ c ∈ text.toList, c = '\n' := fun c hc =>
      (List.mem_replicate.1 (ht ▸ hc)).2
    rw [Printer.print_of_suppressed _ hroot.suppressed hroot.pending hbreaks]
    exact hroot
  · have hshow : s.Shows ⟨c :: w, false, false, none⟩ := h
    have hprint := hshow.print_shown text (by rw [ht]; exact List.cons_ne_nil _ _)
    have hlast : (text.toList.getLast? == some '\n') = true := by
      rw [ht, List.getLast?_replicate, if_neg (Nat.succ_ne_zero _)]
      rfl
    rw [hlast, ht] at hprint
    exact hprint

theorem around_inLine (hn : s.Neutral) : (s.nesting.inLine = 0 ∧ s.nesting.tables = 0) ∧
    Nesting.around { s.nesting with inLine := s.nesting.inLine + 1 } = ⟨true, false⟩ := by
  have hi : s.nesting.inLine = 0 := hn.counters .inLine
  have ht : s.nesting.tables = 0 := hn.counters .tables
  refine ⟨⟨hi, ht⟩, ?_⟩
  simp [Nesting.around, Nesting.isInLine, hi, ht]

theorem shows_enter_header {level : HeadingLevel} {id : Value} {p : Option Parameters}
    (hs : s.Shows (between w)) :
    (s.entered style (.header level.val id p)).Shows
      ⟨w ++ lead w (.heading level x) ++ (List.replicate level.val '#' ++ [' ']), false, false,
        none⟩ := by
  have hmarks : (Text.times (level.val : Int).toNat "#" ++ " ").toList =
      List.replicate level.val '#' ++ [' '] := by
    rw [String.toList_append, Int.toNat_natCast, Text.toList_times '#' rfl]
    rfl
  have hnest : Shows { s with nesting := s.nesting.enter (.header level.val id p) } (between w) :=
    hs.of_eq rfl
  have hprint : ∀ {text : String},
      text.toList = List.replicate ((FlatBlock.heading level x).gap + 1) '\n' →
      Shows ((Session.print
        { s with nesting := s.nesting.enter (.header level.val id p) } text).print
        (Text.times (level.val : Int).toNat "#" ++ " "))
        ⟨w ++ lead w (.heading level x) ++ (List.replicate level.val '#' ++ [' ']), false, false,
          none⟩ := by
    intro text ht
    have hlead := shows_lead (.heading level x) hnest _ ht
    have hhead : (List.replicate level.val '#' ++ [' ']).head? ≠ some '\n' := by
      obtain ⟨n, hl⟩ : ∃ n, level.val = n + 1 := ⟨level.val - 1, by have := level.pos; omega⟩
      simp [hl, List.replicate_succ]
    have hboth := hlead.print (Text.times (level.val : Int).toNat "#" ++ " ")
      (by rw [hmarks]; simp) (fun _ => by rw [hmarks]; exact hhead)
    rw [hmarks] at hboth
    simpa using hboth
  simp only [entered, writeEnter]
  split
  · rename_i hlt
    exact hprint (by simp [FlatBlock.gap, show level.val < 4 by omega])
  · rename_i hle
    exact hprint (by simp [FlatBlock.gap, show ¬ level.val < 4 by omega])

theorem shows_heading {level : HeadingLevel} {id : Value} {p : Parameters}
    (hs : s.Shows (between w)) (hn : s.Neutral) (hx : IsLine x) :
    ∃ t, steps style s (Node.heading level [.text x] id p).events = .ok t ∧
      t.Shows ⟨extend style.options w (.heading level x), false, false, none⟩ := by
  have haround : (s.entered style (.header level.val id p)).nesting.around = ⟨true, false⟩ := by
    rw [(entered_spec style s _).1]
    exact (around_inLine hn).2
  obtain ⟨t, hsteps, ht⟩ := shows_line (fun _ => rfl) (fun _ => ⟨_, rfl⟩) hx
    (shows_enter_header (x := x) hs) haround
  refine ⟨t, hsteps, ?_⟩
  simpa [extend, FlatBlock.lines, List.intercalate_singleton] using ht

theorem shows_paragraph {p : Parameters} (hs : s.Shows (between w)) (hn : s.Neutral)
    (hx : IsLine x) :
    ∃ t, steps style s (Node.paragraph [.text x] p).events = .ok t ∧
      t.Shows ⟨extend style.options w (.paragraph x), false, false, none⟩ := by
  have hnest : Shows { s with nesting := s.nesting.enter (.paragraph p) } (between w) :=
    hs.of_eq rfl
  have hlead := shows_lead (.paragraph x) hnest "\n\n" rfl
  have hin : (s.entered style (.paragraph p)).Shows
      ⟨w ++ lead w (.paragraph x), w.isEmpty, true, none⟩ := hlead.of_eq rfl
  have haround : (s.entered style (.paragraph p)).nesting.around = ⟨true, false⟩ := by
    rw [(entered_spec style s _).1]
    exact (around_inLine hn).2
  obtain ⟨t, hsteps, ht⟩ := shows_line (fun _ => rfl) (fun _ => ⟨_, rfl⟩) hx hin haround
  refine ⟨t, hsteps, ?_⟩
  simpa [extend, FlatBlock.lines, List.intercalate_singleton] using ht

theorem shows_rule {p : Parameters} (hs : s.Shows (between w)) :
    ∃ t, steps style s (Node.horizontalRule p).events = .ok t ∧
      t.Shows ⟨extend style.options w .rule, false, false, none⟩ := by
  have hlead : s.emptyLine.Shows ⟨w ++ lead w .rule, w.isEmpty, true, none⟩ :=
    shows_lead _ hs "\n\n" rfl
  have hrule := hlead.print "---" (by decide) (fun _ => by decide)
  have hwrite : writeLeaf style s (.horizontalLine p) = .ok (s.emptyLine.print "---") := rfl
  refine ⟨_, steps_singleton (step_leaf hwrite), ?_⟩
  refine Shows.of_eq (s := s.emptyLine.print "---") ?_ rfl
  have hlast : ("---".toList.getLast? == some '\n') = false := by decide
  rw [hlast] at hrule
  simpa [extend, FlatBlock.lines, List.intercalate_singleton] using hrule

/-! ## Lists -/

/-- Between the items of a list that no other is open in. -/
structure AtItem (kind : ListKind) (i : Int) (s : Session) : Prop where
  lists : s.nesting.lists = [⟨kind, i⟩]
  inLine : s.nesting.inLine = 0
  tables : s.nesting.tables = 0
  afterParagraph : s.afterParagraph = false

/-- The session in an item once its marker is written. -/
def marked (style : Style) (s : Session) (p : Option Parameters) : Session :=
  let inside := { s with nesting := s.nesting.enter (.listItem p) }.separateItem
  inside.print (Text.padRight style.options.listIndentWidth inside.itemMarker)

variable {kind : ListKind} {i : Int} {p : Option Parameters} {q : Parameters}

/-- The prefix of an item comes and goes while its text waits. -/
theorem popPrefix_item {u : Session} (text : String)
    (h : s.printers = ((u.pushPrefix text).suppressBreaks.delay x).printers) :
    s.popPrefix = .ok { s with printers := (u.suppressBreaks.delay x).printers } := by
  rw [popPrefix, h]
  simp [pushPrefix, suppressBreaks, delay, modifyPrinter, PrinterStack.modify,
    Printer.popPrefix?, Printer.pushPrefix, Printer.delay]

theorem shows_item (hs : AtItem kind i s) (hx : IsLine x)
    (hmarked : (marked style s q).Shows ⟨w, false, false, none⟩) :
    ∃ t, steps style s (Node.listItem [.text x] q).events = .ok t ∧ AtItem kind (i + 1) t ∧
      t.Shows ⟨w, true, false, some x⟩ := by
  obtain ⟨previous, hinner⟩ := steps_textEvents style hx (s.entered style (.listItem q))
  have hnest := (entered_spec style s (.listItem q)).1
  have hpop := popPrefix_item (indentation style) (u := marked style s q) (x := x)
    (s := { (s.entered style (.listItem q)).delay x with
      nesting := { (s.entered style (.listItem q)).nesting with previous } }) rfl
  refine ⟨_, steps_around hinner (step_leave hpop rfl), ?_, ?_⟩
  · rw [hnest]
    constructor
    · simp [Nesting.enter, Nesting.leaveInLine, Nesting.nextItem, hs.lists]
    · simp [Nesting.enter, Nesting.leaveInLine, hs.inLine]
    · simp [Nesting.enter, Nesting.leaveInLine, hs.tables]
    · rfl
  · exact (hmarked.suppressBreaks.delay x).of_eq rfl

theorem toList_itemMarker (style : Style) {inside : Session}
    (h : inside.nesting.lists = [⟨kind, i⟩]) :
    (Text.padRight style.options.listIndentWidth inside.itemMarker).toList =
      FlatBlock.marker style.options kind := by
  rw [itemMarker, h]
  cases kind <;> rfl

theorem shows_print_marker {inside : Session} (h : inside.nesting.lists = [⟨kind, i⟩])
    (hs : inside.Shows ⟨w, suppressed, onNewLine, none⟩) :
    (inside.print (Text.padRight style.options.listIndentWidth inside.itemMarker)).Shows
      ⟨w ++ FlatBlock.marker style.options kind, false, false, none⟩ := by
  have hlist := toList_itemMarker style h
  have hbreak := FlatBlock.break_not_mem_marker style.options kind
  have hne : FlatBlock.marker style.options kind ≠ [] := by
    cases kind with
    | bulleted =>
      obtain ⟨pad, hpad⟩ := FlatBlock.marker_bulleted style.options
      rw [hpad]
      exact List.cons_ne_nil _ _
    | numbered =>
      obtain ⟨pad, hpad⟩ := FlatBlock.marker_numbered style.options
      rw [hpad]
      exact List.cons_ne_nil _ _
  have hprint := hs.print (Text.padRight style.options.listIndentWidth inside.itemMarker)
    (by rw [hlist]; exact hne)
    (fun _ hhead => hbreak (List.mem_of_head? (hlist ▸ hhead)))
  have hlast : (FlatBlock.marker style.options kind).getLast? ≠ some '\n' :=
    fun hlast => hbreak (List.mem_of_getLast? hlast)
  rw [hlist, beq_false_of_ne hlast] at hprint
  exact hprint

theorem shows_marked_first (style : Style) (hs : AtItem kind (-1) s)
    (hshow : s.Shows ⟨w, suppressed, onNewLine, none⟩) :
    (marked style s p).Shows ⟨w ++ FlatBlock.marker style.options kind, false, false, none⟩ := by
  have hlists : (s.nesting.enter (.listItem p)).lists = [⟨kind, 0⟩] := by
    simp [Nesting.enter, Nesting.nextItem, hs.lists]
  have hsep : separateItem { s with nesting := s.nesting.enter (.listItem p) } =
      { s with nesting := s.nesting.enter (.listItem p) } := by
    rw [separateItem, if_neg]
    simp [Nesting.itemIndex, hlists]
  rw [marked, hsep]
  exact shows_print_marker hlists (hshow.of_eq rfl)

/-- An item after the first one ends the line of the item before it. -/
theorem shows_marked_next (style : Style) (hs : AtItem kind i s) (hi : 0 ≤ i) (hx : IsLine x)
    (hshow : s.Shows ⟨w, true, false, some x⟩) :
    (marked style s p).Shows ⟨w ++ escapeSpan ⟨true, false, false, false⟩ x.toList ++ ['\n'] ++
      FlatBlock.marker style.options kind, false, false, none⟩ := by
  have hlists : (s.nesting.enter (.listItem p)).lists = [⟨kind, i + 1⟩] := by
    simp [Nesting.enter, Nesting.nextItem, hs.lists]
  have hsep : separateItem { s with nesting := s.nesting.enter (.listItem p) } =
      breakLine { s with nesting := s.nesting.enter (.listItem p) } := by
    have hafter : (breakLine { s with nesting := s.nesting.enter (.listItem p) }).afterParagraph =
        false := hs.afterParagraph
    rw [separateItem, if_pos]
    · dsimp only
      rw [hafter]
      rfl
    · simp only [Nesting.itemIndex, hlists, List.head?_cons, Option.map_some, Option.getD_some]
      omega
  have haround : (s.nesting.enter (.listItem p)).around = ⟨true, false⟩ := by
    simp [Nesting.around, Nesting.isInLine, Nesting.enter, hs.inLine, hs.tables]
  rw [marked, hsep]
  have hnest : Shows { s with nesting := s.nesting.enter (.listItem p) }
      ⟨w, true, false, some x⟩ := hshow.of_eq rfl
  have hbreak := hnest.print_of_pending hx haround "\n" (by decide)
  exact shows_print_marker hlists hbreak

theorem exists_of_item? : ∀ {n : Node} {x : String}, n.item? = some x →
    ∃ q, n = .listItem [.text x] q
  | .listItem [.text _] q, _, h => by
    cases h
    exact ⟨q, rfl⟩

/-- The items after one whose text waits, and the end of the list. -/
theorem shows_items : ∀ (items : List Node) {texts : List String} {s : Session} {w : List Char}
    {i : Int} {x : String}, items.mapM Node.item? = some texts → (∀ y ∈ x :: texts, IsLine y) →
    AtItem kind i s → 0 ≤ i →
    s.Shows ⟨w ++ FlatBlock.marker style.options kind, true, false, some x⟩ →
    ∃ t, steps style s (eventsAll items ++ [.leave (.list kind p)]) = .ok t ∧
      t.Shows ⟨w ++ List.intercalate ['\n'] (FlatBlock.itemLines style.options kind (x :: texts)),
        false, false, none⟩
  | [], texts, s, w, i, x, hitems, hlines, hs, _, hshow => by
    cases hitems
    have haround : s.nesting.around = ⟨false, false⟩ := by
      simp [Nesting.around, Nesting.isInLine, hs.inLine, hs.tables]
    have hleave : ∃ m, s.flush.nesting.leave (.list kind p) = .ok m := by
      have hlists : s.flush.nesting.lists = [⟨kind, i⟩] := hs.lists
      simp [Nesting.leave, hlists]
    obtain ⟨m, hm⟩ := hleave
    refine ⟨_, steps_singleton (step_leave (t := s.flush) rfl hm), ?_⟩
    have hflush :=
      (hshow.flush (hlines x (by simp)) haround).of_eq (t := { s.flush with nesting := m })
      rfl
    simpa [FlatBlock.itemLines, List.intercalate_singleton] using hflush
  | n :: items, texts, s, w, i, x, hitems, hlines, hs, hi, hshow => by
    obtain ⟨y, ys, hy, hys, rfl⟩ := mapM_cons_eq_some hitems
    obtain ⟨q, rfl⟩ := exists_of_item? hy
    have hmarked := shows_marked_next style (p := some q) hs hi (hlines x (by simp)) hshow
    obtain ⟨t, ht, hat, htshow⟩ := shows_item hs (hlines y (by simp)) hmarked
    obtain ⟨u, hu, hushow⟩ := shows_items items hys (fun z hz => hlines z (by simp [hz])) hat
      (by omega) htshow
    refine ⟨u, ?_, ?_⟩
    · rw [eventsAll, List.append_assoc, steps_append ht, hu]
    · obtain ⟨text, more, hcons⟩ :=
        FlatBlock.exists_itemLines_eq_cons style.options kind (List.cons_ne_nil y ys)
      rw [FlatBlock.itemLines, List.intercalate_cons_of_ne_nil (by rw [hcons]; simp)]
      simpa using hushow

theorem shows_list {items : List Node} {texts : List String} (hs : s.Shows (between w))
    (hn : s.Neutral) (hitems : items.mapM Node.item? = some texts) (hne : texts ≠ [])
    (hlines : ∀ x ∈ texts, IsLine x) :
    ∃ t, steps style s (Node.list kind items q).events = .ok t ∧
      t.Shows ⟨extend style.options w (.list kind texts), false, false, none⟩ := by
  rcases items with _ | ⟨n, items⟩
  · cases hitems
    exact absurd rfl hne
  obtain ⟨x, xs, hx, hxs, rfl⟩ := mapM_cons_eq_some hitems
  obtain ⟨r, rfl⟩ := exists_of_item? hx
  have hlists : (s.nesting.enter (.list kind q)).lists = [⟨kind, -1⟩] := by
    simp [Nesting.enter, hn.lists]
  have hentered : s.entered style (.list kind q) =
      { emptyLine { s with nesting := s.nesting.enter (.list kind q) } with
        afterParagraph := false } := by
    simp [entered, writeEnter, hlists]
  have hat : AtItem kind (-1) (s.entered style (.list kind q)) := by
    rw [hentered]
    exact ⟨hlists, hn.counters .inLine, hn.counters .tables, rfl⟩
  have hnest : Shows { s with nesting := s.nesting.enter (.list kind q) } (between w) :=
    hs.of_eq rfl
  have hlead := shows_lead (.list kind (x :: xs)) hnest "\n\n" rfl
  have hin : (s.entered style (.list kind q)).Shows
      ⟨w ++ lead w (.list kind (x :: xs)), w.isEmpty, true, none⟩ := by
    rw [hentered]
    exact hlead.of_eq rfl
  obtain ⟨t, ht, hat', htshow⟩ := shows_item hat (hlines x (by simp))
    (shows_marked_first style (p := some r) hat hin)
  obtain ⟨u, hu, hushow⟩ := shows_items (p := some q) items hxs hlines hat' (by omega) htshow
  refine ⟨u, ?_, hushow⟩
  rw [Node.events, Event.around, List.cons_append, steps_cons (step_enter style s _), eventsAll,
    List.append_assoc, steps_append ht, hu]

/-! ## Documents -/

/-- A flat block adds its lines to the page. -/
theorem shows_flat {n : Node} {b : FlatBlock} (hn : n.flat? = some b) (hb : b.Valid)
    (hs : s.Shows (between w)) (hneutral : s.Neutral) :
    ∃ t, steps style s n.events = .ok t ∧
      t.Shows ⟨extend style.options w b, false, false, none⟩ := by
  unfold Node.flat? at hn
  split at hn
  · cases hn
    exact shows_heading hs hneutral hb
  · cases hn
    exact shows_paragraph hs hneutral hb
  · cases hn
    exact shows_rule hs
  · obtain ⟨texts, htexts, rfl⟩ := Option.map_eq_some_iff.1 hn
    exact shows_list hs hneutral htexts hb.1 hb.2
  · cases hn

end Session

namespace FlatBlock

variable {o : Options} {w : List Char}

theorem intercalate_append {a b : List (List Char)} (ha : a ≠ []) (hb : b ≠ []) :
    List.intercalate ['\n'] (a ++ b) =
      List.intercalate ['\n'] a ++ '\n' :: List.intercalate ['\n'] b := by
  induction a with
  | nil => exact absurd rfl ha
  | cons l a ih =>
    rcases a with _ | ⟨m, a⟩
    · rw [List.singleton_append, List.intercalate_cons_of_ne_nil hb, List.intercalate_singleton]
      simp
    · have hcons : ∀ c : List (List Char), List.intercalate ['\n'] (l :: m :: c) =
          l ++ ['\n'] ++ List.intercalate ['\n'] (m :: c) :=
        fun c => List.intercalate_cons_of_ne_nil (List.cons_ne_nil _ _)
      rw [List.cons_append, List.cons_append, hcons, hcons, ← List.cons_append,
        ih (List.cons_ne_nil _ _)]
      simp only [List.append_assoc]

theorem intercalate_replicate_append (n : Nat) {b : List (List Char)} (hb : b ≠ []) :
    List.intercalate ['\n'] (List.replicate n [] ++ b) =
      List.replicate n '\n' ++ List.intercalate ['\n'] b := by
  induction n with
  | zero => rfl
  | succ n ih =>
    rw [List.replicate_succ, List.cons_append,
      List.intercalate_cons_of_ne_nil (List.append_ne_nil_of_right_ne_nil _ hb), ih]
    rfl

theorem intercalate_ne_nil {l : List Char} (hl : l ≠ []) (rest : List (List Char)) :
    List.intercalate ['\n'] (l :: rest) ≠ [] := by
  rcases rest with _ | ⟨m, rest⟩
  · rw [List.intercalate_singleton]
    exact hl
  · rw [List.intercalate_cons_of_ne_nil (List.cons_ne_nil _ _)]
    simp [hl]

theorem intercalate_lines_ne_nil {b : FlatBlock} (hb : b.Valid) :
    List.intercalate ['\n'] (b.lines o) ≠ [] := by
  obtain ⟨hne, hlines⟩ := lines_spec (o := o) hb
  obtain ⟨l, rest, hcons⟩ := List.exists_cons_of_ne_nil hne
  rw [hcons]
  exact intercalate_ne_nil (hlines l (by simp [hcons])).1 rest

theorem foldl_extend : ∀ {blocks : List FlatBlock} {page : List (List Char)},
    (∀ b ∈ blocks, b.Valid) → List.intercalate ['\n'] page ≠ [] →
    blocks.foldl (Session.extend o) (List.intercalate ['\n'] page) =
      List.intercalate ['\n'] (page ++ addedLines o blocks)
  | [], page, _, _ => by simp [addedLines]
  | b :: blocks, page, hvalid, hpage => by
    have hpne : page ≠ [] := by
      rintro rfl
      exact hpage rfl
    have hlines := (lines_spec (o := o) (hvalid b (by simp))).1
    have hextend : Session.extend o (List.intercalate ['\n'] page) b =
        List.intercalate ['\n'] (page ++ (List.replicate b.gap [] ++ b.lines o)) := by
      rw [Session.extend, Session.lead, List.isEmpty_eq_false_iff.2 hpage,
        if_neg Bool.false_ne_true,
        intercalate_append hpne (List.append_ne_nil_of_right_ne_nil _ hlines),
        intercalate_replicate_append b.gap hlines, List.replicate_succ]
      simp
    have hne : List.intercalate ['\n'] (page ++ (List.replicate b.gap [] ++ b.lines o)) ≠ [] := by
      rw [← hextend, Session.extend]
      simp [hpage]
    rw [List.foldl_cons, hextend, foldl_extend (fun c hc => hvalid c (by simp [hc])) hne,
      List.append_assoc, addedLines, addedLines, List.flatMap_cons]

theorem foldl_extend_nil {blocks : List FlatBlock} (hvalid : ∀ b ∈ blocks, b.Valid) :
    blocks.foldl (Session.extend o) [] = List.intercalate ['\n'] (pageLines o blocks) := by
  rcases blocks with _ | ⟨b, rest⟩
  · rfl
  · have hfirst : Session.extend o [] b = List.intercalate ['\n'] (b.lines o) := rfl
    rw [List.foldl_cons, hfirst, foldl_extend (fun c hc => hvalid c (by simp [hc]))
      (intercalate_lines_ne_nil (hvalid b (by simp))), pageLines]

theorem getLast?_intercalate : ∀ {page : List (List Char)}, (∀ l ∈ page, l ≠ [] ∧ '\n' ∉ l) →
    (List.intercalate ['\n'] page).getLast? ≠ some '\n'
  | [], _ => nofun
  | [l], h => by
    rw [List.intercalate_singleton]
    exact fun hlast => (h l (by simp)).2 (List.mem_of_getLast? hlast)
  | l :: m :: page, h => by
    have ih := getLast?_intercalate fun k hk => h k (List.mem_cons_of_mem l hk)
    have hne := intercalate_ne_nil (h m (by simp)).1 page
    obtain ⟨c, hc⟩ := Option.isSome_iff_exists.1 (List.getLast?_isSome.2 hne)
    rw [List.intercalate_cons_of_ne_nil (List.cons_ne_nil _ _), List.getLast?_append, hc]
    rw [hc] at ih
    exact ih

theorem getLast?_foldl_extend {blocks : List FlatBlock} (hvalid : ∀ b ∈ blocks, b.Valid) :
    (blocks.foldl (Session.extend o) []).getLast? ≠ some '\n' := by
  rcases List.eq_nil_or_concat blocks with rfl | ⟨front, b, rfl⟩
  · nofun
  · have hb := hvalid b (by simp)
    have hlast := getLast?_intercalate (lines_spec (o := o) hb).2
    obtain ⟨c, hc⟩ := Option.isSome_iff_exists.1
      (List.getLast?_isSome.2 (intercalate_lines_ne_nil (o := o) hb))
    rw [List.concat_eq_append, List.foldl_append, List.foldl_cons, List.foldl_nil, Session.extend,
      List.getLast?_append, hc]
    rw [hc] at hlast
    exact hlast

end FlatBlock

theorem stripFinalBreaks_eq_self {s : String} (h : s.toList.getLast? ≠ some '\n') :
    Text.stripFinalBreaks s = s := by
  have hdrop : s.toList.reverse.dropWhile (· == '\n') = s.toList.reverse := by
    rw [← List.head?_reverse] at h
    rcases hcs : s.toList.reverse with _ | ⟨c, cs⟩
    · rfl
    · rw [hcs, List.head?_cons] at h
      refine List.dropWhile_cons_of_neg ?_
      rw [beq_iff_eq]
      rintro rfl
      exact h rfl
  rw [Text.stripFinalBreaks, hdrop, List.reverse_reverse, String.ofList_toList]

theorem Options.finish_eq_self (o : Options) {s : String} (h : s.toList.getLast? ≠ some '\n') :
    o.finish s = s := by
  unfold Options.finish
  split
  · exact stripFinalBreaks_eq_self h
  · rfl

theorem Options.isPrefix_finish (o : Options) {s : String} {cs : List Char}
    (h : cs <+: s.toList) (hlast : cs.getLast? ≠ some '\n') : cs <+: (o.finish s).toList := by
  obtain ⟨more, hmore⟩ := h
  have hs : s = String.ofList cs ++ String.ofList more := by
    rw [← String.toList_inj, ← hmore, String.toList_append, String.toList_ofList,
      String.toList_ofList]
  have hfront := finish_prefix o (String.ofList cs) (String.ofList more)
  rwa [o.finish_eq_self (by rwa [String.toList_ofList]), String.toList_ofList, ← hs] at hfront

namespace Node

variable {style : Style} {n : Node} {b : FlatBlock} {blocks : List Node} {views : List FlatBlock}

theorem regular_text (style : Style) (x : String) : (text x).Regular style :=
  Regular.regular_iff.2 ⟨⟨fun _ hk => absurd hk List.not_mem_nil, trivial, trivial, nofun⟩,
    fun _ hk => absurd hk List.not_mem_nil⟩

theorem regular_of_children_text {x : String} (hkids : n.children = [text x])
    (hroom : n.room = .content) (hspan : n.SpanValid) (hlabel : n.Labelled style)
    (hcell : n.CellsPlain) : n.Regular style := by
  refine Regular.regular_iff.2 ⟨⟨fun k hk => ?_, hspan, hlabel, hcell⟩, fun k hk => ?_⟩
  · rw [hkids] at hk
    obtain rfl := List.mem_singleton.1 hk
    exact hroom.symm
  · rw [hkids] at hk
    obtain rfl := List.mem_singleton.1 hk
    exact regular_text style x

theorem exists_of_mapM_item? : ∀ {items : List Node} {texts : List String},
    items.mapM item? = some texts → ∀ k ∈ items, ∃ x q, k = listItem [text x] q
  | [], _, _, _, hk => absurd hk List.not_mem_nil
  | n :: items, _, h, k, hk => by
    obtain ⟨x, xs, hx, hxs, -⟩ := mapM_cons_eq_some h
    rcases List.mem_cons.1 hk with rfl | hk
    · exact ⟨x, Session.exists_of_item? hx⟩
    · exact exists_of_mapM_item? hxs k hk

theorem regular_of_flat (style : Style) (h : n.flat? = some b) :
    n.IsBlock ∧ n.Regular style ∧ n.place = .content := by
  unfold flat? at h
  split at h
  · exact ⟨trivial, regular_of_children_text rfl rfl trivial trivial nofun, rfl⟩
  · exact ⟨trivial, regular_of_children_text rfl rfl trivial trivial nofun, rfl⟩
  · refine ⟨trivial, Regular.regular_iff.2 ⟨⟨?_, trivial, trivial, nofun⟩, ?_⟩, rfl⟩
    · exact fun _ hk => absurd hk List.not_mem_nil
    · exact fun _ hk => absurd hk List.not_mem_nil
  · obtain ⟨texts, htexts, -⟩ := Option.map_eq_some_iff.1 h
    refine ⟨trivial, Regular.regular_iff.2 ⟨⟨?_, trivial, trivial, nofun⟩, ?_⟩, rfl⟩
    · intro k hk
      obtain ⟨x, q, rfl⟩ := exists_of_mapM_item? htexts k hk
      rfl
    · intro k hk
      obtain ⟨x, q, rfl⟩ := exists_of_mapM_item? htexts k hk
      exact regular_of_children_text rfl rfl trivial trivial nofun
  · cases h

end Node

theorem Session.shows_blocks (style : Style) : ∀ {blocks : List Node} {views : List FlatBlock}
    {s : Session} {w : List Char}, blocks.mapM Node.flat? = some views →
    (∀ b ∈ views, b.Valid) → s.Shows (between w) → s.Neutral → s.table = s.table.clear →
    ∃ t, steps style s (eventsAll blocks) = .ok t ∧ t.Neutral ∧
      t.Shows (between (views.foldl (extend style.options) w))
  | [], _, s, _, hviews, _, hs, hn, _ => by
    cases hviews
    exact ⟨s, rfl, hn, hs⟩
  | n :: blocks, _, s, w, hviews, hvalid, hs, hn, hclear => by
    obtain ⟨b, bs, hb, hbs, rfl⟩ := mapM_cons_eq_some hviews
    have hbv := hvalid b (by simp)
    obtain ⟨hblock, hregular⟩ := Node.regular_of_flat style hb
    obtain ⟨t, ht, htshow⟩ := shows_flat hb hbv hs hn
    obtain ⟨t', ht', htn, hkeeps⟩ : ∃ t', steps style s (eventsAll [n]) = .ok t' ∧ t'.Neutral ∧
        s.Keeps .content t' :=
      exists_steps_blocks (by simpa using hblock) (by simpa using hregular) hn hclear
    have htt : t' = t := by
      rw [eventsAll, eventsAll, List.append_nil, ht] at ht'
      exact (Except.ok.inj ht').symm
    subst htt
    have hne : extend style.options w b ≠ [] := by
      rw [extend]
      simp [FlatBlock.intercalate_lines_ne_nil hbv]
    have hclear' : t'.table = t'.table.clear := by
      rw [hkeeps.table.eq_of_content]
      exact hclear
    obtain ⟨u, hu, hun, hushow⟩ := shows_blocks style hbs (fun c hc => hvalid c (by simp [hc]))
      (shows_between htshow hne) htn hclear'
    refine ⟨u, ?_, hun, hushow⟩
    rw [eventsAll, steps_append ht, hu]

namespace Node

variable {style : Style} {blocks : List Node} {views : List FlatBlock}

/-- The page of a flat document is made of the lines of its blocks. -/
theorem render_flat (style : Style) (h : IsFlat blocks views) (p : Parameters) :
    ∃ page, (document blocks p).render style = .ok page ∧
      page.toList = List.intercalate ['\n'] (FlatBlock.pageLines style.options views) := by
  have hstart : (Session.start style).Shows (Session.between []) :=
    ⟨rfl, rfl, rfl, rfl, rfl, rfl, rfl⟩
  obtain ⟨t, ht, hn, hshow⟩ := Session.shows_blocks style h.flat h.valid hstart
    (Session.neutral_start style) rfl
  obtain ⟨u, hu, hwritten⟩ := Session.exists_step_leave_document hn (some p)
  have hpage : u.written.toList = views.foldl (Session.extend style.options) [] := by
    rw [hwritten]
    exact hshow.root.written
  have hlast : u.written.toList.getLast? ≠ some '\n' := by
    rw [hpage]
    exact FlatBlock.getLast?_foldl_extend h.valid
  have hsession : (document blocks p).session style = .ok u := Session.steps_around ht hu
  refine ⟨u.written, ?_, ?_⟩
  · rw [render_of_session hsession, Options.finish_eq_self _ hlast]
  · rw [hpage, FlatBlock.foldl_extend_nil h.valid]

/-- A flat document is read from its page, and no other has the same page. -/
theorem readPage_render (style : Style) (p : Parameters) (h : IsFlat blocks views) :
    (∃ page, (document blocks p).render style = .ok page ∧
      FlatBlock.readPage style.options page = some views) ∧
      ∀ (others : List Node) (otherViews : List FlatBlock) (q : Parameters),
        IsFlat others otherViews → otherViews ≠ views →
          (document others q).render style ≠ (document blocks p).render style := by
  obtain ⟨page, hrender, hpage⟩ := render_flat style h p
  have hread := FlatBlock.readPage_pageLines h.valid hpage
  refine ⟨⟨page, hrender, hread⟩, fun others otherViews q hother hne heq => hne ?_⟩
  obtain ⟨page', hrender', hpage'⟩ := render_flat style hother q
  have hread' := FlatBlock.readPage_pageLines hother.valid hpage'
  rw [hrender, hrender', Except.ok.injEq] at heq
  rw [heq, hread, Option.some.injEq] at hread'
  exact hread'.symm

end Node

/-- A paragraph that reads like a heading, and items that read like a rule and a paragraph. -/
def hashParagraph : List Node := [
  .paragraph [.text "# a"] .empty,
  .list .numbered [.listItem [.text "---"] .empty, .listItem [.text "b"] .empty] .empty]

/-- A heading with an id, and numbered items of which one looks like a line across the page. -/
def hashHeading : List Node := [
  .heading ⟨1, by decide, by decide⟩ [.text "a"] (.text "id") .empty,
  .list .numbered [.listItem [.text "---"] .empty, .listItem [.text "b"] .empty] .empty]

theorem isFlat_hashParagraph :
    Node.IsFlat hashParagraph [.paragraph "# a", .list .numbered ["---", "b"]] := by
  refine ⟨rfl, ?_⟩
  simp [FlatBlock.Valid, IsLine]

theorem isFlat_hashHeading : Node.IsFlat hashHeading
    [.heading ⟨1, by decide, by decide⟩ "a", .list .numbered ["---", "b"]] := by
  refine ⟨rfl, ?_⟩
  simp [FlatBlock.Valid, IsLine]

theorem Node.readPage_render_hashParagraph :
    Node.IsFlat hashParagraph [.paragraph "# a", .list .numbered ["---", "b"]] ∧
      (∃ page, (document hashParagraph .empty).render (.standard {}) = .ok page ∧
        FlatBlock.readPage {} page = some [.paragraph "# a", .list .numbered ["---", "b"]]) ∧
      (document hashHeading .empty).render (.standard {}) ≠
        (document hashParagraph .empty).render (.standard {}) := by
  obtain ⟨hread, hother⟩ := readPage_render (.standard {}) .empty isFlat_hashParagraph
  exact ⟨isFlat_hashParagraph, hread, hother _ _ .empty isFlat_hashHeading (by decide)⟩

end Markwright
