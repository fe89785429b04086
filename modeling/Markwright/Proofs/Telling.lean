import Markwright.Proofs.Letters
import Markwright.Proofs.Neutral

/-!
# Where the letters of a document are

While a document is told its letters are in three places: on the root printer, written or waiting;
in the rows of the open table; and on the printers that capture. In this order they are the letters
told so far (`Session.letters`). An event adds its letters at the end, for content is told to the
root when no row is filled, and else to the capture of a cell (`Session.Open`), and leaving a table
writes the rows after what waits on the root. So in the end the letters that were written are those
of the texts of the tree, in order (`Node.letters_render`).
-/

namespace Markwright

open Text (letters)
open Node (eventsAll)

/-! ## Printers -/

namespace Printer

/-- The letters that were written and those that wait. -/
def letters (p : Printer) : List Char := Text.letters p.written ++ Text.letters (p.pending.getD "")

/-- The line prefixes have no letters. -/
def Unmarked (p : Printer) : Prop := ∀ x ∈ p.linePrefixes, Text.letters x = []

/-- `q` has the letters of `p` and `cs` after them. -/
structure Tells (cs : List Char) (p q : Printer) : Prop where
  unmarked : p.Unmarked → q.Unmarked
  letters : p.Unmarked → q.letters = p.letters ++ cs

variable {p q r : Printer} {cs ds : List Char}

theorem Tells.of_eq (hw : q.written = p.written) (hp : q.pending = p.pending)
    (hl : q.linePrefixes = p.linePrefixes) : Tells [] p q := by
  refine ⟨fun h => ?_, fun _ => ?_⟩
  · unfold Unmarked
    rw [hl]
    exact h
  · rw [Printer.letters, hw, hp, List.append_nil, Printer.letters]

theorem Tells.trans (h : Tells cs p q) (k : Tells ds q r) : Tells (cs ++ ds) p r := by
  refine ⟨fun hp => k.unmarked (h.unmarked hp), fun hp => ?_⟩
  rw [k.letters (h.unmarked hp), h.letters hp, List.append_assoc]

theorem filter_passed (p : Printer) (s : String) :
    (p.passed s).filter Char.isAlpha = Text.letters s := by
  unfold passed
  split
  · refine Text.filter_dropWhile (fun c hc => ?_) s.toList
    rw [eq_of_beq hc]
    rfl
  · rfl

theorem filter_indentation (h : p.Unmarked) : p.indentation.filter Char.isAlpha = [] := by
  have hj := Text.letters_join p.linePrefixes
  rw [List.flatMap_eq_nil_iff.2 h] at hj
  exact hj

theorem filter_indentBreaks (h : p.Unmarked) (cs : List Char) :
    (indentBreaks p.indentation cs).filter Char.isAlpha = cs.filter Char.isAlpha := by
  induction cs with
  | nil => rfl
  | cons c cs ih =>
    rw [indentBreaks] at ih ⊢
    rw [List.flatMap_cons, List.filter_append, ih]
    split
    · rename_i hc
      rw [List.filter_cons_of_neg (by decide), filter_indentation h, hc,
        List.filter_cons_of_neg (by decide), List.nil_append]
    · rw [← List.filter_append]
      rfl

theorem tells_write (hp : p.pending = none) (s : String) :
    Tells (Text.letters s) p (p.write s) := by
  by_cases hs : p.passed s = []
  · have hnil := p.filter_passed s
    rw [hs, List.filter_nil] at hnil
    rw [write_of_passed_nil hs, ← hnil]
    exact .of_eq rfl rfl rfl
  · rw [write_of_passed_ne hs]
    refine ⟨id, fun h => ?_⟩
    have hlead : (if p.pageBlank then p.indentation else []).filter Char.isAlpha = [] := by
      split
      · exact filter_indentation h
      · rfl
    simp only [Printer.letters, hp, Option.getD_none, Text.letters_empty, Text.letters_append,
      Text.letters_ofList, List.filter_append, hlead, filter_indentBreaks h, filter_passed,
      List.nil_append, List.append_nil]

/-- What waits comes after what was written, so flushing keeps the letters. -/
theorem tells_flush (p : Printer) (around : Surroundings) : Tells [] p (p.flush around) := by
  unfold flush
  split
  · exact .of_eq rfl rfl rfl
  · rename_i text hp
    have h := tells_write (p := { p with pending := none, flushes := p.flushes + 1 }) rfl
      (Escape.markdown (p.context around) text)
    refine ⟨h.unmarked, fun hu => ?_⟩
    rw [h.letters hu, Escape.letters_markdown]
    simp [Printer.letters, hp]

theorem tells_print (p : Printer) (around : Surroundings) (s : String) :
    Tells (Text.letters s) p (p.print around s) :=
  (tells_flush p around).trans (tells_write (pending_flush p around) s)

theorem tells_delay (p : Printer) (s : String) : Tells (Text.letters s) p (p.delay s) := by
  refine ⟨id, fun _ => ?_⟩
  simp [Printer.letters, delay]

end Printer

/-! ## Sessions -/

/-- What stands here are rows or cells, which are no content. -/
def Place.IsRows : Place → Prop
  | .table | .tableRow => True
  | _ => False

namespace Session

variable {style : Style} {s t u : Session} {cs ds : List Char}

/-- All letters told so far, in order. -/
def letters (s : Session) : List Char :=
  s.printers.root.letters ++ Table.lettersOf s.table.rows ++
    s.printers.captures.reverse.flatMap Printer.letters

/-- Letters told at a place come last. Content is told to a capture, or there are no rows; cells go
to the rows, and nothing captures. -/
structure Open (p : Place) (s : Session) : Prop where
  unmarked : s.printers.active.Unmarked
  rows : ¬ p.IsRows → s.printers.captures = [] → s.table.rows = []
  captures : p.IsRows → s.printers.captures = []

/-- What was told at a place. -/
def Tells (p : Place) (cs : List Char) (s t : Session) : Prop :=
  s.Open p → t.Open p ∧ t.letters = s.letters ++ cs

theorem Open.congr {p q : Place} (h : s.Open p) (hpq : p.IsRows ↔ q.IsRows) : s.Open q :=
  ⟨h.unmarked, fun hq => h.rows (mt hpq.1 hq), fun hq => h.captures (hpq.2 hq)⟩

namespace Tells

variable {p : Place}

protected theorem refl (p : Place) (s : Session) : Tells p [] s s :=
  fun h => ⟨h, (List.append_nil _).symm⟩

protected theorem trans (h : Tells p cs s t) (k : Tells p ds t u) : Tells p (cs ++ ds) s u := by
  intro hs
  obtain ⟨ht, hst⟩ := h hs
  obtain ⟨hu, htu⟩ := k ht
  exact ⟨hu, by rw [htu, hst, List.append_assoc]⟩

/-- What is told to the active printer comes last. -/
theorem modify {f : Printer → Printer}
    (h : Printer.Tells cs s.printers.active (f s.printers.active)) :
    Tells .content cs s (s.modifyPrinter f) := by
  rintro ⟨hu, hr, -⟩
  have hletters := h.letters hu
  refine ⟨⟨?_, fun _ hc => ?_, nofun⟩, ?_⟩
  · simpa [modifyPrinter, PrinterStack.modify] using h.unmarked hu
  · rcases hcap : s.printers.captures with _ | ⟨c, rest⟩
    · exact hr nofun hcap
    · simp [modifyPrinter, PrinterStack.modify, PrinterStack.setActive, hcap] at hc
  · rcases hcap : s.printers.captures with _ | ⟨c, rest⟩
    · rw [PrinterStack.active_eq_root hcap] at hletters
      simp only [Session.letters, modifyPrinter, PrinterStack.modify, PrinterStack.setActive, hcap,
        hr nofun hcap, PrinterStack.active_eq_root hcap, hletters]
      simp [Table.lettersOf]
    · have hactive : s.printers.active = c := by simp [PrinterStack.active, hcap]
      rw [hactive] at hletters
      simp only [Session.letters, modifyPrinter, PrinterStack.modify, PrinterStack.setActive, hcap,
        hactive, List.reverse_cons, List.flatMap_append, List.flatMap_singleton, hletters,
        List.append_assoc]

theorem print (s : Session) (text : String) :
    Tells .content (Text.letters text) s (s.print text) :=
  modify (f := (·.print s.nesting.around text)) (Printer.tells_print _ _ _)

theorem mark {text : String} (h : Text.letters text = []) (s : Session) :
    Tells .content [] s (s.print text) := h ▸ print s text

theorem flush (s : Session) : Tells .content [] s s.flush :=
  modify (f := (·.flush s.nesting.around)) (Printer.tells_flush _ _)

theorem delay (s : Session) (text : String) :
    Tells .content (Text.letters text) s (s.delay text) :=
  modify (Printer.tells_delay _ _)

theorem pushPrefix {text : String} (h : Text.letters text = []) (s : Session) :
    Tells .content [] s (s.pushPrefix text) := by
  refine modify ⟨fun hu x hx => ?_, fun _ => by simp [Printer.letters, Printer.pushPrefix]⟩
  rcases List.mem_append.1 hx with hx | hx
  · exact hu x hx
  · obtain rfl := List.mem_singleton.1 hx
    exact h

theorem popPrefix (h : s.popPrefix = .ok t) : Tells .content [] s t := by
  unfold Session.popPrefix at h
  split at h
  · rename_i x p hp
    cases h
    obtain ⟨y, -, hy⟩ := Option.map_eq_some_iff.1 hp
    cases hy
    have hpop : Printer.Tells [] s.printers.active
        { s.printers.active with linePrefixes := s.printers.active.linePrefixes.dropLast } := by
      refine ⟨fun hu z hz => hu z (List.dropLast_subset _ hz), fun _ => ?_⟩
      simp [Printer.letters]
    exact modify (f := fun _ => _) hpop
  · cases h

theorem suppressBreaks (s : Session) : Tells .content [] s s.suppressBreaks :=
  modify (.of_eq rfl rfl rfl)

theorem separateItem (s : Session) : Tells .content [] s s.separateItem := by
  have hbreak : ∀ s : Session, Tells .content [] s s.breakLine := mark rfl
  unfold Session.separateItem
  split
  · dsimp only
    split
    · exact (hbreak s).trans (hbreak _)
    · exact hbreak s
  · exact .refl _ s

theorem markFormat {markup : String} (h : Text.letters markup = []) (s : Session) (f : Format)
    (entered : Bool) : Tells .content [] s (s.markFormat f markup entered) := by
  unfold Session.markFormat
  split
  · exact .refl _ s
  · dsimp only
    split
    · exact (mark h s).trans (modify (.of_eq rfl rfl rfl))
    · exact mark h s

theorem of_eq (h : Tells p cs s t) (hp : u.printers = t.printers) (ht : u.table = t.table) :
    Tells p cs s u := by
  intro hs
  obtain ⟨hopen, hletters⟩ := h hs
  refine ⟨⟨?_, ?_, ?_⟩, ?_⟩
  · rw [hp]
    exact hopen.unmarked
  · rw [hp, ht]
    exact hopen.rows
  · rw [hp]
    exact hopen.captures
  · rw [← hletters, Session.letters, hp, ht, Session.letters]

end Tells

end Session

/-! ## Nodes with no letters but those of their texts -/

/-- A container that writes no letters of its own. -/
def Container.IsTextual : Container → Prop
  | .link .. => False
  | .format .strikedOut _ => False
  | _ => True

/-- A leaf that writes no letters but those of its text. -/
def Leaf.IsTextual : Leaf → Prop
  | .horizontalLine _ | .emptyLines _ | .word _ | .space | .symbol _ | .newLine | .anchor _ => True
  | _ => False

/-- The text that a leaf tells. -/
def Leaf.letters : Leaf → List Char
  | .word s | .symbol s => Text.letters s
  | _ => []

namespace Node

/-- The nodes that write no letters besides those of the texts in them. -/
def IsTextual : Node → Prop
  | .link .. | .image .. | .call .. | .verbatim .. | .rawText .. => False
  | .span .strikedOut .. => False
  | _ => True

/-- The texts in a tree, in document order. -/
def textContents (n : Node) : List String :=
  (n :: n.descendants).filterMap fun
    | .text content => some content
    | _ => none

/-- The letters of all texts of a tree, in order. -/
def letters (n : Node) : List Char := n.textContents.flatMap Text.letters

/-- Pieces stand where they belong, spans are valid, there is no table below a cell, and all letters
come from texts. -/
structure Textual (n : Node) : Prop where
  fits : n.Everywhere Fits
  spans : n.Everywhere SpanValid
  plain : n.Everywhere CellsPlain
  textual : n.Everywhere IsTextual

theorem Textual.child {n k : Node} (h : n.Textual) (hk : k ∈ n.children) : k.Textual :=
  ⟨h.fits.child hk, h.spans.child hk, h.plain.child hk, h.textual.child hk⟩

theorem Textual.regular {n : Node} (h : n.Textual) (style : Style) : n.Regular style := by
  refine ⟨h.fits, h.spans, h.textual.imp fun m hm => ?_, h.plain⟩
  cases m
  case image => exact hm.elim
  all_goals exact trivial

theorem isTextual_of_wrap : ∀ {n : Node} {c : Container}, n.IsTextual → n.wrap? = some c →
    c.IsTextual
  | n, c, hn, hw => by
    cases n
    case tableCell content header p => cases header <;> cases hw <;> exact trivial
    case link => exact hn.elim
    case span f content p => cases hw; cases f <;> first | exact trivial | exact hn.elim
    all_goals cases hw <;> exact trivial

theorem isTextual_of_mem_leaves {n : Node} {l : Leaf} (hn : n.IsTextual) (hl : l ∈ n.leaves) :
    l.IsTextual := by
  cases n
  case horizontalRule | emptyLines | newLine | anchor =>
    obtain rfl := List.mem_singleton.1 hl
    exact trivial
  case text =>
    obtain ⟨t, -, rfl⟩ := List.mem_map.1 hl
    cases t <;> exact trivial
  case call | verbatim | rawText | image => exact hn.elim
  all_goals cases hl

theorem letters_of_wrap {n : Node} {c : Container} (hw : n.wrap? = some c) :
    n.letters = n.children.flatMap letters := by
  have hkids : ∀ kids : List Node, ((descendantsAll kids).filterMap fun
      | .text content => some content
      | _ => none).flatMap Text.letters = kids.flatMap letters := by
    intro kids
    induction kids with
    | nil => rfl
    | cons k kids ih =>
      rw [descendantsAll, ← List.cons_append, List.filterMap_append, List.flatMap_append, ih,
        List.flatMap_cons]
      rfl
  rw [letters, textContents, descendants_eq, ← hkids]
  cases n <;> first | rfl | cases hw

theorem letters_of_leaves {n : Node} (hn : n.IsTextual) (hw : n.wrap? = none) :
    n.letters = n.leaves.flatMap Leaf.letters := by
  cases n
  case text content =>
    have htoken : ∀ t ∈ Text.Token.ofChars content.toList,
        (Leaf.ofToken t).letters = t.chars.filter Char.isAlpha := by
      intro t ht
      cases t with
      | lineBreak bs =>
        refine (List.filter_eq_nil_iff.2 fun b hb => ?_).symm
        rcases (Text.Token.lineBreak_spec ht).2 b hb with rfl | rfl <;> decide
      | space => rfl
      | symbol c => simp [Leaf.ofToken, Leaf.letters, Text.letters, Text.Token.chars]
      | word cs => simp [Leaf.ofToken, Leaf.letters, Text.Token.chars]
    have hcs := Text.Token.flatMap_chars content.toList
    rw [leaves, List.flatMap_map, Text.tokens, List.flatMap_congr htoken, ← List.filter_flatMap,
      hcs]
    simp [letters, textContents, descendants, Text.letters]
  case horizontalRule | emptyLines | newLine | anchor => rfl
  case call | verbatim | rawText | image => exact hn.elim
  all_goals cases hw

end Node

/-! ## Events -/

namespace Session

variable {style : Style} {s t u : Session} {c : Container}

theorem letters_openMarkup {f : Format} (hf : f ≠ .strikedOut) :
    Text.letters (openMarkup f) = [] ∧ Text.letters (closeMarkup f) = [] := by
  cases f <;> first | exact ⟨rfl, rfl⟩ | exact absurd rfl hf

theorem letters_indentation (style : Style) : Text.letters (indentation style) = [] :=
  Text.letters_replicate rfl _

theorem letters_itemMarker (s : Session) : Text.letters s.itemMarker = [] := by
  unfold itemMarker
  split <;> rfl

theorem tells_writeEnter (style : Style) (hc : c.IsTextual) (hp : ¬ c.place.IsRows) (s : Session) :
    Tells .content [] s (writeEnter style s c) := by
  have hpad : ∀ {w : Nat} {x : String}, Text.letters x = [] →
      Text.letters (Text.padRight w x) = [] := fun hx => (Text.letters_padRight _ _).trans hx
  have hempty : ∀ s : Session, Tells .content [] s s.emptyLine := .mark rfl
  have hbreak : ∀ s : Session, Tells .content [] s s.breakLine := .mark rfl
  cases c
  case document | definitionList => exact .refl _ s
  case header level _ _ =>
    have hmarks : Text.letters (Text.times level.toNat "#" ++ " ") = [] := by
      rw [Text.letters_append, Text.letters_times rfl]
      rfl
    simp only [writeEnter]
    split
    · exact (Tells.mark rfl s).trans (.mark hmarks _)
    · exact (hempty s).trans (.mark hmarks _)
  case paragraph => exact (hempty s).of_eq rfl rfl
  case format f _ =>
    have hf : f ≠ .strikedOut := by
      rintro rfl
      exact hc
    exact .markFormat (letters_openMarkup hf).1 s f true
  case list =>
    simp only [writeEnter]
    split
    · exact (hempty s).of_eq rfl rfl
    · exact (hbreak s).of_eq rfl rfl
  case listItem =>
    have hmarker := (Tells.separateItem s).trans
      (.mark (hpad (letters_itemMarker s.separateItem) (w := style.options.listIndentWidth)) _)
    have hindented := hmarker.trans (.pushPrefix (letters_indentation style) _)
    exact (hindented.trans (.suppressBreaks _)).of_eq rfl rfl
  case definitionTerm => exact hempty s
  case definitionDescription =>
    exact (Tells.mark (hpad rfl) s).trans (.pushPrefix (letters_indentation style) _)
  case table => exact .modify (.of_eq rfl rfl rfl)
  case quotation =>
    have hquote : Text.letters "> " = [] := rfl
    have hindented := (hbreak s).trans (.pushPrefix hquote _)
    exact (hindented.trans (hbreak _)).trans (.suppressBreaks _)
  case quotationLine =>
    simp only [writeEnter]
    split
    · exact .refl _ s
    · exact hempty s
  case link => exact hc.elim
  all_goals exact absurd trivial hp

theorem tells_writeLeave (hc : c.IsTextual) (hp : ¬ c.place.IsRows) (hr : ¬ c.room.IsRows)
    (h : writeLeave style s c = .ok t) : Tells .content [] s t := by
  cases c
  case document | header | paragraph | list | quotationLine =>
    cases h
    exact .flush s
  case definitionList =>
    cases h
    exact .refl _ s
  case definitionTerm =>
    cases h
    exact .mark rfl s
  case format f _ =>
    have hf : f ≠ .strikedOut := by
      rintro rfl
      exact hc
    cases h
    exact .markFormat (letters_openMarkup hf).2 s f false
  case listItem | quotation => exact .popPrefix h
  case definitionDescription => exact (Tells.flush s).trans (.popPrefix h)
  case table => exact absurd trivial hr
  case link => exact hc.elim
  all_goals exact absurd trivial hp

theorem tells_writeLeaf {l : Leaf} (hl : l.IsTextual) (h : writeLeaf style s l = .ok t) :
    Tells .content l.letters s t := by
  cases l
  case horizontalLine =>
    cases h
    have hempty : Tells .content [] s s.emptyLine := .mark rfl s
    exact hempty.trans (.mark rfl _)
  case emptyLines =>
    cases h
    exact .mark (Text.letters_times rfl _) s
  case word | symbol =>
    cases h
    exact .delay s _
  case space =>
    cases h
    exact .delay s " "
  case newLine =>
    cases h
    split
    · exact .mark rfl s
    · exact .mark rfl s
  case anchor =>
    cases h
    exact (Tells.refl _ s).of_eq rfl rfl
  all_goals exact hl.elim

/-! ## Tables -/

/-- Cells come after what waits on the root, and so do the rows that a table is drawn with. -/
theorem tells_leaveTable (h : s.Open .table) :
    s.leaveTable.Open .content ∧ s.leaveTable.letters = s.letters := by
  have hcap := h.captures trivial
  have hactive := PrinterStack.active_eq_root hcap
  have hprint := (Printer.tells_print s.printers.root s.nesting.around "\n\n").trans
    (Printer.tells_print _ s.nesting.around s.table.draw)
  have hu := h.unmarked
  rw [hactive] at hu
  refine ⟨⟨?_, fun _ _ => rfl, nofun⟩, ?_⟩
  · simp only [leaveTable, emptyLine, print, PrinterStack.print, PrinterStack.modify, hactive,
      PrinterStack.active_setActive]
    exact hprint.unmarked hu
  · have hletters := hprint.letters hu
    rw [Table.Layout.letters_draw] at hletters
    simp only [letters, leaveTable, emptyLine, print, PrinterStack.print, PrinterStack.modify,
      PrinterStack.setActive, PrinterStack.active, hcap, List.headD_nil, List.reverse_nil,
      List.flatMap_nil, List.append_nil, hletters]
    simp [Table.lettersOf, Table.Layout.clear, Table.Layout.empty, Text.letters]

theorem tells_beginRow (h : s.Open .table) :
    let t := { s with table := s.table.beginRow }
    t.Open .tableRow ∧ t.letters = s.letters := by
  refine ⟨⟨h.unmarked, fun hp => absurd trivial hp, fun _ => h.captures trivial⟩, ?_⟩
  simp only [letters, Table.Layout.lettersOf_beginRow]

theorem tells_pushCapture (h : s.Open .tableRow) :
    s.pushCapture.Open .content ∧ s.pushCapture.letters = s.letters := by
  refine ⟨⟨fun x hx => ?_, fun _ hc => ?_, nofun⟩, ?_⟩
  · cases hx
  · cases hc
  · simp [letters, pushCapture, PrinterStack.push, h.captures trivial, Printer.letters,
      Printer.fresh]

theorem tells_leaveCell {b : PrinterStack} {isHeader : Bool} {p : Option Parameters}
    (hb : b.Captures s.printers) (hcap : b.captures = []) (hu : b.active.Unmarked)
    (hs : s.Open .content) (h : s.leaveCell isHeader p = .ok t) :
    t.Open .tableRow ∧ t.letters = s.letters := by
  unfold leaveCell at h
  rw [popCapture_of_captures hb] at h
  dsimp only at h
  split at h
  · cases h
  · rename_i u hadd
    cases h
    refine ⟨⟨hu, fun hp => absurd trivial hp, fun _ => hcap⟩, ?_⟩
    have hflush := (Printer.tells_flush s.printers.active s.nesting.around).letters hs.unmarked
    rw [Printer.letters, Printer.pending_flush, List.append_nil] at hflush
    obtain ⟨c, hc⟩ := hb
    have hcaptures : s.printers.captures = [s.printers.active] := by
      simp [PrinterStack.active, hc, hcap]
    have hroot : s.printers.root = b.root := by rw [hc]
    simp only [letters, Table.Layout.lettersOf_addCell hadd, hcaptures, hroot, hcap,
      List.reverse_singleton, List.reverse_nil, List.flatMap_singleton, List.flatMap_nil,
      List.append_nil, List.append_assoc]
    rw [← hflush]
    simp

/-! ## Trees -/

theorem place_eq_tableRow_of_captures {m : Nesting} (hc : c.IsTextual) (h : c.Captures m) :
    c.place = .tableRow := by
  cases c <;> first | rfl | exact h.elim | exact hc.elim

theorem captures_entered (style : Style) (hc : c.IsTextual) (hp : c.place ≠ .tableRow)
    (h : s.printers.captures = []) : (s.entered style c).printers.captures = [] := by
  by_cases hrow : c.place = .table
  · obtain ⟨q, rfl⟩ := eq_tableRow_of_place hrow
    exact h
  · have hcap : ¬ c.Captures (s.nesting.enter c) := mt (place_eq_tableRow_of_captures hc) hp
    have hw := writes_writeEnter style (s := { s with nesting := s.nesting.enter c }) hcap hrow
    exact hw.printers.captures_eq_nil h

/-- Entering tells nothing, and what the container has room for can be told. -/
theorem tells_entered (style : Style) (hc : c.IsTextual) (hopen : s.Open c.place)
    (htable : c.room = .table → s.printers.captures = []) :
    (s.entered style c).Open c.room ∧ (s.entered style c).letters = s.letters := by
  have hnest : ({ s with nesting := s.nesting.enter c } : Session).Open c.place :=
    ⟨hopen.unmarked, hopen.rows, hopen.captures⟩
  have hplain : ¬ c.place.IsRows → (s.entered style c).Open .content ∧
      (s.entered style c).letters = s.letters := by
    intro hp
    have hcontent := hnest.congr (q := .content) ⟨fun h => absurd h hp, False.elim⟩
    obtain ⟨h1, h2⟩ := tells_writeEnter style hc hp _ hcontent
    exact ⟨h1, h2.trans (List.append_nil _)⟩
  cases c
  case table q =>
    obtain ⟨h1, h2⟩ := hplain id
    have hcap := captures_entered style hc nofun (htable rfl)
    exact ⟨⟨h1.unmarked, fun h => absurd trivial h, fun _ => hcap⟩, h2⟩
  case tableRow => exact tells_beginRow hnest
  case tableCell | tableHeadCell => exact tells_pushCapture hnest
  all_goals
    obtain ⟨h1, h2⟩ := hplain id
    exact ⟨h1.congr ⟨id, id⟩, h2⟩

/-- Leaving tells nothing, and what comes after the container can be told. -/
theorem tells_left (hc : c.IsTextual) (hopen : s.Open c.room)
    (hcell : c.place = .tableRow → ∃ b : PrinterStack, b.Captures s.printers ∧
      b.captures = [] ∧ b.active.Unmarked)
    (h : step style s (.leave c) = .ok t) : t.Open c.place ∧ t.letters = s.letters := by
  obtain ⟨u, n, hw, -, rfl⟩ := exists_of_step_leave h
  suffices hu : u.Open c.place ∧ u.letters = s.letters from
    ⟨⟨hu.1.unmarked, hu.1.rows, hu.1.captures⟩, hu.2⟩
  have hplain : ¬ c.place.IsRows → ¬ c.room.IsRows → u.Open .content ∧ u.letters = s.letters := by
    intro hp hr
    have hcontent := hopen.congr (q := .content) ⟨fun h => absurd h hr, False.elim⟩
    obtain ⟨h1, h2⟩ := tells_writeLeave hc hp hr hw hcontent
    exact ⟨h1, h2.trans (List.append_nil _)⟩
  cases c
  case table =>
    cases hw
    exact tells_leaveTable hopen
  case tableRow =>
    cases hw
    exact ⟨hopen.congr ⟨id, id⟩, rfl⟩
  case tableCell | tableHeadCell =>
    obtain ⟨b, hb, hcap, hu⟩ := hcell rfl
    exact tells_leaveCell hb hcap hu hopen hw
  all_goals
    obtain ⟨h1, h2⟩ := hplain id id
    exact ⟨h1.congr ⟨id, id⟩, h2⟩

theorem tells_leaves : ∀ (leaves : List Leaf) {s : Session}, (∀ l ∈ leaves, l.IsTextual) →
    steps style s (leaves.map .leaf) = .ok t →
    Tells .content (leaves.flatMap Leaf.letters) s t
  | [], s, _, h => by
    cases h
    exact .refl _ _
  | l :: rest, s, hl, h => by
    obtain ⟨u, hu, hrest⟩ := exists_of_steps_cons h
    obtain ⟨v, hv, huv⟩ := exists_of_step_leaf hu
    have hleaf : Tells .content l.letters s u :=
      (tells_writeLeaf (hl l (by simp)) hv).of_eq (by rw [huv]) (by rw [huv])
    exact hleaf.trans (tells_leaves rest (fun m hm => hl m (by simp [hm])) hrest)

/-- A table finds no capture. -/
def Uncaptured (n : Node) (s : Session) : Prop := n.TableFree ∨ s.printers.captures = []

theorem Uncaptured.child {n k : Node} (h : Uncaptured n s) (hn : n.Regular style)
    (hw : n.wrap? = some c) (hc : c.IsTextual) (hk : k ∈ n.children) :
    Uncaptured k (s.entered style c) := by
  rcases h with hfree | hcap
  · exact Or.inl (hfree.child hk)
  · by_cases hp : c.place = .tableRow
    · have hfree := hn.tableFree_of_place (Or.inr ((Node.place_of_wrap hw).trans hp))
      exact Or.inl (hfree.child hk)
    · exact Or.inr (captures_entered style hc hp hcap)

theorem tells_eventsAll {p : Place} : ∀ (kids : List Node) {s : Session},
    (∀ k ∈ kids, k.Regular style ∧ k.place = p ∧ Ready k s ∧ Uncaptured k s) →
    (∀ k ∈ kids, ∀ s t, Ready k s → Uncaptured k s → steps style s k.events = .ok t →
      Tells k.place k.letters s t) →
    steps style s (eventsAll kids) = .ok t → Tells p (kids.flatMap Node.letters) s t
  | [], s, _, _, h => by
    cases h
    exact .refl p _
  | k :: rest, s, hkids, htells, h => by
    obtain ⟨u, hu, hrest⟩ := exists_of_steps_append h
    obtain ⟨hk, hp, hr, hc⟩ := hkids k (by simp)
    have hkeeps : s.Keeps k.place u := by
      obtain ⟨u', hu', hkeeps⟩ := steps_events style k hk hr
      rw [hu] at hu'
      cases hu'
      exact hkeeps
    have hready : ∀ m ∈ rest, m.Regular style ∧ m.place = p ∧ Ready m u ∧ Uncaptured m u := by
      intro m hm
      obtain ⟨hreg, hmp, hmr, hmc⟩ := hkids m (by simp [hm])
      refine ⟨hreg, hmp, hmr.keeps hreg ((hmp.trans hp.symm) ▸ hkeeps),
        hmc.imp_right fun hnil => ?_⟩
      exact hkeeps.printers.captures_eq_nil hnil
    have hfirst := htells k (by simp) s u hr hc hu
    rw [hp] at hfirst
    exact hfirst.trans (tells_eventsAll rest hready (fun m hm => htells m (by simp [hm])) hrest)

/-- A tree tells the letters of its texts, in order. -/
theorem tells_events (style : Style) (n : Node) : n.Textual → ∀ s t, Ready n s →
    Uncaptured n s → steps style s n.events = .ok t → Tells n.place n.letters s t := by
  induction n using Node.childrenInduction with
  | step n ih =>
  intro hn s t hs hun h
  rcases hw : n.wrap? with _ | c
  · have hplace := Node.place_of_wrap_none hw
    rw [Node.events_of_leaves hw] at h
    rw [hplace, Node.letters_of_leaves hn.textual.here hw]
    exact tells_leaves n.leaves (fun l hl => Node.isTextual_of_mem_leaves hn.textual.here hl) h
  · rw [Node.events_of_wrap hw] at h
    obtain ⟨v, hv, hleft⟩ := exists_of_steps_around h
    have hreg := hn.regular style
    have hc := Node.isTextual_of_wrap hn.textual.here hw
    have hkids : ∀ k ∈ n.children, k.Regular style ∧ k.place = c.room ∧
        Ready k (s.entered style c) ∧ Uncaptured k (s.entered style c) := by
      intro k hk
      have hroom := (hreg.place_child hk).trans (Node.room_of_wrap hw)
      exact ⟨hreg.child hk, hroom, hs.child hreg hw hk, hun.child hreg hw hc hk⟩
    rw [Node.place_of_wrap hw, Node.letters_of_wrap hw]
    intro hopen
    have htable : c.room = .table → s.printers.captures = [] := by
      intro hr
      obtain ⟨q, rfl⟩ := eq_table_of_room hr
      exact hun.resolve_left fun hfree => hfree.here (Node.isTable_of_wrap hw)
    obtain ⟨hin, hinletters⟩ := tells_entered style hc hopen htable
    obtain ⟨hv', hvletters⟩ := tells_eventsAll n.children hkids
      (fun k hk s t hr hk' hst => ih k hk (hn.child hk) s t hr hk' hst) hv hin
    have hcell : c.place = .tableRow → ∃ b : PrinterStack, b.Captures v.printers ∧
        b.captures = [] ∧ b.active.Unmarked := by
      intro hp
      obtain ⟨v', hsteps, hkeeps⟩ := steps_eventsAll n.children
        (fun k hk => ⟨(hkids k hk).1, (hkids k hk).2.1, (hkids k hk).2.2.1⟩)
        fun k hk s hs => steps_events style k (hreg.child hk) hs
      rw [hv] at hsteps
      cases hsteps
      exact ⟨s.printers, captures_of_cell hp hkeeps, hopen.captures (by rw [hp]; trivial),
        hopen.unmarked⟩
    obtain ⟨ht, htletters⟩ := tells_left hc hv' hcell hleft
    exact ⟨ht, by rw [htletters, hvletters, hinletters]⟩

end Session

namespace Node

variable {style : Style} {blocks : List Node} {p : Parameters}

theorem letters_finish (o : Options) (s : String) : Text.letters (o.finish s) = Text.letters s := by
  unfold Options.finish
  split
  · exact Text.letters_stripFinalBreaks s
  · rfl

/-- The letters of a document that is rendered are those of its texts. -/
theorem letters_render (style : Style) (h : (document blocks p).Textual) :
    ∃ markdown, (document blocks p).render style = .ok markdown ∧
      Text.letters markdown = (document blocks p).textContents.flatMap Text.letters := by
  have hready : Session.Ready (document blocks p) (.start style) :=
    ⟨Int.le_refl 0, nofun, Or.inr rfl⟩
  have hopen : (Session.start style).Open .content :=
    ⟨fun _ hx => absurd hx List.not_mem_nil, fun _ _ => rfl, fun _ => rfl⟩
  obtain ⟨t, ht, hkeeps⟩ := Session.steps_events style _ (h.regular style) hready
  obtain ⟨ht', hletters⟩ := Session.tells_events style _ h _ t hready (Or.inr rfl) ht hopen
  have hcap := hkeeps.printers.captures_eq_nil rfl
  have hpending : t.printers.root.pending = none := by
    rw [← PrinterStack.active_eq_root hcap]
    exact Session.settled_of_wrap (n := document blocks p) rfl trivial ht
  refine ⟨_, render_of_session ht, ?_⟩
  have hstart : (Session.start style).letters = [] := rfl
  rw [hstart, List.nil_append, Session.letters, hcap, ht'.rows nofun hcap, Printer.letters,
    hpending] at hletters
  rw [letters_finish, Session.written]
  change _ = (document blocks p).letters
  simpa [Table.lettersOf] using hletters

end Node

/-- A quotation in a list, and a table with bold text in a cell over two columns. -/
def textualBlocks : List Node := [
  .list .numbered [.listItem [.text "a*", .quotation [.quotationLine [.text "b c"]] .empty] .empty]
    .empty,
  .table [.tableRow [
    .tableCell [.text "d", .span .bold [.text "e"] .empty] false (.ofList [("colspan", "2")]),
    .tableCell [.text "f", .newLine, .text "g"] false .empty] .empty] .empty]

theorem textual_textualBlocks : (Node.document textualBlocks .empty).Textual := by
  have hone : Table.spanOf (Parameters.empty.get? "colspan") = .ok 1 := rfl
  have htwo : Table.spanOf ((Parameters.ofList [("colspan", "2")]).get? "colspan") = .ok 2 := rfl
  have hnodes : (Node.document textualBlocks .empty).descendants =
      Node.descendantsAll textualBlocks := rfl
  constructor <;> rw [Node.Everywhere, hnodes] <;>
    simp only [textualBlocks, Node.descendants, Node.descendantsAll, List.append_nil,
      List.nil_append, List.cons_append, List.forall_mem_cons]
  · simp [Node.Fits, Node.children, Node.place, Node.room, Node.wrap?, Container.place,
      Container.room]
  · simp [Node.SpanValid, hone, htwo]
  · simp [Node.CellsPlain, Node.IsCell, Node.IsTable, Node.descendants, Node.descendantsAll]
  · simp [Node.IsTextual]

theorem Node.letters_render_textualBlocks : (document textualBlocks .empty).Textual ∧
    ∃ markdown, (document textualBlocks .empty).render (.standard {}) = .ok markdown ∧
      Text.letters markdown = "abcdefg".toList :=
  ⟨textual_textualBlocks, letters_render (.standard {}) textual_textualBlocks⟩

end Markwright
