import Markwright.Proofs.FlatPage
import Markwright.Proofs.LiveLine
import Markwright.Proofs.MarkedLine
import Markwright.Proofs.Tables
import Markwright.Proofs.Waiting

/-!
# The lines of a paragraph

A text of several lines is escaped line by line, and the two spaces of a hard break follow each line
but the last (`Session.exists_steps_lines`). So the lines of a paragraph are not live, but for two
ways out: a line on which nothing but a bullet or a number stands comes alive by the spaces behind
it, and the first line is not escaped as one unless the break before the paragraph is written, or
the page is empty and no table was entered on it (`Node.paragraph_lines`).
-/

namespace Markwright

open Escape (escapeSpan IsLive IsLoneMark)
open Node (eventsAll)

/-! ## Lines of text -/

/-- The lines that tokens make up, the first of which begins with `line`. -/
def Text.Token.lines (line : List Char) : List Token → List (List Char)
  | [] => [line]
  | .lineBreak _ :: ts => line :: lines [] ts
  | t :: ts => lines (line ++ t.chars) ts

/-- The lines of a text, between its line breaks. -/
def Text.lines (s : String) : List (List Char) := Token.lines [] (tokens s)

/-- Lines as they are written in a paragraph, the first one where a line starts or not. -/
def Escape.brokenLines (onNewLine : Bool) : List (List Char) → List (List Char)
  | [] => []
  | [line] => [escapeSpan ⟨true, false, onNewLine, false⟩ line]
  | line :: next :: rest =>
    (escapeSpan ⟨true, false, onNewLine, false⟩ line ++ [' ', ' ']) ::
      brokenLines true (next :: rest)

/-- There are no breaks among the characters. -/
def Unbroken (cs : List Char) : Prop := ∀ c ∈ cs, c ≠ '\r' ∧ c ≠ '\n'

namespace Text.Token

theorem lines_ne_nil (line : List Char) (ts : List Token) : lines line ts ≠ [] := by
  fun_induction lines line ts with
  | case1 | case2 => exact List.cons_ne_nil _ _
  | case3 _ _ _ _ ih => exact ih

theorem lines_cons {k : Token} (hk : ∀ bs, k ≠ lineBreak bs) (line : List Char) (ts : List Token) :
    lines line (k :: ts) = lines (line ++ k.chars) ts := by
  cases k
  case lineBreak bs => exact absurd rfl (hk bs)
  all_goals rfl

theorem spec_consWord {c : Char} {k : Token} (hc : Unbroken [c]) : ∀ {ts : List Token},
    (∀ t ∈ ts, (∀ bs, t ≠ lineBreak bs) → t.chars ≠ [] ∧ Unbroken t.chars) →
    k ∈ consWord c ts → (∀ bs, k ≠ lineBreak bs) → k.chars ≠ [] ∧ Unbroken k.chars
  | [], _, h, _ => by
    obtain rfl : k = word [c] := List.mem_singleton.1 h
    exact ⟨List.cons_ne_nil _ _, hc⟩
  | lineBreak _ :: _, hts, h, hk | space :: _, hts, h, hk | symbol _ :: _, hts, h, hk => by
    rcases List.mem_cons.1 h with rfl | h
    · exact ⟨List.cons_ne_nil _ _, hc⟩
    · exact hts k h hk
  | word cs :: rest, hts, h, hk => by
    rcases List.mem_cons.1 h with rfl | h
    · refine ⟨List.cons_ne_nil _ _, List.forall_mem_cons.2 ⟨hc c (by simp), ?_⟩⟩
      exact (hts (word cs) (by simp) nofun).2
    · exact hts k (List.mem_cons_of_mem _ h) hk

/-- Breaks are told by tokens of their own. -/
theorem chars_spec {cs : List Char} {k : Token} (h : k ∈ ofChars cs)
    (hk : ∀ bs, k ≠ lineBreak bs) : k.chars ≠ [] ∧ Unbroken k.chars := by
  fun_induction ofChars cs generalizing k with
  | case1 => cases h
  | case2 cs ih | case3 c cs _ hc ih =>
    rcases List.mem_cons.1 h with rfl | h
    · exact absurd rfl (hk _)
    · exact ih h hk
  | case4 cs _ _ ih =>
    rcases List.mem_cons.1 h with rfl | h
    · exact ⟨List.cons_ne_nil _ _, List.forall_mem_singleton.2 (by decide)⟩
    · exact ih h hk
  | case5 c cs _ hc _ _ ih =>
    rcases List.mem_cons.1 h with rfl | h
    · exact ⟨List.cons_ne_nil _ _, List.forall_mem_singleton.2 (not_or.1 hc)⟩
    · exact ih h hk
  | case6 c cs _ hc _ _ ih =>
    exact spec_consWord (List.forall_mem_singleton.2 (not_or.1 hc)) (fun t ht => ih ht) h hk

theorem unbroken_lines {line : List Char} {ts : List Token} (hline : Unbroken line)
    (hts : ∀ t ∈ ts, (∀ bs, t ≠ lineBreak bs) → Unbroken t.chars) :
    ∀ l ∈ lines line ts, Unbroken l := by
  fun_induction lines line ts with
  | case1 line => simpa using hline
  | case2 line bs ts ih =>
    exact List.forall_mem_cons.2 ⟨hline, ih nofun fun t ht => hts t (by simp [ht])⟩
  | case3 line t ts ht ih =>
    refine ih (fun c hc => ?_) fun t ht => hts t (by simp [ht])
    rcases List.mem_append.1 hc with hc | hc
    · exact hline c hc
    · exact hts t (by simp) ht c hc

end Text.Token

namespace Escape

variable {onNewLine : Bool} {i : Nat} {line : List Char}

theorem brokenLines_ne_nil (onNewLine : Bool) : ∀ {lines : List (List Char)}, lines ≠ [] →
    brokenLines onNewLine lines ≠ []
  | [_], _ | _ :: _ :: _, _ => List.cons_ne_nil _ _

theorem break_not_mem_brokenLines (onNewLine : Bool) {lines : List (List Char)}
    (h : ∀ l ∈ lines, Unbroken l) : ∀ l ∈ brokenLines onNewLine lines, '\n' ∉ l := by
  have hspan : ∀ ctx, ∀ l ∈ lines, '\n' ∉ escapeSpan ctx l := fun ctx l hl =>
    break_not_mem_escapeSpan ctx fun hc => (h l hl _ hc).2 rfl
  fun_induction brokenLines onNewLine lines with
  | case1 => nofun
  | case2 _ line => simpa using hspan _ line (by simp)
  | case3 _ line next rest ih =>
    have hrest := ih (fun l hl => h l (List.mem_cons_of_mem _ hl))
      fun ctx l hl => hspan ctx l (List.mem_cons_of_mem _ hl)
    refine List.forall_mem_cons.2 ⟨?_, hrest⟩
    simpa using hspan _ line (by simp)

/-- A line that starts as one is live only if a hard break follows a mark that stands alone. -/
theorem exists_mark_of_isLive {lines : List (List Char)}
    (hline : (brokenLines onNewLine lines)[i]? = some line) (hstart : i = 0 → onNewLine = true)
    (hlive : IsLive line) :
    i + 1 < lines.length ∧ ∃ mark, IsLoneMark mark ∧ line = mark ++ [' ', ' '] := by
  fun_induction brokenLines onNewLine lines generalizing i with
  | case1 => simp at hline
  | case2 onNewLine l =>
    rcases i with _ | i
    · obtain rfl : escapeSpan ⟨true, false, onNewLine, false⟩ l = line := by simpa using hline
      exact absurd hlive (not_isLive_escapeSpan ⟨rfl, hstart rfl⟩ l)
    · simp at hline
  | case3 onNewLine l next rest ih =>
    rcases i with _ | i
    · obtain rfl : escapeSpan ⟨true, false, onNewLine, false⟩ l ++ [' ', ' '] = line := by
        simpa using hline
      exact ⟨by simp, _,
        isLoneMark_of_isLive (not_isLive_escapeSpan ⟨rfl, hstart rfl⟩ l) hlive, rfl⟩
    · rw [List.getElem?_cons_succ] at hline
      obtain ⟨hi, hmark⟩ := ih hline (fun _ => rfl)
      exact ⟨Nat.succ_lt_succ hi, hmark⟩

end Escape

/-! ## A text in a paragraph -/

/-- What waits when so much of a line came. -/
def waiting? (line : List Char) : Option String :=
  if line = [] then none else some (String.ofList line)

theorem getD_waiting? (line : List Char) : (waiting? line).getD "" = String.ofList line := by
  unfold waiting?
  split
  · rename_i hnil
    rw [hnil]
    rfl
  · rfl

namespace Session

variable {style : Style} {s t : Session} {w line : List Char} {suppressed onNewLine : Bool}

theorem Shows.delay_more {pending : Option String}
    (h : s.Shows ⟨w, suppressed, onNewLine, pending⟩) (x : String) :
    (s.delay x).Shows ⟨w, suppressed, onNewLine, some (pending.getD "" ++ x)⟩ :=
  h.modify (f := (·.delay x)) ⟨h.root.linePrefixes, h.root.escapeSpaces, h.root.written,
    h.root.suppressed, h.root.onNewLine, by rw [Printer.delay, h.root.pending]⟩

theorem isLine_ofList (hline : Unbroken line) (hne : line ≠ []) : IsLine (String.ofList line) := by
  refine ⟨fun hnil => hne ?_, by simpa [Unbroken] using hline⟩
  rw [← String.toList_ofList (l := line), hnil]
  rfl

theorem Shows.flush_line (h : s.Shows ⟨w, suppressed, onNewLine, waiting? line⟩)
    (hline : Unbroken line) (haround : s.nesting.around = ⟨true, false⟩) :
    ∃ suppressed' onNewLine', s.flush.Shows
      ⟨w ++ escapeSpan ⟨true, false, onNewLine, false⟩ line, suppressed', onNewLine', none⟩ := by
  by_cases hnil : line = []
  · rw [waiting?, if_pos hnil] at h
    refine ⟨suppressed, onNewLine, h.modify (f := (·.flush s.nesting.around)) ?_⟩
    rw [Printer.flush_of_none _ h.root.pending, hnil, Escape.escapeSpan_nil, List.append_nil]
    exact h.root
  · rw [waiting?, if_neg hnil] at h
    have hflush := h.flush (isLine_ofList hline hnil) haround
    rw [String.toList_ofList] at hflush
    exact ⟨false, false, hflush⟩

/-- A hard break escapes the line, and the next text starts one. -/
theorem Shows.break_line (h : s.Shows ⟨w, suppressed, onNewLine, waiting? line⟩)
    (hline : Unbroken line) (haround : s.nesting.around = ⟨true, false⟩) :
    (s.print "  \n").Shows ⟨w ++ escapeSpan ⟨true, false, onNewLine, false⟩ line ++
      [' ', ' ', '\n'], false, true, none⟩ := by
  obtain ⟨suppressed', onNewLine', hflush⟩ := h.flush_line hline haround
  have hprint := hflush.print "  \n" (by decide) (fun _ => by decide)
  rw [print_flush] at hprint
  exact hprint

theorem intercalate_cons {a : List Char} {rest : List (List Char)} (h : rest ≠ []) :
    List.intercalate ['\n'] (a :: rest) = a ++ '\n' :: List.intercalate ['\n'] rest := by
  rw [List.intercalate_cons_of_ne_nil h]
  simp

/-- The tokens of a text that a paragraph holds are written line by line. -/
theorem exists_steps_lines (style : Style) (ks : List Text.Token) : ∀ {line : List Char}
    {s : Session} {w : List Char} {suppressed onNewLine : Bool},
    s.Shows ⟨w, suppressed, onNewLine, waiting? line⟩ → Unbroken line →
    (∀ k ∈ ks, (∀ bs, k ≠ .lineBreak bs) → k.chars ≠ [] ∧ Unbroken k.chars) →
    s.nesting.around = ⟨true, false⟩ →
    ∃ t, steps style s (ks.map fun k => .leaf (.ofToken k)) = .ok t ∧ t.flush.written.toList =
      w ++ List.intercalate ['\n'] (Escape.brokenLines onNewLine (Text.Token.lines line ks)) := by
  induction ks with
  | nil =>
    intro line s w suppressed onNewLine h hline _ haround
    obtain ⟨suppressed', onNewLine', hflush⟩ := h.flush_line hline haround
    refine ⟨s, rfl, hflush.root.written.trans ?_⟩
    rw [Text.Token.lines, Escape.brokenLines, List.intercalate_singleton]
  | cons k ks ih =>
    intro line s w suppressed onNewLine h hline hks haround
    have hrest := fun l hl => hks l (List.mem_cons_of_mem k hl)
    by_cases hbreak : ∃ bs, k = .lineBreak bs
    · obtain ⟨bs, rfl⟩ := hbreak
      have hwrite : writeLeaf style s .newLine = .ok (s.print "  \n") := by
        have hin : s.nesting.isInLine = true := congrArg Surroundings.inLine haround
        rw [writeLeaf, hin]
        rfl
      have hnext : Shows { s.print "  \n" with
          nesting := { s.nesting with previous := Nesting.completes .newLine } }
          ⟨w ++ escapeSpan ⟨true, false, onNewLine, false⟩ line ++ [' ', ' ', '\n'], false, true,
            waiting? []⟩ := (h.break_line hline haround).of_eq rfl
      obtain ⟨t, ht, hwritten⟩ := ih hnext (List.forall_mem_nil _) hrest haround
      refine ⟨t, (steps_cons (step_leaf hwrite)).trans ht, hwritten.trans ?_⟩
      obtain ⟨next, more, hlines⟩ := List.exists_cons_of_ne_nil (Text.Token.lines_ne_nil [] ks)
      rw [Text.Token.lines, hlines, Escape.brokenLines,
        intercalate_cons (Escape.brokenLines_ne_nil true (List.cons_ne_nil next more))]
      simp
    · have hk : ∀ bs, k ≠ .lineBreak bs := not_exists.1 hbreak
      obtain ⟨hne, hchars⟩ := hks k (by simp) hk
      have hmore := h.delay_more (String.ofList k.chars)
      have hwaits : some ((waiting? line).getD "" ++ String.ofList k.chars) =
          waiting? (line ++ k.chars) := by
        rw [getD_waiting?, waiting?, if_neg (by simp [hne]), String.ofList_append]
      rw [hwaits] at hmore
      have hnext : Shows { s.delay (String.ofList k.chars) with
          nesting := { s.nesting with previous := Nesting.completes (.ofToken k) } }
          ⟨w, suppressed, onNewLine, waiting? (line ++ k.chars)⟩ := hmore.of_eq rfl
      have hboth : Unbroken (line ++ k.chars) := fun c hc =>
        (List.mem_append.1 hc).elim (hline c) (hchars c)
      obtain ⟨t, ht, hwritten⟩ := ih hnext hboth hrest haround
      refine ⟨t, (steps_cons (step_leaf (writeLeaf_ofToken style hk s))).trans ht, ?_⟩
      rwa [Text.Token.lines_cons hk]

end Session

/-! ## Where a paragraph begins -/

namespace Printer

variable {p q : Printer} {v : Page} {a : Surroundings}

/-- What a printer has written and what waits on it, with its flags. -/
def page (p : Printer) : Page := ⟨p.written.toList, p.suppressBreaks, p.onNewLine, p.pending⟩

theorem Shows.extends (h : p.Shows v) (k : Extends .none p q) : q.Shows q.page := by
  refine ⟨?_, Bool.eq_false_iff.2 fun he => ?_, rfl, rfl, rfl, rfl⟩
  · simpa [Held.none, h.linePrefixes] using k.linePrefixes
  · rcases k.escapeSpaces he with hno | hno
    · cases hno
    · rw [h.escapeSpaces] at hno
      cases hno

theorem suppressBreaks_flush (h : p.suppressBreaks = false) (a : Surroundings) :
    (p.flush a).suppressBreaks = false := by
  unfold flush
  split
  · exact h
  · rename_i text _
    by_cases hpassed : passed { p with pending := none, flushes := p.flushes + 1 }
        (Escape.markdown (p.context a) text) = []
    · rwa [write_of_passed_nil hpassed]
    · rw [write_of_passed_ne hpassed]

/-- Breaks that are written end the page where a line starts. -/
theorem startsLine_print (h : p.Shows v) (hs : p.suppressBreaks = false) :
    lastLine (p.print a "\n\n").written.toList = [] ∧ (p.print a "\n\n").onNewLine = true := by
  have hflush := h.extends (Extends.flush p a)
  rw [page, suppressBreaks_flush hs a, pending_flush] at hflush
  have hwrite := @Printer.Shows.write _ _ _ _ "\n\n" hflush (by decide) nofun
  have hbreaks : (p.flush a).written.toList ++ "\n\n".toList =
      ((p.flush a).written.toList ++ ['\n']) ++ ['\n'] := by simp
  refine ⟨?_, hwrite.onNewLine⟩
  rw [print, hwrite.written, hbreaks, lastLine_append_break _ [] List.not_mem_nil]

end Printer

namespace Session

variable {style : Style} {s t : Session} {v : Page} {blocks : List Node}

theorem Shows.extends (h : s.Shows v) (k : s.printers.Extends .none t.printers) :
    t.Shows t.printers.root.page := by
  have hnil := k.captures_eq_nil h.captures
  have hroot := k.active
  rw [PrinterStack.active_eq_root h.captures, PrinterStack.active_eq_root hnil] at hroot
  exact ⟨hnil, h.root.extends hroot⟩

/-- After some blocks of a document nothing is open, though text may wait. -/
theorem shows_of_run (h : steps style (start style) (eventsAll blocks) = .ok s) :
    s.Shows s.printers.root.page ∧ ∀ k, s.nesting.count k = 0 := by
  have hstays := stays_of_eventsAll (fun k _ => stays_of_steps k) (Int.le_refl 0) h
  have hstart : (start style).Shows (start style).printers.root.page :=
    ⟨rfl, rfl, rfl, rfl, rfl, rfl, rfl⟩
  exact ⟨hstart.extends hstays.printers, fun k =>
    (hstays.nesting.counts k).trans ((neutral_start style).counters k)⟩

/-- The page ends where a line starts, and what is written next is escaped as the start of one. -/
structure StartsLine (s : Session) : Prop where
  line : lastLine s.written.toList = []
  onNewLine : s.printers.root.onNewLine = true

/-- Nothing is written, nothing waits, and no table was entered. -/
structure Untouched (s : Session) : Prop where
  written : s.written = ""
  pending : s.printers.root.pending = none
  onNewLine : s.printers.root.onNewLine = true

theorem shows_entered_paragraph (h : s.Shows v) (q : Option Parameters) :
    (s.entered style (.paragraph q)).Shows (s.entered style (.paragraph q)).printers.root.page ∧
      (s.entered style (.paragraph q)).printers.root.pending = none := by
  have hwrites := @writes_writeEnter { s with nesting := s.nesting.enter (.paragraph q) } style
    (.paragraph q) id nofun
  have hshow : (s.entered style (.paragraph q)).Shows _ := h.extends hwrites.printers
  have hsettled : (s.entered style (.paragraph q)).Settled := settled_print _ "\n\n"
  rw [Settled, PrinterStack.active_eq_root hshow.captures] at hsettled
  exact ⟨hshow, hsettled⟩

theorem startsLine_entered_paragraph (h : s.Shows v) (q : Option Parameters)
    (hs : s.printers.root.suppressBreaks = false ∨ s.Untouched) :
    (s.entered style (.paragraph q)).StartsLine := by
  have hroot : (s.entered style (.paragraph q)).printers.root =
      s.printers.root.print (s.nesting.enter (.paragraph q)).around "\n\n" := by
    simp [entered, writeEnter, emptyLine, print, PrinterStack.print, PrinterStack.modify,
      PrinterStack.setActive, PrinterStack.active, h.captures]
  by_cases hsuppress : s.printers.root.suppressBreaks = false
  · have hlines := Printer.startsLine_print (a := (s.nesting.enter (.paragraph q)).around) h.root
      hsuppress
    rw [← hroot] at hlines
    exact ⟨hlines.1, hlines.2⟩
  · obtain ⟨hwritten, hpending, hline⟩ := hs.resolve_left hsuppress
    have hsame : (s.entered style (.paragraph q)).printers.root = s.printers.root := by
      rw [hroot]
      exact Printer.print_of_suppressed _ (by simpa using hsuppress) hpending (by simp)
    refine ⟨?_, hsame ▸ hline⟩
    rw [written, hsame, ← written, hwritten]
    rfl

/-- A text as it is written in a paragraph. -/
def body (s : Session) (text : String) : List Char :=
  List.intercalate ['\n'] (Escape.brokenLines s.printers.root.onNewLine (Text.lines text))

/-- The lines of the page that a text in a paragraph comes to stand on. -/
def bodyLines (s : Session) (text : String) : List (List Char) :=
  (lastLine s.written.toList ++ s.body text).splitOn '\n'

theorem exists_steps_body (text : String) (h : s.Shows s.printers.root.page)
    (hs : s.printers.root.pending = none) (haround : s.nesting.around = ⟨true, false⟩) :
    ∃ t, steps style s (eventsAll [.text text]) = .ok t ∧
      t.flush.written.toList = s.written.toList ++ s.body text := by
  rw [Printer.page, hs] at h
  have hwaits : s.Shows ⟨_, _, _, waiting? []⟩ := h
  rw [eventsAll, eventsAll, List.append_nil]
  exact exists_steps_lines style (Text.tokens text) hwaits (List.forall_mem_nil _)
    (fun k hk hne => Text.Token.chars_spec hk hne) haround

theorem break_not_mem_lastLine (cs : List Char) : '\n' ∉ lastLine cs := by
  intro hmem
  have := List.mem_takeWhile_imp (List.mem_reverse.1 hmem)
  simp at this

/-- The first line begins with what the page ends in. -/
theorem bodyLines_eq (s : Session) (text : String) : ∃ first rest,
    Escape.brokenLines s.printers.root.onNewLine (Text.lines text) = first :: rest ∧
      s.bodyLines text = (lastLine s.written.toList ++ first) :: rest := by
  obtain ⟨first, rest, hlines⟩ := List.exists_cons_of_ne_nil
    (Escape.brokenLines_ne_nil s.printers.root.onNewLine
      (Text.Token.lines_ne_nil [] (Text.tokens text)))
  have hunbroken : ∀ l ∈ Text.lines text, Unbroken l := Text.Token.unbroken_lines nofun
    fun k hk hne => (Text.Token.chars_spec hk hne).2
  have hbroken := Escape.break_not_mem_brokenLines s.printers.root.onNewLine hunbroken
  rw [Text.lines, hlines] at hbroken
  refine ⟨first, rest, hlines, ?_⟩
  have hjoin : lastLine s.written.toList ++ s.body text =
      List.intercalate ['\n'] ((lastLine s.written.toList ++ first) :: rest) := by
    rw [body, Text.lines, hlines]
    cases rest <;> simp
  rw [bodyLines, hjoin, List.splitOn_intercalate '\n' (List.forall_mem_cons.2 ⟨?_, ?_⟩)
    (List.cons_ne_nil _ _)]
  · rw [List.mem_append, not_or]
    exact ⟨break_not_mem_lastLine _, hbroken first (by simp)⟩
  · exact fun l hl => hbroken l (List.mem_cons_of_mem _ hl)

/-- On the lines of a paragraph only a mark before a hard break is live. -/
theorem exists_mark_of_bodyLines {text : String} {i : Nat} {line : List Char}
    (hline : (s.bodyLines text)[i]? = some line) (hstart : i = 0 → s.StartsLine)
    (hlive : IsLive line) :
    i + 1 < (Text.lines text).length ∧ ∃ mark, IsLoneMark mark ∧ line = mark ++ [' ', ' '] := by
  obtain ⟨first, rest, hlines, hbody⟩ := s.bodyLines_eq text
  have hbroken : (Escape.brokenLines s.printers.root.onNewLine (Text.lines text))[i]? =
      some line := by
    rw [hbody] at hline
    rw [hlines]
    rcases i with _ | i
    · rwa [(hstart rfl).line, List.nil_append] at hline
    · exact hline
  exact Escape.exists_mark_of_isLive hbroken (fun hi => (hstart hi).onNewLine) hlive

end Session

/-- A paragraph with a dash on its first line. -/
def loneDash : Node := .document [.paragraph [.text "-\nb"] .empty] .empty

theorem regular_loneDash (style : Style) : loneDash.Regular style := by
  have hnodes : loneDash.descendants = [.paragraph [.text "-\nb"] .empty, .text "-\nb"] := rfl
  constructor <;> rw [Node.Everywhere, hnodes] <;> simp only [List.forall_mem_cons, loneDash]
  · simp [Node.Fits, Node.children, Node.place, Node.room, Node.wrap?, Container.place,
      Container.room]
  · simp [Node.SpanValid]
  · simp [Node.Labelled]
  · simp [Node.CellsPlain, Node.IsCell]

namespace Node

variable {style : Style} {blocks : List Node} {text : String} {p q : Parameters}

/-- The lines of a last paragraph, from the session before it on. -/
theorem exists_of_render_paragraph {markdown : String}
    (h : (document (blocks ++ [.paragraph [.text text] q]) p).render style = .ok markdown) :
    ∃ s u, Session.run style (.enter (.document p) :: eventsAll blocks) = .ok s ∧
      u = s.entered style (.paragraph q) ∧
      markdown = style.options.finish (u.written ++ String.ofList (u.body text)) ∧
      (s.printers.root.suppressBreaks = false ∨ s.Untouched → u.StartsLine) := by
  rcases hsession : (document (blocks ++ [.paragraph [.text text] q]) p).session style with f | f
  · rw [render, hsession] at h
    cases h
  rw [render_of_session hsession, Except.ok.injEq] at h
  have hrun := hsession
  rw [session, events, Event.around, List.cons_append, Session.run_document, eventsAll_append,
    List.append_assoc] at hrun
  obtain ⟨s, hs, hrest⟩ := Session.exists_of_steps_append hrun
  rw [eventsAll, eventsAll, List.append_nil, events] at hrest
  obtain ⟨v, hparagraph, hleave⟩ := Session.exists_of_steps_append hrest
  obtain ⟨t, ht, hend⟩ := Session.exists_of_steps_around hparagraph
  obtain ⟨hshow, hcounts⟩ := Session.shows_of_run hs
  obtain ⟨hentered, hpending⟩ := @Session.shows_entered_paragraph style s _ hshow (some q)
  refine ⟨s, s.entered style (.paragraph q), (Session.run_document style p _).trans hs, rfl, ?_,
    Session.startsLine_entered_paragraph hshow (some q)⟩
  have haround : (s.entered style (.paragraph q)).nesting.around = ⟨true, false⟩ := by
    have hin : s.nesting.inLine = 0 := hcounts .inLine
    have htables : s.nesting.tables = 0 := hcounts .tables
    rw [(Session.entered_spec style s _).1]
    simp [Nesting.around, Nesting.isInLine, Nesting.enter, hin, htables]
  obtain ⟨t', ht', hwritten⟩ := Session.exists_steps_body text hentered hpending haround
  rw [ht, Except.ok.injEq] at ht'
  subst ht'
  -- Leaving the paragraph escapes its last line, and leaving the document finds nothing waiting.
  obtain ⟨x, m, hx, -, rfl⟩ := Session.exists_of_step_leave hend
  obtain ⟨y, n, hy, -, rfl⟩ := Session.exists_of_step_leave (Session.step_of_steps_singleton hleave)
  cases hx
  cases hy
  have hlist : (s.entered style (.paragraph q)).written ++
      String.ofList ((s.entered style (.paragraph q)).body text) = t.flush.written := by
    rw [← String.toList_inj, String.toList_append, String.toList_ofList, hwritten]
  have hsettled : Session.Settled { t.flush with nesting := m } := Session.settled_flush t
  have hsame := congrArg Session.written (Session.flush_of_settled hsettled)
  rw [← h, hlist]
  exact congrArg style.options.finish hsame

/-- The lines of a paragraph at the end of a document, whose text may have any line breaks. The
first one starts the line unless the break before it is dropped, which is so while breaks are
suppressed and something is written. A line that starts as one is live only by the spaces of a hard
break. -/
theorem paragraph_lines : ((document (blocks ++ [.paragraph [.text text] q]) p).Tabular style →
      (document (blocks ++ [.paragraph [.text text] q]) p).Everywhere TablesApart →
      ∃ markdown,
        (document (blocks ++ [.paragraph [.text text] q]) p).render style = .ok markdown) ∧
    ∀ markdown, (document (blocks ++ [.paragraph [.text text] q]) p).render style = .ok markdown →
      ∃ s u, Session.run style (.enter (.document p) :: eventsAll blocks) = .ok s ∧
        u = s.entered style (.paragraph q) ∧
        markdown = style.options.finish (u.written ++ String.ofList (u.body text)) ∧
        (s.printers.root.suppressBreaks = false ∨ s.Untouched → u.StartsLine) ∧
        ∀ i line, (u.bodyLines text)[i]? = some line → (i = 0 → u.StartsLine) → IsLive line →
          i + 1 < (Text.lines text).length ∧
            ∃ mark, IsLoneMark mark ∧ line = mark ++ [' ', ' '] := by
  refine ⟨fun htabular hapart => ?_, fun markdown hrender => ?_⟩
  · obtain ⟨s, hs⟩ := Session.exists_session_of_apart htabular hapart nofun nofun
    exact ⟨_, render_of_session hs⟩
  · obtain ⟨s, u, hs, hu, hmarkdown, hstart⟩ := exists_of_render_paragraph hrender
    exact ⟨s, u, hs, hu, hmarkdown, hstart, fun i line => Session.exists_mark_of_bodyLines⟩

theorem paragraph_lines_loneDash : loneDash.Tabular (.standard {}) ∧
    loneDash.Everywhere TablesApart ∧ ∃ markdown,
      loneDash.render (.standard {}) = .ok markdown ∧
        (Session.entered (.standard {}) (.start (.standard {}))
          (.paragraph (some .empty))).StartsLine ∧
        IsLive "-  ".toList ∧ ∃ mark, IsLoneMark mark ∧ "-  ".toList = mark ++ [' ', ' '] := by
  have htabular : loneDash.Tabular (.standard {}) := tabular_of_regular (regular_loneDash _)
  have hapart : loneDash.Everywhere TablesApart := by
    simp [Everywhere, TablesApart, loneDash, IsTable, descendants, descendantsAll]
  have hlive : IsLive "-  ".toList := by decide +kernel
  obtain ⟨hrenders, hpage⟩ := @paragraph_lines (.standard {}) [] "-\nb" .empty .empty
  obtain ⟨markdown, hmarkdown⟩ := hrenders htabular hapart
  obtain ⟨s, u, hs, rfl, -, hstart, hlines⟩ := hpage markdown hmarkdown
  obtain rfl : Session.start (.standard {}) = s := by
    rw [Session.run_document] at hs
    exact Except.ok.inj hs
  have hu := hstart (Or.inr ⟨rfl, rfl, rfl⟩)
  obtain ⟨-, hmark⟩ := hlines 0 _ (by decide +kernel) (fun _ => hu) hlive
  exact ⟨htabular, hapart, markdown, hmarkdown, hu, hlive, hmark⟩

end Node

/-- The spaces of the break come after the dash was looked at, and make it the bullet of an item. -/
theorem loneDash_live : (loneDash.render (.standard {})).toOption = some "-  \nb" ∧
    IsLive "-  ".toList := by
  decide +kernel

end Markwright
