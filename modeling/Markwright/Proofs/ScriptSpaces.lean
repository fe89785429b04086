import Markwright.Proofs.Cutting
import Markwright.Proofs.Layers
import Markwright.Proofs.ParagraphLines

/-!
# Spaces inside scripts

Each printer escapes spaces from the beginning of a superscript or a subscript to the next end of
one, whichever script ends there, and the printer of a label begins without. So what the events say
(`ScriptMarks`) is what the printers do (`Session.follows_step`), and a space or a tab of a text
comes out escaped if a script was begun last on the page that it is written on, and bare if not
(`Node.script_spaces`): behind a script that ends within another one, and in the label of a link
within a script, it is bare.
-/

namespace Markwright

open Escape (escapeSpan spell isSpacing)
open Session (escapesSpaces)

/-! ## What the events say -/

/-- The links that are open, and for the page that is written and for those below it whether a
script was begun on it last, rather than ended or none at all. -/
structure ScriptMarks where
  links : Int
  begun : List Bool

namespace ScriptMarks

/-- No link is open, and no script has begun. -/
def start : ScriptMarks := ⟨0, [false]⟩

/-- A script has begun on the page that is written, or one has ended. -/
def mark (m : ScriptMarks) (b : Bool) : ScriptMarks := { m with begun := b :: m.begun.tail }

/-- Scripts are marked on the page that is written. The outermost link has a page of its own, if it
does not stand free. -/
def after (m : ScriptMarks) : Event → ScriptMarks
  | .enter (.format f _) => if escapesSpaces f then m.mark true else m
  | .leave (.format f _) => if escapesSpaces f then m.mark false else m
  | .enter (.link _ freeStanding _) =>
    ⟨m.links + 1, if m.links < 1 ∧ !freeStanding then false :: m.begun else m.begun⟩
  | .leave (.link _ freeStanding _) =>
    ⟨m.links - 1, if m.links = 1 ∧ !freeStanding then m.begun.tail else m.begun⟩
  | _ => m

variable {m : ScriptMarks} {e : Event}

theorem links_after (m : ScriptMarks) (e : Event) :
    (m.after e).links = m.links + e.change .links := by
  have hmark : ∀ b : Bool, (m.mark b).links = m.links := fun _ => rfl
  cases e with
  | enter c | leave c =>
    cases c
    case format f _ => by_cases hf : escapesSpaces f <;>
      simp [after, hf, hmark, Event.change, Container.weight, Container.counter?]
    all_goals simp [after, Event.change, Container.weight, Container.counter?, Int.sub_eq_add_neg]
  | leaf l => simp [after, Event.change]

theorem links_foldl (events : List Event) : ∀ m : ScriptMarks,
    (events.foldl after m).links = m.links + netChange .links events := by
  induction events with
  | nil => exact fun m => by simp [netChange]
  | cons e rest ih =>
    intro m
    rw [List.foldl_cons, ih, links_after]
    simp [netChange, Int.add_assoc]

end ScriptMarks

/-- Behind the events a script was begun last on the page that is written. -/
def scriptBegun (before : List Event) : Bool :=
  (before.foldl ScriptMarks.after .start).begun.headD false

/-- Scripts and links, which change what is done with spaces. -/
def Event.TurnsScripts : Event → Prop
  | .enter (.format f _) | .leave (.format f _) => escapesSpaces f = true
  | .enter (.link ..) | .leave (.link ..) => True
  | _ => False

namespace ScriptMarks

variable {m : ScriptMarks} {e : Event}

theorem after_of_not_turns (he : ¬ e.TurnsScripts) : m.after e = m := by
  cases e with
  | enter c | leave c =>
    cases c
    case format => exact if_neg he
    case link => exact absurd trivial he
    all_goals rfl
  | leaf => rfl

theorem foldl_after_of_not_turns : ∀ {events : List Event}, (∀ e ∈ events, ¬ e.TurnsScripts) →
    events.foldl after m = m
  | [], _ => rfl
  | e :: rest, h => by
    rw [List.foldl_cons, after_of_not_turns (h e (by simp))]
    exact foldl_after_of_not_turns fun e' he' => h e' (by simp [he'])

end ScriptMarks

section ScriptBegun

variable {before between : List Event} {f : Format} {q : Option Parameters}

theorem scriptBegun_append (h : ∀ e ∈ between, ¬ e.TurnsScripts) :
    scriptBegun (before ++ between) = scriptBegun before := by
  rw [scriptBegun, List.foldl_append, ScriptMarks.foldl_after_of_not_turns h, scriptBegun]

theorem scriptBegun_cons (e : Event) (h : ∀ e ∈ between, ¬ e.TurnsScripts) :
    scriptBegun (before ++ e :: between) =
      ((before.foldl ScriptMarks.after .start).after e).begun.headD false := by
  rw [List.append_cons, scriptBegun_append h, scriptBegun, List.foldl_concat]

theorem scriptBegun_append_tokens (ks : List Text.Token) :
    scriptBegun (before ++ ks.map fun k => .leaf (.ofToken k)) = scriptBegun before := by
  refine scriptBegun_append fun e he => ?_
  obtain ⟨k, -, rfl⟩ := List.mem_map.1 he
  exact id

/-- In a script, as long as no script and no link begins or ends. -/
theorem scriptBegun_enter (h : ∀ e ∈ between, ¬ e.TurnsScripts) (hf : escapesSpaces f = true) :
    scriptBegun (before ++ .enter (.format f q) :: between) = true := by
  rw [scriptBegun_cons _ h, ScriptMarks.after, if_pos hf]
  rfl

/-- Behind a script, even where it stood in another one. -/
theorem scriptBegun_leave (h : ∀ e ∈ between, ¬ e.TurnsScripts) (hf : escapesSpaces f = true) :
    scriptBegun (before ++ .leave (.format f q) :: between) = false := by
  rw [scriptBegun_cons _ h, ScriptMarks.after, if_pos hf]
  rfl

/-- At the beginning of a label, even where the link stands in a script. -/
theorem scriptBegun_link {r : Reference} (h : ∀ e ∈ between, ¬ e.TurnsScripts)
    (hlinks : netChange .links before < 1) :
    scriptBegun (before ++ .enter (.link r false q) :: between) = false := by
  have hopen : (before.foldl ScriptMarks.after .start).links < 1 := by
    rwa [ScriptMarks.links_foldl, ScriptMarks.start, Int.zero_add]
  rw [scriptBegun_cons _ h, ScriptMarks.after, if_pos ⟨hopen, rfl⟩]
  rfl

end ScriptBegun

/-! ## What the printers do -/

namespace Printer

variable (p : Printer)

theorem escapeSpaces_write (s : String) : (p.write s).escapeSpaces = p.escapeSpaces := by
  by_cases h : p.passed s = []
  · rw [write_of_passed_nil h]
  · rw [write_of_passed_ne h]

theorem escapeSpaces_flush (around : Surroundings) :
    (p.flush around).escapeSpaces = p.escapeSpaces := by
  unfold flush
  split
  · rfl
  · exact escapeSpaces_write _ _

theorem escapeSpaces_print (around : Surroundings) (s : String) :
    (p.print around s).escapeSpaces = p.escapeSpaces :=
  (escapeSpaces_write _ s).trans (escapeSpaces_flush p around)

end Printer

namespace PrinterStack

/-- For each printer whether it escapes spaces, the one on top first. -/
def escaping (s : PrinterStack) : List Bool := s.layers.map (·.escapeSpaces)

variable {s : PrinterStack} {p : Printer}

theorem escaping_eq (s : PrinterStack) :
    s.escaping = s.active.escapeSpaces :: s.below.map (·.escapeSpaces) := by
  rw [escaping, layers_eq, List.map_cons]

theorem escaping_setActive (s : PrinterStack) (p : Printer) :
    (s.setActive p).escaping = p.escapeSpaces :: s.escaping.tail := by
  rw [escaping, layers_setActive, escaping_eq, List.map_cons, List.tail_cons]

theorem escaping_setActive_of_eq (h : p.escapeSpaces = s.active.escapeSpaces) :
    (s.setActive p).escaping = s.escaping := by
  rw [escaping_setActive, h, escaping_eq, List.tail_cons]

end PrinterStack

namespace Session

variable {style : Style} {s t u : Session} {c : Container} {e : Event} {m : ScriptMarks}

@[simp] theorem escaping_print (s : Session) (text : String) :
    (s.print text).printers.escaping = s.printers.escaping :=
  PrinterStack.escaping_setActive_of_eq (Printer.escapeSpaces_print _ _ _)

@[simp] theorem escaping_flush (s : Session) : s.flush.printers.escaping = s.printers.escaping :=
  PrinterStack.escaping_setActive_of_eq (Printer.escapeSpaces_flush _ _)

@[simp] theorem escaping_breakLine (s : Session) :
    s.breakLine.printers.escaping = s.printers.escaping := escaping_print s "\n"

@[simp] theorem escaping_emptyLine (s : Session) :
    s.emptyLine.printers.escaping = s.printers.escaping := escaping_print s "\n\n"

@[simp] theorem escaping_delay (s : Session) (text : String) :
    (s.delay text).printers.escaping = s.printers.escaping :=
  PrinterStack.escaping_setActive_of_eq rfl

@[simp] theorem escaping_pushPrefix (s : Session) (text : String) :
    (s.pushPrefix text).printers.escaping = s.printers.escaping :=
  PrinterStack.escaping_setActive_of_eq rfl

@[simp] theorem escaping_suppressBreaks (s : Session) :
    s.suppressBreaks.printers.escaping = s.printers.escaping :=
  PrinterStack.escaping_setActive_of_eq rfl

theorem escaping_popPrefix (h : s.popPrefix = .ok t) :
    t.printers.escaping = s.printers.escaping := by
  unfold popPrefix at h
  split at h
  · rename_i p hp
    cases h
    refine PrinterStack.escaping_setActive_of_eq ?_
    rw [Printer.popPrefix?_eq hp]
  · cases h

theorem escaping_separateItem (s : Session) :
    s.separateItem.printers.escaping = s.printers.escaping := by
  unfold separateItem
  split
  · dsimp only
    split <;> simp
  · rfl

theorem escaping_markFormat (s : Session) (f : Format) (markup : String) (entered : Bool) :
    (s.markFormat f markup entered).printers.escaping =
      if escapesSpaces f then entered :: s.printers.escaping.tail else s.printers.escaping := by
  by_cases hf : f = .none
  · subst hf
    rfl
  · simp only [markFormat, if_neg hf]
    split
    · rw [modifyPrinter, PrinterStack.modify, PrinterStack.escaping_setActive, escaping_print]
    · exact escaping_print s markup

theorem escaping_popCapture {text : String} (h : s.popCapture = .ok (text, t)) :
    t.printers.escaping = s.printers.escaping.tail := by
  obtain ⟨p, rest, hs, ht⟩ := exists_of_popCapture h
  rw [ht, PrinterStack.escaping, PrinterStack.escaping, PrinterStack.layers_of_captures hs]
  rfl

/-- The events say of the printers what they do. -/
structure Follows (m : ScriptMarks) (s : Session) : Prop where
  links : s.nesting.links = m.links
  escaping : s.printers.escaping = m.begun

theorem follows_start (style : Style) : Follows .start (start style) := ⟨rfl, rfl⟩

theorem escaping_entered (style : Style) (hm : Follows m s) (hc : c.place ≠ .tableRow) :
    (s.entered style c).printers.escaping = (m.after (.enter c)).begun := by
  have hsame := hm.escaping
  cases c
  case document | definitionList | tableRow => exact hsame
  case header level _ _ =>
    simp only [entered, writeEnter, ScriptMarks.after]
    split <;> simpa using hsame
  case paragraph | definitionTerm | definitionDescription | quotation =>
    simpa [entered, writeEnter, ScriptMarks.after] using hsame
  case format f _ =>
    simp only [entered, writeEnter, escaping_markFormat, hsame, ScriptMarks.after]
    split <;> rfl
  case list =>
    simp only [entered, writeEnter, ScriptMarks.after]
    split <;> simpa using hsame
  case listItem =>
    simpa [entered, writeEnter, ScriptMarks.after, escaping_separateItem] using hsame
  case table =>
    have hkept : (s.entered style (.table ‹_›)).printers.escaping = s.printers.escaping :=
      PrinterStack.escaping_setActive_of_eq rfl
    exact hkept.trans hsame
  case tableCell | tableHeadCell => exact absurd rfl hc
  case quotationLine =>
    simp only [entered, writeEnter, ScriptMarks.after]
    split <;> simpa using hsame
  case link r freeStanding q =>
    have houter : s.nesting.links + 1 < 2 ↔ m.links < 1 := by
      have hlinks := hm.links
      omega
    simp only [entered, writeEnter, ScriptMarks.after, Nesting.enter, flush, houter]
    split
    · exact congrArg (false :: ·) ((escaping_flush s).trans hsame)
    · exact (escaping_flush s).trans hsame

theorem escaping_writeLeave (hm : Follows m s) (hc : c.place ≠ .tableRow)
    (h : writeLeave style s c = .ok t) :
    t.printers.escaping = (m.after (.leave c)).begun := by
  have hsame := hm.escaping
  cases c
  case document | header | paragraph | list | quotationLine =>
    cases h
    exact (escaping_flush s).trans hsame
  case definitionList | tableRow =>
    cases h
    exact hsame
  case format f _ =>
    cases h
    simp only [escaping_markFormat, hsame, ScriptMarks.after]
    split <;> rfl
  case listItem | quotation => exact (escaping_popPrefix h).trans hsame
  case definitionTerm =>
    cases h
    exact (escaping_breakLine s).trans hsame
  case definitionDescription =>
    exact (escaping_popPrefix h).trans ((escaping_flush s).trans hsame)
  case table =>
    cases h
    simpa [leaveTable, ScriptMarks.after] using hsame
  case tableCell | tableHeadCell => exact absurd rfl hc
  case link r freeStanding q =>
    have hlinks := hm.links
    unfold writeLeave at h
    dsimp only at h
    split at h
    · rename_i hfree
      cases h
      simpa [ScriptMarks.after, hfree] using hsame
    · rename_i hfree
      split at h
      · rename_i hone
        split at h
        · cases h
        · rename_i label u hpop
          cases h
          simp [ScriptMarks.after, hfree, ← hlinks, hone, escaping_popCapture hpop, hsame]
      · rename_i hone
        cases h
        simpa [ScriptMarks.after, ← hlinks, hone] using hsame

theorem escaping_writeLeaf {l : Leaf} (h : writeLeaf style s l = .ok t) :
    t.printers.escaping = s.printers.escaping := by
  cases l
  case image r _ q =>
    unfold writeLeaf at h
    dsimp only at h
    split at h
    · cases h
    · rename_i label u hlabel
      cases h
      rw [escaping_print, printers_imageLabel hlabel]
  case call id q content inLine =>
    cases h
    cases inLine <;> simp
  case verbatim content inLine q => cases inLine <;> cases h <;> simp
  case rawText | newLine =>
    cases h
    split <;> simp
  case horizontalLine | emptyLines | word | symbol | space =>
    cases h
    simp
  case anchor =>
    cases h
    rfl

theorem follows_step (hm : Follows m s) (h : step style s e = .ok t) (he : e.IsPlain) :
    Follows (m.after e) t := by
  refine ⟨?_, ?_⟩
  · have hcount := Nesting.count_step (nesting_step h) .links
    rw [ScriptMarks.links_after, ← hm.links]
    exact hcount
  · cases e with
    | enter c =>
      cases h
      exact escaping_entered style hm he
    | leave c =>
      obtain ⟨u, n, hwrite, -, rfl⟩ := exists_of_step_leave h
      have hleft := escaping_writeLeave hm he hwrite
      exact hleft
    | leaf l =>
      obtain ⟨u, hwrite, rfl⟩ := exists_of_step_leaf h
      have hleft := (escaping_writeLeaf hwrite).trans hm.escaping
      exact hleft

theorem follows_steps {events : List Event} (hm : Follows m s)
    (hplain : ∀ e ∈ events, e.IsPlain) (h : steps style s events = .ok t) :
    Follows (events.foldl ScriptMarks.after m) t := by
  induction events generalizing m s with
  | nil =>
    cases h
    exact hm
  | cons e rest ih =>
    obtain ⟨u, hu, hrest⟩ := exists_of_steps_cons h
    exact ih (follows_step hm hu (hplain e (by simp))) (fun e' he' => hplain e' (by simp [he']))
      hrest

theorem escapeSpaces_eq_scriptBegun {before : List Event} (hplain : ∀ e ∈ before, e.IsPlain)
    (h : run style before = .ok s) : s.printers.active.escapeSpaces = scriptBegun before := by
  have hfollows := (follows_steps (follows_start style) hplain h).escaping
  rw [PrinterStack.escaping_eq] at hfollows
  rw [scriptBegun, ← hfollows]
  rfl

end Session

/-! ## Texts of a tree -/

namespace Node

/-- What a leaf of a tree queues is a token of a text, and no line break. -/
theorem break_not_mem_queued {l : Leaf} {text : String} : ∀ {n : Node}, l ∈ n.leaves →
    l.queued? = some text → '\n' ∉ text.toList
  | .text content, hl, htext => by
    obtain ⟨k, hk, rfl⟩ := List.mem_map.1 hl
    have hne : ∀ bs, k ≠ .lineBreak bs := by
      rintro bs rfl
      cases htext
    rw [Leaf.queued?_ofToken hne, Option.some.injEq] at htext
    rw [← htext, String.toList_ofList]
    exact fun hmem => ((Text.Token.chars_spec hk hne).2 _ hmem).2 rfl
  | .horizontalRule _, hl, htext | .emptyLines _, hl, htext | .call .., hl, htext
  | .verbatim .., hl, htext | .rawText .., hl, htext | .image .., hl, htext | .newLine, hl, htext
  | .anchor _, hl, htext => by
    obtain rfl := List.mem_singleton.1 hl
    cases htext

theorem isCell_of_wrap {n : Node} {c : Container} (hw : n.wrap? = some c)
    (hc : c.place = .tableRow) : n.IsCell :=
  Regular.isCell_of_place ((place_of_wrap hw).trans hc)

theorem isPlain_of_mem_events (n : Node) : (n.Everywhere fun m => ¬ m.IsCell) →
    ∀ e ∈ n.events, e.IsPlain := by
  induction n using childrenInduction with
  | step n ih =>
  intro hcells e he
  rcases hw : n.wrap? with _ | c
  · rw [events_of_leaves hw] at he
    obtain ⟨l, hl, rfl⟩ := List.mem_map.1 he
    exact fun text => break_not_mem_queued hl
  · have hplace : c.place ≠ .tableRow := fun hp => hcells.here (isCell_of_wrap hw hp)
    rw [events_of_wrap hw, Event.around, List.cons_append, List.mem_cons, List.mem_append,
      List.mem_singleton, mem_eventsAll] at he
    rcases he with rfl | ⟨k, hk, he⟩ | rfl
    · exact hplace
    · exact ih k hk (hcells.child hk) e he
    · exact hplace

/-- Without cells only an image that cannot be labelled can stop a document. -/
theorem exists_session_of_cellFree {style : Style} {n : Node}
    (hcells : n.Everywhere fun m => ¬ m.IsCell) (hlabels : n.Everywhere (Labelled style)) :
    ∃ t, n.session style = .ok t := by
  rcases hrun : n.session style with f | t
  · have hspans : n.Everywhere SpanValid := hcells.imp fun m hm => by
      cases m <;> first | exact trivial | exact absurd trivial hm
    obtain ⟨-, m, before, c, -, hat, hw, hc, -⟩ :=
      Session.leavesRowless_of_error n hspans hlabels _ f (Int.le_refl 0) hrun
    exact absurd (isCell_of_wrap hw hc) (hat.everywhere hcells).here
  · exact ⟨t, rfl⟩

end Node

/-! ## What comes out -/

namespace Session

variable {style : Style} {s t u : Session} {front back : List Char} {c : Char}

/-- A character of the text that waits comes out on a page: with the text escaped, protected or not,
and with what stands before it in the text and on the printer, in so many labels. -/
def BringsOut (s : Session) (front : List Char) (c : Char) (isProtected : Bool)
    (page : List Char) : Prop :=
  ∃ text back ctx before after x w,
    s.printers.active.pending = some text ∧ text.toList = front ++ c :: back ∧
    Escape.reading false (escapeSpan ctx text.toList) = before ++ (c, isProtected) :: after ∧
    before.map Prod.fst = front ∧
    ComesOut s.printers.below (s.printers.active.before []) (spell before) x w ∧
    x ++ w ++ spell [(c, isProtected)] <+: page

theorem exists_bringsOut {events : List Event} {text : String} (hs : s.Tidy)
    (hplain : ∀ e ∈ events, e.IsPlain) (hrun : steps style s events = .ok t)
    (hwaits : s.printers.active.pending = some text) (htext : text.toList = front ++ c :: back)
    (hc : isSpacing c = true) (hcaptures : t.printers.captures = [])
    (hsettled : t.printers.active.pending = none) :
    ∃ mid rest u, events = mid ++ rest ∧ steps style s mid = .ok u ∧
      u.BringsOut front c s.printers.active.escapeSpaces t.written.toList := by
  have hne : text ≠ "" := by
    rintro rfl
    simp at htext
  obtain ⟨mid, rest, u, more, ctx, rfl, hu, hpending, hctx, hplaced⟩ :=
    exists_placed hs hplain hrun hwaits hne hsettled
  have hchars : (text ++ more).toList = front ++ c :: (back ++ more.toList) := by simp [htext]
  obtain ⟨before, after, hread, hbefore⟩ :=
    Escape.exists_reading_of_isSpacing ctx front (back ++ more.toList) hc
  rw [← hchars, hctx] at hread
  have hspell : spell before ++ spell [(c, s.printers.active.escapeSpaces)] ++ spell after =
      escapeSpan ctx (text ++ more).toList := by
    rw [← Escape.spell_reading_escapeSpan, hread]
    simp [spell]
  have hunbroken := (hs.steps (fun e he => hplain e (List.mem_append_left _ he)) hu).unbroken
    _ hpending
  have hescaped := Escape.break_not_mem_escapeSpan ctx hunbroken
  have hshape : '\n' ∉ spell before := fun hmem => hescaped (hspell ▸ by simp [hmem])
  obtain ⟨hshown, hunmarked⟩ := Escape.spell_singleton_spec hc s.printers.active.escapeSpaces
  have hfront : u.printers.active.before [] ++ spell before ++
      spell [(c, s.printers.active.escapeSpaces)] <+:
        u.printers.active.before (escapeSpan ctx (text ++ more).toList) := by
    rw [Printer.before_eq_append _ hescaped, ← hspell]
    simp
  have hend := hplaced hshown hunmarked hshape hfront
  rw [PrinterStack.layers, hcaptures, List.nil_append] at hend
  obtain ⟨x, w, hout, hpage⟩ := hend.of_singleton
  exact ⟨mid, rest, u, rfl, hu, _, _, ctx, before, after, x, w, hpending, hchars, hread, hbefore,
    hout, hpage⟩

theorem BringsOut.finish {isProtected : Bool} {page : String}
    (h : s.BringsOut front c isProtected page.toList) (hc : isSpacing c = true) (o : Options) :
    s.BringsOut front c isProtected (o.finish page).toList := by
  obtain ⟨text, back, ctx, before, after, x, w, hpending, htext, hread, hbefore, hout, hpage⟩ := h
  refine ⟨text, back, ctx, before, after, x, w, hpending, htext, hread, hbefore, hout, ?_⟩
  refine o.isPrefix_finish hpage ?_
  obtain ⟨hne, hunmarked⟩ := Escape.spell_singleton_spec hc isProtected
  rw [List.getLast?_append_of_ne_nil _ hne]
  exact fun hlast => (hunmarked _ (List.mem_of_getLast? hlast)).1 rfl

end Session

namespace Node

variable {style : Style} {n : Node} {before : List Event} {content : String}
  {front back : List Char} {c : Char}

/-- A character of a text comes out on the page: it waits with the token that it stands in, behind
what waited before, until it is written. -/
def BringsOut (style : Style) (n : Node) (before : List Event) (content : String)
    (front : List Char) (c : Char) (isProtected : Bool) (page : String) : Prop :=
  ∃ ks k ks' inner inner' s u mid rest,
    Text.tokens content = ks ++ k :: ks' ∧ k.chars = inner ++ c :: inner' ∧
    front = ks.flatMap Text.Token.chars ++ inner ∧
    n.events = before ++ ks.map (fun k => .leaf (.ofToken k)) ++
      .leaf (.ofToken k) :: (mid ++ rest) ∧
    Session.run style (before ++ ks.map fun k => .leaf (.ofToken k)) = .ok s ∧
    Session.steps style s (.leaf (.ofToken k) :: mid) = .ok u ∧
    u.BringsOut ((s.printers.active.pending.getD "").toList ++ inner) c isProtected page.toList

theorem ne_lineBreak_of_isSpacing {k : Text.Token} (hk : k ∈ Text.tokens content)
    (hmem : c ∈ k.chars) (hc : isSpacing c = true) : ∀ bs, k ≠ .lineBreak bs := by
  rintro bs rfl
  rcases (Text.Token.lineBreak_spec hk).2 c hmem with rfl | rfl <;> cases hc

theorem bringsOut_of_session {blocks : List Node} {p : Parameters} {t : Session}
    (hcells : (document blocks p).Everywhere fun m => ¬ m.IsCell)
    (ht : (document blocks p).session style = .ok t)
    (hat : (document blocks p).At before (.text content))
    (hcontent : content.toList = front ++ c :: back) (hc : isSpacing c = true) :
    (document blocks p).BringsOut style before content front c (scriptBegun before)
      (style.options.finish t.written) := by
  obtain ⟨after, hevents⟩ := hat.exists_events
  obtain ⟨ks, k, ks', inner, inner', hks, hinner, hfront⟩ :=
    exists_of_flatMap_eq ((Text.Token.flatMap_chars content.toList).trans hcontent)
  have hk : k ∈ Text.tokens content := by simp [Text.tokens, hks]
  have hqueued := Leaf.queued?_ofToken (ne_lineBreak_of_isSpacing hk (by simp [hinner]) hc)
  have hsplit : (document blocks p).events = before ++ ks.map (fun k => .leaf (.ofToken k)) ++
      .leaf (.ofToken k) :: (ks'.map (fun k => .leaf (.ofToken k)) ++ after) := by
    have htext : (text content).events = (ks ++ k :: ks').map fun k => .leaf (.ofToken k) := by
      rw [← hks]
      rfl
    rw [hevents, htext]
    simp
  have hplain := isPlain_of_mem_events _ hcells
  have hrun := ht
  rw [session, hsplit] at hrun
  rw [hsplit] at hplain
  obtain ⟨s, hs, hrest⟩ := Session.exists_of_steps_append hrun
  obtain ⟨v, hv, hlater⟩ := Session.exists_of_steps_cons hrest
  have hbefore : ∀ e ∈ before ++ ks.map (fun k => .leaf (.ofToken k)), e.IsPlain :=
    fun e he => hplain e (List.mem_append_left _ he)
  have hleaf : (Event.leaf (.ofToken k)).IsPlain := hplain _ (by simp)
  have hspaces : v.printers.active.escapeSpaces = scriptBegun before := by
    rw [Session.escapeSpaces_eq_scriptBegun
      (List.forall_mem_append.2 ⟨hbefore, List.forall_mem_singleton.2 hleaf⟩)
      ((Session.steps_append hs).trans (Session.steps_singleton hv)),
      scriptBegun_append (List.forall_mem_singleton.2 id), scriptBegun_append_tokens]
  have hwaits := Session.pending_of_queued hv hqueued
  have hends := Session.stays_of_steps _ _ _ (Int.le_refl 0) ht
  have hchars : (s.printers.active.pending.getD "" ++ String.ofList k.chars).toList =
      (s.printers.active.pending.getD "").toList ++ inner ++ c :: inner' := by simp [hinner]
  obtain ⟨mid, rest, u, hmid, hu, hout⟩ := Session.exists_bringsOut
    (((Session.tidy_start style).steps hbefore hs).step hv hleaf)
    (fun e he => hplain e (by simp [he])) hlater hwaits hchars hc
    (hends.printers.captures_eq_nil rfl)
    (Session.settled_of_wrap (c := .document (some p)) rfl trivial ht)
  rw [hspaces] at hout
  refine ⟨ks, k, ks', inner, inner', s, u, mid, rest, hks, hinner, hfront, ?_, hs,
    (Session.steps_cons hv).trans hu, hout.finish hc style.options⟩
  rw [hsplit, hmid]

/-- The spaces and tabs of the texts of a document without cells. Each of them comes out escaped if
a script was begun last on the page that it is written on, and else bare. So it is escaped in a
script, up to the next script or link; behind a script it is bare, even in another one, and so it
is at the beginning of a label. -/
theorem script_spaces {blocks : List Node} {p : Parameters}
    (hcells : (document blocks p).Everywhere fun m => ¬ m.IsCell) :
    ((document blocks p).Everywhere (Labelled style) →
      ∃ markdown, (document blocks p).render style = .ok markdown) ∧
    (∀ markdown before content front c back,
      (document blocks p).render style = .ok markdown →
      (document blocks p).At before (.text content) →
      content.toList = front ++ c :: back → isSpacing c = true →
      (document blocks p).BringsOut style before content front c (scriptBegun before) markdown) ∧
    ∀ before between, (∀ e ∈ between, ¬ e.TurnsScripts) →
      (∀ f q, escapesSpaces f = true →
        scriptBegun (before ++ .enter (.format f q) :: between) = true ∧
        scriptBegun (before ++ .leave (.format f q) :: between) = false) ∧
      ∀ r q, netChange .links before < 1 →
        scriptBegun (before ++ .enter (.link r false q) :: between) = false := by
  refine ⟨fun hlabels => ?_, fun markdown before content front c back hrender hat hcontent hc => ?_,
    fun before between h => ⟨fun f q hf => ⟨scriptBegun_enter h hf, scriptBegun_leave h hf⟩,
      fun r q hlinks => scriptBegun_link h hlinks⟩⟩
  · obtain ⟨t, ht⟩ := exists_session_of_cellFree hcells hlabels
    exact ⟨_, render_of_session ht⟩
  · rcases ht : (document blocks p).session style with f | t
    · rw [render, ht] at hrender
      cases hrender
    · rw [render_of_session ht, Except.ok.injEq] at hrender
      exact hrender ▸ bringsOut_of_session hcells ht hat hcontent hc

end Node

/-- A superscript with a subscript in it. -/
def nestedScripts : Node :=
  .document [.paragraph [.span .superscript
    [.text "a b", .span .subscript [.text "c"] .empty, .text " d"] .empty] .empty] .empty

/-- The space before the subscript is escaped, and the one behind it is bare. -/
theorem Node.script_spaces_nestedScripts : (nestedScripts.Everywhere fun m => ¬ m.IsCell) ∧
    nestedScripts.render (.standard {}) = .ok "^a\\ b~c~ d^" ∧
    (∃ before, nestedScripts.At before (.text "a b") ∧
      nestedScripts.BringsOut (.standard {}) before "a b" ['a'] ' ' true "^a\\ b~c~ d^") ∧
    ∃ before, nestedScripts.At before (.text " d") ∧
      nestedScripts.BringsOut (.standard {}) before " d" [] ' ' false "^a\\ b~c~ d^" := by
  have hcells : nestedScripts.Everywhere fun m => ¬ m.IsCell := by
    have hnodes : nestedScripts.descendants = descendantsAll nestedScripts.children := rfl
    rw [Node.Everywhere, hnodes]
    simp [nestedScripts, Node.children, descendants, descendantsAll, IsCell]
  have hrender : nestedScripts.render (.standard {}) = .ok "^a\\ b~c~ d^" := by
    have hsome : (nestedScripts.render (.standard {})).toOption = some "^a\\ b~c~ d^" := by
      decide +kernel
    rcases h : nestedScripts.render (.standard {}) with f | markdown <;> rw [h] at hsome
    · cases hsome
    · exact congrArg Except.ok (Option.some.inj hsome)
  have hat : ∀ {front back : List Node} {k : Node}, front ++ k :: back =
      [.text "a b", .span .subscript [.text "c"] .empty, .text " d"] → nestedScripts.At
        ([.enter (.document (some .empty)), .enter (.paragraph (some .empty)),
          .enter (.format .superscript (some .empty))] ++ eventsAll front) k := by
    intro front back k hkids
    have hspan : (Node.span .superscript (front ++ k :: back) .empty).At
        (.enter (.format .superscript (some .empty)) :: (eventsAll front ++ [])) k :=
      .inside rfl rfl (.here k)
    rw [hkids, List.append_nil] at hspan
    exact @Node.At.inside _ _ _ _ [] [] _ rfl rfl (@Node.At.inside _ _ _ _ [] [] _ rfl rfl hspan)
  have hfirst := @hat [] _ _ rfl
  have hlast := @hat [.text "a b", .span .subscript [.text "c"] .empty] [] _ rfl
  have hall := fun markdown => (@script_spaces (.standard {}) _ _ hcells).2.1 markdown
  refine ⟨hcells, hrender, ⟨_, hfirst, ?_⟩, _, hlast, ?_⟩
  · exact hall _ _ _ ['a'] ' ' ['b'] hrender hfirst rfl rfl
  · exact hall _ _ _ [] ' ' ['d'] hrender hlast rfl rfl

/-- A space in the label of a link in a script is bare as well. -/
theorem innerScript_bares_spaces :
    (nestedScripts.render (.standard {})).toOption = some "^a\\ b~c~ d^" ∧
      ((Node.document [.paragraph [.span .superscript [.link ⟨"x", "url", false, .empty⟩
        [.text "a b"] false .empty] .empty] .empty] .empty).render (.standard {})).toOption =
          some "^[a b](x)^" := by
  decide +kernel

end Markwright
