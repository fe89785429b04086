import Markwright.Proofs.Entries
import Markwright.Proofs.MidLine
import Markwright.Proofs.FlatPage

/-!
# Text at the start of an item

The marker of an item leaves its printer in the middle of a line, and the line breaks that a
paragraph asks for are dropped behind it. Text that comes first in an item waits there, and nothing
is done to its printer until an event escapes it (`Printer.Idle`). So it is escaped as text in the
middle of a line, wherever in the document that event comes, and what looked like an item, a heading
or a quotation looks like one behind the marker (`Node.item_text_escaped`).
-/

namespace Markwright

open Escape (escapeSpan Marker)
open Node (eventsAll)

/-! ## Printers at which text waits -/

/-- Text may have been queued and line prefixes changed, and the line may not be new any more. -/
structure Printer.Idle (p q : Printer) : Prop extends p.SamePage q where
  suppressBreaks : q.suppressBreaks = p.suppressBreaks
  escapeSpaces : q.escapeSpaces = p.escapeSpaces
  onNewLine : q.onNewLine = true → p.onNewLine = true

namespace Printer.Idle

variable {p q r : Printer}

protected theorem refl (p : Printer) : p.Idle p := ⟨.refl p, rfl, rfl, id⟩

protected theorem trans (h : p.Idle q) (k : q.Idle r) : p.Idle r :=
  ⟨h.toSamePage.trans k.toSamePage, k.suppressBreaks.trans h.suppressBreaks,
    k.escapeSpaces.trans h.escapeSpaces, h.onNewLine ∘ k.onNewLine⟩

/-- Where text still waits nothing was flushed. -/
theorem moves (h : p.Moves q) : q.pending ≠ none → p.Idle q := by
  induction h with
  | refl => exact fun _ => .refl p
  | print _ around s _ => exact fun hq => absurd (Printer.pending_print _ around s) hq
  | flush _ around _ => exact fun hq => absurd (Printer.pending_flush _ around) hq
  | pushPrefix _ _ hnone _ | escapeSpaces _ hnone _ _ => exact fun hq => absurd hnone hq
  | leaveLine _ ih =>
    intro hq
    have hidle := ih hq
    exact ⟨⟨hidle.written, hidle.pageBlank⟩, hidle.suppressBreaks, hidle.escapeSpaces, nofun⟩

end Printer.Idle

/-- A text that begins without a line break is written as it is escaped, in all its length. -/
theorem Printer.written_flush_eq_before {p : Printer} {text : String}
    (hpending : p.pending = some text) (htext : text ≠ "")
    (hbreak : text.toList.head? ≠ some '\n') (around : Surroundings) :
    (p.flush around).written.toList =
      p.before (escapeSpan (p.context around) text.toList) := by
  have hlist : (Escape.markdown (p.context around) text).toList =
      escapeSpan (p.context around) text.toList := Escape.toList_markdown _ _
  have hne : escapeSpan (p.context around) text.toList ≠ [] :=
    Escape.escapeSpan_ne_nil _ (mt String.toList_eq_nil_iff.1 htext)
  have hhead : (escapeSpan (p.context around) text.toList).head? ≠ some '\n' := by
    intro hhead
    obtain ⟨rest, hrest⟩ := List.head?_eq_some_iff.1 hhead
    have hfront : ['\n'] <+: escapeSpan (p.context around) text.toList := ⟨rest, hrest.symm⟩
    obtain ⟨tail, htail⟩ := Escape.isPrefix_of_escapeSpan
      (List.forall_mem_singleton.2 (by decide)) hfront
    exact hbreak (by rw [← htail]; rfl)
  rw [flush, hpending]
  dsimp only
  have hpassed : passed { p with pending := none, flushes := p.flushes + 1 }
      (Escape.markdown (p.context around) text) = escapeSpan (p.context around) text.toList :=
    (passed_of_head?_ne fun _ => hlist ▸ hhead).trans hlist
  rw [written_write _ _ (hpassed ▸ hne), hpassed]
  rfl

theorem Printer.written_flush {p : Printer} {text : String} (hpending : p.pending = some text)
    (hblank : p.pageBlank = false) (htext : text ≠ "") (hbreak : text.toList.head? ≠ some '\n')
    (around : Surroundings) : (p.flush around).written.toList = p.written.toList ++
      indentBreaks p.indentation (escapeSpan (p.context around) text.toList) := by
  rw [written_flush_eq_before hpending htext hbreak, before, hblank]
  simp

namespace PrinterStack

variable {s t : PrinterStack} {p q r : Printer} {height : Nat} {e : Event}

theorem le_depth_of_atHeight? (h : s.atHeight? height = some p) : height ≤ s.depth := by
  rw [atHeight?] at h
  split at h
  · omega
  · split at h
    · assumption
    · cases h

theorem atHeight?_cons {root : Printer} {captures : List Printer} (h : height ≤ captures.length) :
    atHeight? ⟨root, p :: captures⟩ height = atHeight? ⟨root, captures⟩ height := by
  rcases Nat.eq_zero_or_pos height with rfl | hpos
  · rfl
  · have hindex : captures.length + 1 - height = (captures.length - height) + 1 := by omega
    have hmore : height ≤ depth ⟨root, p :: captures⟩ := Nat.le_succ_of_le h
    have hsame : height ≤ depth ⟨root, captures⟩ := h
    rw [atHeight?_of_le (Nat.ne_of_gt hpos) hmore, atHeight?_of_le (Nat.ne_of_gt hpos) hsame]
    simp only [depth, List.length_cons, hindex, List.getElem?_cons_succ]

theorem atHeight?_setActive_of_lt (h : height < s.depth) :
    (s.setActive p).atHeight? height = s.atHeight? height := by
  obtain ⟨root, captures⟩ := s
  rcases captures with _ | ⟨c, rest⟩
  · exact absurd h (Nat.not_lt_zero _)
  · have hle : height ≤ rest.length := Nat.le_of_lt_succ h
    exact (atHeight?_cons hle).trans (atHeight?_cons hle).symm

theorem idle_setActive (hp : s.atHeight? height = some p)
    (hq : (s.setActive r).atHeight? height = some q) (hwaits : q.pending ≠ none)
    (hr : r.pending ≠ none → s.active.Idle r) : p.Idle q := by
  rcases Nat.lt_or_eq_of_le (le_depth_of_atHeight? hp) with hlt | rfl
  · rw [atHeight?_setActive_of_lt hlt, hp] at hq
    cases hq
    exact .refl p
  · rw [atHeight?_depth] at hp
    cases hp
    rw [← depth_setActive s r, atHeight?_depth, active_setActive] at hq
    cases hq
    exact hr hwaits

/-- An event after which text waits at a height leaves the printer there alone. -/
theorem Step.idle (hst : Step e s t) (hp : s.atHeight? height = some p)
    (hq : t.atHeight? height = some q) (hwaits : q.pending ≠ none) : p.Idle q := by
  cases hst with
  | stay h => exact idle_setActive hp hq hwaits (.moves h)
  | @unindent _ _ r r' x h hx =>
    refine idle_setActive hp hq hwaits fun hr => ?_
    obtain ⟨y, -, hy⟩ := Option.map_eq_some_iff.1 hx
    obtain ⟨-, rfl⟩ := Prod.mk.inj hy
    exact (Printer.Idle.moves h hr).trans ⟨⟨rfl, rfl⟩, rfl, rfl, id⟩
  | suppress _ _ hnone => exact idle_setActive hp hq hwaits fun hr => absurd hnone hr
  | @push _ _ r h =>
    have hle : height ≤ (s.setActive r).captures.length := by
      have hdepth := le_depth_of_atHeight? hp
      rwa [← depth_setActive s r] at hdepth
    exact idle_setActive hp ((atHeight?_cons hle).symm.trans hq) hwaits (.moves h)
  | @pop _ _ p' r rest hs h =>
    have hle := le_depth_of_atHeight? hq
    rw [depth_setActive] at hle
    have hbelow : s.atHeight? height = atHeight? ⟨s.root, rest⟩ height := by
      rw [← atHeight?_cons hle, ← hs]
    exact idle_setActive (hbelow.symm.trans hp) hq hwaits (.moves h)
  | delay text => exact idle_setActive hp hq hwaits fun _ => ⟨⟨rfl, rfl⟩, rfl, rfl, id⟩

end PrinterStack

namespace Session

variable {style : Style} {s t u : Session} {text : String} {e : Event} {events : List Event}
  {height : Nat} {q : Option Parameters}

/-- The event that escapes a text finds its printer as it was, with more text queued perhaps. -/
theorem idle_of_escapedBy (h : EscapedBy style height s events u e) :
    ∀ {p : Printer} {text : String}, s.printers.atHeight? height = some p → p.pending = some text →
      ∃ more, u.printers.active.pending = some (text ++ more) ∧ p.Idle u.printers.active := by
  induction h with
  | here hdepth _ =>
    intro p text hp hpending
    rw [← hdepth, PrinterStack.atHeight?_depth] at hp
    cases hp
    exact ⟨"", by rw [hpending, String.append_empty], .refl _⟩
  | later hstep hwaits _ ih =>
    intro p text hp hpending
    obtain ⟨p', q, text', more, hp', hpending', hq, hmore⟩ := hwaits
    rw [hp] at hp'
    cases hp'
    rw [hpending] at hpending'
    cases hpending'
    obtain ⟨more', hu, hidle⟩ := ih hq hmore
    have hfirst := (printers_step hstep).idle hp hq (hmore ▸ nofun)
    exact ⟨more ++ more', by rw [hu, String.append_assoc], hfirst.trans hidle⟩

/-! ## Behind the marker of an item -/

/-- The printer is in the middle of a line, where line breaks are dropped and nothing waits. -/
structure BehindMarker (s : Session) (marker : List Char) : Prop where
  pending : s.printers.active.pending = none
  suppressBreaks : s.printers.active.suppressBreaks = true
  onNewLine : s.printers.active.onNewLine = false
  pageBlank : s.printers.active.pageBlank = false
  written : ∃ page, s.printers.active.written.toList = page ++ marker

theorem BehindMarker.of_printers {marker : List Char} (h : s.BehindMarker marker)
    (ht : t.printers = s.printers) : t.BehindMarker marker :=
  ⟨ht ▸ h.pending, ht ▸ h.suppressBreaks, ht ▸ h.onNewLine, ht ▸ h.pageBlank, ht ▸ h.written⟩

theorem behindMarker_item (style : Style) (s : Session) (q : Option Parameters) :
    (s.entered style (.listItem q)).BehindMarker (s.entryMarker style (.listItem q)).toList := by
  have hbreak := break_not_mem_entryMarker style s (.listItem q)
  obtain ⟨p, hpending, -, hactive⟩ := exists_active_entered_item style s q
  have hpassed : p.passed (s.entryMarker style (.listItem q)) =
      (s.entryMarker style (.listItem q)).toList :=
    Printer.passed_of_head?_ne fun _ hhead => hbreak (List.mem_of_head? hhead)
  have hne : p.passed (s.entryMarker style (.listItem q)) ≠ [] :=
    hpassed ▸ entryMarker_ne_nil style s _
  refine ⟨?_, by rw [hactive], ?_, ?_, _, written_entered_item style s q⟩
  · rw [hactive]
    exact (Printer.pending_write p _).trans hpending
  · rw [hactive, Printer.pushPrefix, Printer.write_of_passed_ne hne, hpassed]
    exact beq_false_of_ne fun hlast => hbreak (List.mem_of_getLast? hlast)
  · rw [hactive, Printer.pushPrefix, Printer.write_of_passed_ne hne]

/-- The line breaks before a paragraph are dropped behind a marker. -/
theorem BehindMarker.paragraph {marker : List Char} (h : s.BehindMarker marker)
    (style : Style) (q : Option Parameters) :
    (s.entered style (.paragraph q)).printers = s.printers := by
  have hsame : s.printers.active.print (s.nesting.enter (.paragraph q)).around "\n\n" =
      s.printers.active :=
    Printer.print_of_suppressed _ h.suppressBreaks h.pending (by simp)
  change s.printers.print (s.nesting.enter (.paragraph q)).around "\n\n" = s.printers
  rw [PrinterStack.print, PrinterStack.modify, hsame, PrinterStack.setActive_active]

theorem active_delay (s : Session) (text : String) :
    (s.delay text).printers.active = s.printers.active.delay text := by
  rw [delay, modifyPrinter, PrinterStack.modify, PrinterStack.active_setActive]

/-- Text that waits behind a marker is written as it is escaped in the middle of a line. -/
theorem BehindMarker.exists_shown {marker : List Char} (h : s.BehindMarker marker)
    (htext : IsLine text) (hby : EscapedBy style t.printers.depth t events u e)
    (hactive : t.printers.active = s.printers.active.delay text) :
    ∃ more, u.printers.active.pending = some (text ++ more) ∧
      (u.page e).written.toList = t.printers.active.written.toList ++
        Printer.indentBreaks u.printers.active.indentation
          (escapeSpan ⟨(u.nesting.atWriting e).around.inLine,
            (u.nesting.atWriting e).around.inTable, false,
            t.printers.active.escapeSpaces⟩ (text ++ more).toList) := by
  have hpending : t.printers.active.pending = some text := by
    rw [hactive, Printer.delay, h.pending]
    simp
  obtain ⟨more, hmore, hidle⟩ := idle_of_escapedBy hby (PrinterStack.atHeight?_depth _) hpending
  have hnew : u.printers.active.onNewLine = false := by
    refine Bool.eq_false_iff.2 fun hu => ?_
    have hline := hidle.onNewLine hu
    rw [hactive, Printer.delay, h.onNewLine] at hline
    cases hline
  have hblank : u.printers.active.pageBlank = false := by
    rw [hidle.pageBlank, hactive]
    exact h.pageBlank
  have hne : text ++ more ≠ "" := fun hnil => htext.1 (String.append_eq_empty_iff.1 hnil).1
  have hbreak : (text ++ more).toList.head? ≠ some '\n' := by
    obtain ⟨c, cs, hcs⟩ := List.exists_cons_of_ne_nil (FlatBlock.toList_ne_nil htext)
    rw [String.toList_append, hcs]
    exact fun hc => (htext.2 c (by simp [hcs])).2 (Option.some.inj hc)
  have hcontext : u.printers.active.context (u.nesting.atWriting e).around =
      ⟨(u.nesting.atWriting e).around.inLine, (u.nesting.atWriting e).around.inTable, false,
        t.printers.active.escapeSpaces⟩ := by
    rw [Printer.context, hnew, hidle.escapeSpaces]
  have hwritten := Printer.written_flush hmore hblank hne hbreak (u.nesting.atWriting e).around
  rw [hcontext, hidle.written] at hwritten
  exact ⟨more, hmore, hwritten⟩

end Session

namespace Node

/-- The item begins with the text, in it directly or in a paragraph, behind the given events. -/
inductive BeginsWith (text : String) : Node → List Event → Prop where
  | direct (rest : List Node) (q : Parameters) :
      BeginsWith text (.listItem (.text text :: rest) q) [.enter (.listItem (some q))]
  | paragraph (kids rest : List Node) (p q : Parameters) :
      BeginsWith text (.listItem (.paragraph (.text text :: kids) p :: rest) q)
        [.enter (.listItem (some q)), .enter (.paragraph (some p))]

variable {style : Style} {blocks : List Node} {p : Parameters} {m : Node} {text : String}
  {before opening : List Event} {s : Session}

theorem BeginsWith.exists_events (h : m.BeginsWith text opening) :
    ∃ after, m.events = opening ++ textEvents text ++ after := by
  cases h with
  | direct rest q => exact ⟨eventsAll rest ++ [.leave (.listItem (some q))], by
      simp [events, eventsAll, Event.around]⟩
  | paragraph kids rest p q => exact ⟨eventsAll kids ++ .leave (.paragraph (some p)) ::
      (eventsAll rest ++ [.leave (.listItem (some q))]), by simp [events, eventsAll, Event.around]⟩

/-- The text comes behind the marker of its item. -/
theorem BeginsWith.exists_behindMarker (h : m.BeginsWith text opening) (style : Style)
    (s : Session) : ∃ q t, m.wrap? = some (.listItem q) ∧
      Session.steps style s opening = .ok t ∧
      t.BehindMarker (s.entryMarker style (.listItem q)).toList := by
  cases h with
  | direct rest q =>
    exact ⟨some q, _, rfl, Session.steps_singleton (Session.step_enter style s _),
      Session.behindMarker_item style s (some q)⟩
  | paragraph kids rest p q =>
    have hitem := Session.behindMarker_item style s (some q)
    refine ⟨some q, _, rfl, ?_, hitem.of_printers (hitem.paragraph style (some p))⟩
    rw [Session.steps_cons (Session.step_enter style s _)]
    exact Session.steps_singleton (Session.step_enter style _ _)

end Node

namespace Session

variable {style : Style} {s t u : Session} {text : String}

/-- A text of a document is escaped. -/
theorem exists_escapedBy_of_text {kids : List Node} {q : Parameters} {front rest : List Event}
    (hregular : (Node.document kids q).Regular style) (htext : IsLine text)
    (hsplit : (Node.document kids q).events = front ++ textEvents text ++ rest)
    (ht : run style (front ++ textEvents text) = .ok t) :
    ∃ u e, EscapedBy style t.printers.depth t rest u e := by
  obtain ⟨ks, k, hks⟩ := (List.eq_nil_or_concat (Text.tokens text)).resolve_left
    (tokens_ne_nil htext)
  rw [List.concat_eq_append] at hks
  have hk : ∀ bs, k ≠ .lineBreak bs := by
    rintro bs rfl
    have hmem : Text.Token.lineBreak bs ∈ Text.tokens text := by simp [hks]
    exact Text.Token.lineBreak_not_mem htext.2 hmem
  have hlast : textEvents text = ks.map (fun k => .leaf (.ofToken k)) ++ [.leaf (.ofToken k)] := by
    rw [textEvents, hks, List.map_append, List.map_singleton]
  have hqueued : (Leaf.ofToken k).queued? ≠ none := by
    rw [Leaf.queued?_ofToken hk]
    exact Option.some_ne_none _
  rw [hlast, ← List.append_assoc] at hsplit ht
  rw [List.append_assoc _ [_] rest, List.singleton_append] at hsplit
  obtain ⟨s, v, hs, hv, u, e, hby, -⟩ := escaped_of_document hregular hsplit hqueued
  obtain rfl : v = t := by
    have hrun := (steps_append hs).trans (steps_singleton hv)
    exact Except.ok.inj (hrun.symm.trans ht)
  exact ⟨u, e, hby⟩

end Session

namespace Node

variable {style : Style} {blocks : List Node} {p : Parameters}

/-- Text at the start of an item is escaped as text in the middle of a line: behind the marker comes
the escaped text, which looks like an item, a numbered item or a quotation if the text does, and
like a heading if the text does and is no macro. In a regular document some event escapes it. -/
theorem item_text_escaped :
    ((document blocks p).Regular style →
      ∃ markdown, (document blocks p).render style = .ok markdown) ∧
    ∀ {m : Node} {before opening : List Event} {text : String} {s : Session},
      (document blocks p).At before m → m.BeginsWith text opening → IsLine text →
      Session.run style before = .ok s →
      ∃ q t page, m.wrap? = some (.listItem q) ∧
        Session.steps style s (opening ++ textEvents text) = .ok t ∧
        t.printers.active.written.toList =
          page ++ (s.entryMarker style (.listItem q)).toList ∧
        ((document blocks p).Regular style → ∃ rest u e,
          (document blocks p).events = before ++ (opening ++ textEvents text) ++ rest ∧
            Session.EscapedBy style t.printers.depth t rest u e) ∧
        ∀ {rest u e}, Session.EscapedBy style t.printers.depth t rest u e → ∃ more,
          let around := (u.nesting.atWriting e).around
          let raw := (text ++ more).toList
          let shown := escapeSpan
            ⟨around.inLine, around.inTable, false, t.printers.active.escapeSpaces⟩ raw
          u.printers.active.pending = some (text ++ more) ∧
          (u.page e).written.toList = t.printers.active.written.toList ++
            Printer.indentBreaks u.printers.active.indentation shown ∧
          (t.printers.active.escapeSpaces = false →
            ((Marker.bullet.hit? true shown).isSome ↔ (Marker.bullet.hit? true raw).isSome) ∧
            ((Marker.number.hit? true shown).isSome ↔ (Marker.number.hit? true raw).isSome) ∧
            (['#'] <+: shown ↔ ['#'] <+: raw ∧ ¬ ['#', '['] <+: raw) ∧
            (['>'] <+: shown ↔ ['>'] <+: raw)) := by
  refine ⟨fun hregular => ?_, fun {m before opening text s} hat hbegins htext hs => ?_⟩
  · obtain ⟨t, ht, -⟩ := Session.steps_events style _ hregular (Session.ready_start style blocks p)
    exact ⟨_, render_of_session ht⟩
  obtain ⟨q, t, hw, ht, hmarker⟩ := hbegins.exists_behindMarker style s
  obtain ⟨page, hpage⟩ := hmarker.written
  obtain ⟨previous, htexts⟩ := Session.steps_textEvents style htext t
  rw [eventsAll, eventsAll, List.append_nil, events] at htexts
  have hsteps := (Session.steps_append (b := textEvents text) ht).trans htexts
  refine ⟨q, _, page, hw, hsteps, by rw [← hpage, Session.active_delay, Printer.delay],
    fun hregular => ?_, fun {rest u e} hby => ?_⟩
  · obtain ⟨after, hafter⟩ := hbegins.exists_events
    obtain ⟨behind, hbehind⟩ := hat.exists_events
    have hsplit : (document blocks p).events =
        before ++ opening ++ textEvents text ++ (after ++ behind) := by
      rw [hbehind, hafter]
      simp
    have hrun := (Session.steps_append hs).trans hsteps
    rw [← List.append_assoc] at hrun
    obtain ⟨u, e, hby⟩ := Session.exists_escapedBy_of_text hregular htext hsplit hrun
    exact ⟨after ++ behind, u, e, by rw [hsplit]; simp, hby⟩
  · obtain ⟨more, hmore, hshown⟩ := hmarker.exists_shown htext hby (Session.active_delay t text)
    exact ⟨more, hmore, hshown, fun hspaces => Escape.starts_escapeSpan_iff ⟨rfl, hspaces⟩ _⟩

end Node

/-- An item whose text looks like an item itself. -/
def dashText : Node := .document [.list .bulleted [.listItem [.text "- x"] .empty] .empty] .empty

theorem regular_dashText (style : Style) : dashText.Regular style := by
  have hnodes : dashText.descendants = Node.descendantsAll dashText.children := rfl
  constructor <;> rw [Node.Everywhere, hnodes] <;>
    simp only [dashText, Node.children, Node.descendants, Node.descendantsAll, List.append_nil,
      List.forall_mem_cons]
  · simp [Node.Fits, Node.children, Node.place, Node.room, Node.wrap?, Container.place,
      Container.room]
  · simp [Node.SpanValid]
  · simp [Node.Labelled]
  · simp [Node.CellsPlain, Node.IsCell]

/-- The text still looks like an item once it is escaped. -/
theorem Node.item_text_escaped_dashText : dashText.Regular (.standard {}) ∧ IsLine "- x" ∧
    ∃ s t u e rest more, Session.run (.standard {})
        [.enter (.document (some .empty)), .enter (.list .bulleted (some .empty))] = .ok s ∧
      Session.steps (.standard {}) s ([.enter (.listItem (some .empty))] ++ textEvents "- x") =
        .ok t ∧
      Session.EscapedBy (.standard {}) t.printers.depth t rest u e ∧
      u.printers.active.pending = some ("- x" ++ more) ∧
      (Marker.bullet.hit? true (escapeSpan ⟨(u.nesting.atWriting e).around.inLine,
        (u.nesting.atWriting e).around.inTable, false, t.printers.active.escapeSpaces⟩
        ("- x" ++ more).toList)).isSome := by
  have hregular := regular_dashText (.standard {})
  have hline : IsLine "- x" := by simp [IsLine]
  have hlist : Node.At (.list .bulleted [.listItem [.text "- x"] .empty] .empty)
      [.enter (.list .bulleted (some .empty))] (.listItem [.text "- x"] .empty) :=
    @Node.At.inside _ _ _ _ [] [] [] rfl rfl (.here _)
  have hat : dashText.At [.enter (.document (some .empty)),
      .enter (.list .bulleted (some .empty))] (.listItem [.text "- x"] .empty) :=
    @Node.At.inside _ _ _ _ [] [] _ rfl rfl hlist
  obtain ⟨t, hrun, hspaces⟩ := Session.exists_of_map_steps (.standard {}) (.start (.standard {}))
    ([.enter (.document (some .empty)), .enter (.list .bulleted (some .empty))] ++
      ([.enter (.listItem (some .empty))] ++ textEvents "- x"))
    (fun t => t.printers.active.escapeSpaces) (x := false) (by decide +kernel)
  obtain ⟨s, hs, ht⟩ := Session.exists_of_steps_append hrun
  obtain ⟨-, hitem⟩ := @item_text_escaped (.standard {})
    [.list .bulleted [.listItem [.text "- x"] .empty] .empty] .empty
  obtain ⟨q, t', page, -, ht', -, hescaped, hshown⟩ := hitem hat (.direct [] .empty) hline hs
  obtain rfl : t = t' := Except.ok.inj (ht.symm.trans ht')
  obtain ⟨rest, u, e, -, hby⟩ := hescaped hregular
  obtain ⟨more, hmore, -, hlooks⟩ := hshown hby
  refine ⟨hregular, hline, s, t, u, e, rest, more, hs, ht, hby, hmore, (hlooks hspaces).1.2 ?_⟩
  obtain ⟨length, hit⟩ := @Escape.bullet_hit true [] ('x' :: more.toList) '-' ' '
    (List.forall_mem_nil _) (by decide) (by decide)
  rw [String.toList_append]
  exact Option.isSome_iff_exists.2 ⟨_, hit⟩

/-- What is printed behind the marker is read as an item. -/
theorem dashText_live : (dashText.render (.standard {})).toOption = some "*   - x" ∧
    (Marker.bullet.hit? true "- x".toList).isSome := by
  decide +kernel

end Markwright
