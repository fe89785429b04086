import Mathlib.Data.Bool.Count
import Markwright.Proofs.MarkedLine
import Markwright.Proofs.Surroundings

/-!
# Marks of quotations

A quotation is marked by a line prefix, which is written after each line break and at the start of a
page. It breaks the line twice when it is entered, so that its text starts a line of its own. Where
line breaks are dropped and the page is not blank, as at the start of a list item, both are lost,
and the text goes on in a line that began before the quotation did (`Session.swallows`). The line
before any text has a mark for each of the open quotations but those (`Node.quoted_marked`).
-/

namespace Markwright

open Node (eventsAll)

/-! ## Prose -/

/-- A node that is text, or of a kind that may stand around the text of a quotation. -/
def Node.IsProse : Node → Prop
  | .document .. | .paragraph .. | .list .. | .listItem .. | .quotation .. | .quotationLine _
  | .text _ => True
  | _ => False

/-- A container that may stand around the text of a quotation. -/
def Container.IsProse : Container → Prop
  | .document _ | .paragraph _ | .list .. | .listItem _ | .quotation _ | .quotationLine => True
  | _ => False

/-- An event of a tree that is prose throughout. -/
def Event.IsProse : Event → Prop
  | .enter c | .leave c => c.IsProse
  | .leaf l => ∃ t, l = .ofToken t

/-- A tree of paragraphs, lists, quotations and texts whose pieces stand where they belong. -/
structure Node.Prose (n : Node) : Prop where
  fits : n.Everywhere Fits
  nodes : n.Everywhere IsProse

namespace Node.Prose

variable {n k : Node} {c : Container}

theorem child (h : n.Prose) (hk : k ∈ n.children) : k.Prose :=
  ⟨h.fits.child hk, h.nodes.child hk⟩

theorem regular (h : n.Prose) (style : Style) : n.Regular style := by
  refine ⟨h.fits, h.nodes.imp ?_, h.nodes.imp ?_, h.nodes.imp ?_⟩
  · rintro (_ | _) hm <;> first | exact trivial | exact hm.elim
  · rintro (_ | _) hm <;> first | exact trivial | exact hm.elim
  · rintro (_ | _) hm <;> first | exact fun h => h.elim | exact hm.elim

theorem wrap (h : n.Prose) (hw : n.wrap? = some c) : c.IsProse := by
  have hn := h.nodes.here
  cases n
  case text => cases hw
  case document | paragraph | list | listItem | quotation | quotationLine =>
    cases hw
    trivial
  all_goals exact hn.elim

theorem exists_ofToken (h : n.Prose) {l : Leaf} (hl : l ∈ n.leaves) : ∃ t, l = .ofToken t := by
  have hn := h.nodes.here
  cases n
  case text content =>
    obtain ⟨t, -, ht⟩ := List.mem_map.1 hl
    exact ⟨t, ht.symm⟩
  all_goals first | exact hn.elim | cases hl

end Node.Prose

/-- Prose is told by events of prose. -/
theorem Node.Prose.events {n : Node} : n.Prose → ∀ e ∈ n.events, e.IsProse := by
  induction n using Node.childrenInduction with
  | step n ih =>
  intro hn e he
  rcases hw : n.wrap? with _ | c
  · rw [Node.events_of_leaves hw] at he
    obtain ⟨l, hl, rfl⟩ := List.mem_map.1 he
    exact hn.exists_ofToken hl
  · rw [Node.events_of_wrap hw, Event.around] at he
    rcases List.mem_append.1 he with hin | hleave
    · rcases List.mem_cons.1 hin with rfl | hin
      · exact hn.wrap hw
      · obtain ⟨k, hk, hin⟩ := Node.mem_eventsAll.1 hin
        exact ih k hk (hn.child hk) e hin
    · obtain rfl := List.mem_singleton.1 hleave
      exact hn.wrap hw

/-! ## Sessions -/

namespace Session

variable {style : Style} {s t u : Session} {c : Container} {k : Nat}

/-- The line breaks of a quotation that is entered here are dropped, though not at the start of a
page. -/
def swallows (s : Session) : Bool :=
  let p := s.printers.active.flush s.nesting.around
  p.suppressBreaks && !p.pageBlank

/-- The document itself is written to, and the line that has been begun there has `k` marks. -/
structure Marks (k : Nat) (s : Session) : Prop where
  captures : s.printers.captures = []
  root : s.printers.root.Marked k

theorem eq_of_captures {printers : PrinterStack} (h : printers.captures = []) :
    printers = ⟨printers.root, []⟩ := by
  rw [← h]

theorem printers_modifyPrinter {p : Printer} (h : s.printers = ⟨p, []⟩) (f : Printer → Printer) :
    (s.modifyPrinter f).printers = ⟨f p, []⟩ := by
  simp [modifyPrinter, PrinterStack.modify, PrinterStack.setActive, PrinterStack.active, h]

namespace Marks

theorem of_eq (h : s.Marks k) (ht : t.printers = s.printers) : t.Marks k := by
  obtain ⟨hcaptures, hroot⟩ := h
  rw [← ht] at hcaptures hroot
  exact ⟨hcaptures, hroot⟩

theorem modify {j : Nat} {f : Printer → Printer} (h : s.Marks k)
    (hf : s.printers.root.Marked k → (f s.printers.root).Marked j) :
    (s.modifyPrinter f).Marks j := by
  have hprinters := printers_modifyPrinter (eq_of_captures h.captures) f
  exact ⟨by rw [hprinters], by rw [hprinters]; exact hf h.root⟩

theorem print (h : s.Marks k) (text : String) : (s.print text).Marks k :=
  h.modify (f := (·.print s.nesting.around text)) (·.print _ _)

theorem flush (h : s.Marks k) : s.flush.Marks k :=
  h.modify (f := (·.flush s.nesting.around)) (·.flush _)

theorem delay (h : s.Marks k) (text : String) : (s.delay text).Marks k :=
  h.modify fun hp => ⟨hp.indents, hp.held, hp.blank, hp.line⟩

theorem pushPrefix (h : s.Marks k) {x : String} (hx : IsIndent x) : (s.pushPrefix x).Marks k :=
  h.modify (·.pushPrefix hx)

theorem suppressBreaks (h : s.Marks k) : s.suppressBreaks.Marks k := h.modify (·.suppress)

theorem mono {j : Nat} (h : s.Marks k) (hj : j ≤ k) : s.Marks j := ⟨h.captures, h.root.mono hj⟩

end Marks

theorem isIndent_indentation (style : Style) : IsIndent (indentation style) := by
  refine Or.inr fun c hc => ?_
  rw [indentation, String.toList_ofList] at hc
  exact List.eq_of_mem_replicate hc

theorem marks_enter (hc : c.IsProse) (hq : ∀ q, c ≠ .quotation q) (h : s.Marks k) :
    (s.entered style c).Marks k := by
  have hin : Marks k { s with nesting := s.nesting.enter c } := h.of_eq rfl
  rw [entered]
  generalize { s with nesting := s.nesting.enter c } = s at hin
  cases c
  case document => exact hin
  case paragraph => exact (hin.print "\n\n").of_eq rfl
  case list =>
    simp only [writeEnter]
    split
    · exact (hin.print "\n\n").of_eq rfl
    · exact (hin.print "\n").of_eq rfl
  case listItem =>
    have hsep : s.separateItem.Marks k := by
      unfold separateItem
      split
      · dsimp only
        split
        · exact (hin.print "\n").print "\n"
        · exact hin.print "\n"
      · exact hin
    exact (((hsep.print _).pushPrefix (isIndent_indentation style)).suppressBreaks).of_eq rfl
  case quotation q => exact absurd rfl (hq q)
  case quotationLine =>
    simp only [writeEnter]
    split
    · exact hin
    · exact hin.print "\n\n"
  all_goals exact hc.elim

theorem marks_enter_quotation (style : Style) (q : Option Parameters) (h : s.Marks k) :
    (s.entered style (.quotation q)).Marks (if s.swallows then k else k + 1) := by
  have hin : Marks k { s with nesting := s.nesting.enter (.quotation q) } := h.of_eq rfl
  split
  · exact (((hin.print "\n").pushPrefix (Or.inl rfl)).print "\n").suppressBreaks
  · rename_i hs
    obtain ⟨hcaptures, hroot⟩ := h
    have hactive := PrinterStack.active_eq_root hcaptures
    have hmarked := (hroot.flush s.nesting.around).quotation (by simpa [swallows, hactive] using hs)
    have hbroken := printers_modifyPrinter (eq_of_captures hin.captures)
      (·.print s.nesting.around "\n")
    have hpushed := printers_modifyPrinter hbroken (·.pushPrefix "> ")
    have hbroken' := printers_modifyPrinter hpushed (·.print s.nesting.around "\n")
    have hentered := printers_modifyPrinter hbroken' ({ · with suppressBreaks := true })
    -- Nothing waits any more at the second break.
    have hflushed : (((s.printers.root.print s.nesting.around "\n").pushPrefix "> ").flush
        s.nesting.around) = (s.printers.root.print s.nesting.around "\n").pushPrefix "> " :=
      Printer.flush_of_none _ (Printer.pending_print s.printers.root s.nesting.around "\n")
    rw [Printer.print, hflushed] at hentered
    refine Marks.of_eq (s := { s with printers := ⟨_, []⟩ }) ⟨rfl, ?_⟩ hentered
    exact hmarked.suppress

theorem marks_leaf {l : Leaf} (hl : ∃ k, l = .ofToken k) (h : s.Marks k)
    (hstep : step style s (.leaf l) = .ok t) : t.Marks k := by
  obtain ⟨u, hu, rfl⟩ := exists_of_step_leaf hstep
  refine Marks.of_eq (s := u) ?_ rfl
  obtain ⟨x, rfl⟩ := hl
  cases x <;> cases hu
  case lineBreak =>
    split
    · exact h.print _
    · exact h.print "\n"
  all_goals exact h.delay _

theorem page_popPrefix (hs : s.printers.captures = []) (h : s.popPrefix = .ok t) :
    t.printers.captures = [] ∧ t.printers.root.written = s.printers.root.written ∧
      t.printers.root.pageBlank = s.printers.root.pageBlank := by
  unfold popPrefix at h
  split at h
  · rename_i p hp
    cases h
    obtain ⟨x, -, hx⟩ := Option.map_eq_some_iff.1 hp
    cases hx
    simp [PrinterStack.setActive, PrinterStack.active, hs]
  · cases h

/-! ## What is open -/

/-- As many marks are held as quotations are open, and the other line prefixes are blanks. -/
structure Quoting (s : Session) : Prop where
  captures : s.printers.captures = []
  indents : ∀ x ∈ s.printers.root.linePrefixes, IsIndent x
  quotations : (s.printers.root.linePrefixes.count "> " : Int) = s.nesting.quotations

/-- No text waits while the number of open quotations changes. -/
structure QuotingStep (s t : Session) : Prop where
  left : s.Quoting
  right : t.Quoting
  waits : ¬ s.Settled → ¬ t.Settled → t.nesting.quotations = s.nesting.quotations

theorem Quoting.extends {held : Held} (h : s.Quoting) (hst : s.printers.Extends held t.printers)
    (hheld : ∀ x ∈ held.linePrefixes, IsIndent x)
    (hquotations : t.nesting.quotations = s.nesting.quotations + held.linePrefixes.count "> ") :
    t.Quoting := by
  have hcaptures := hst.captures_eq_nil h.captures
  have hprefixes := hst.active.linePrefixes
  rw [PrinterStack.active_eq_root h.captures, PrinterStack.active_eq_root hcaptures] at hprefixes
  refine ⟨hcaptures, ?_, ?_⟩
  · rw [hprefixes]
    intro x hx
    exact (List.mem_append.1 hx).elim (h.indents x) (hheld x)
  · rw [hprefixes, List.count_append, Int.natCast_add, h.quotations, hquotations]

theorem Quoting.same (h : s.Quoting) (hst : s.printers.Extends .none t.printers)
    (hquotations : t.nesting.quotations = s.nesting.quotations) : t.Quoting :=
  h.extends hst (fun _ hx => absurd hx List.not_mem_nil) (by simp [hquotations, Held.none])

theorem Quoting.keeps {p : Place} (h : s.Quoting) (hst : s.Keeps p t) : t.Quoting :=
  h.same hst.printers hst.nesting.quotations

theorem not_captures_of_isProse (hc : c.IsProse) (n : Nesting) : ¬ c.Captures n := by
  cases c <;> first | exact id | exact hc.elim

theorem writes_entered (style : Style) (s : Session) (hc : c.IsProse) :
    Writes (c.held style) { s with nesting := s.nesting.enter c } (s.entered style c) := by
  refine writes_writeEnter style (not_captures_of_isProse hc _) fun hp => ?_
  obtain ⟨q, rfl⟩ := eq_tableRow_of_place hp
  exact hc

theorem count_indentation (style : Style) : [indentation style].count "> " = 0 := by
  rw [List.count_eq_zero, List.mem_singleton]
  intro h
  have hmem : '>' ∈ (indentation style).toList := h ▸ (by decide : '>' ∈ "> ".toList)
  rw [indentation, String.toList_ofList] at hmem
  exact absurd (List.eq_of_mem_replicate hmem) (by decide)

theorem quoting_entered (style : Style) (hc : c.IsProse) (h : s.Quoting) :
    (s.entered style c).Quoting := by
  refine h.extends (writes_entered style s hc).printers ?_ ?_
  · cases c
    case listItem =>
      intro x hx
      exact List.mem_singleton.1 hx ▸ isIndent_indentation style
    case quotation =>
      intro x hx
      exact Or.inl (List.mem_singleton.1 hx)
    case definitionDescription => exact hc.elim
    all_goals exact fun _ hx => absurd hx List.not_mem_nil
  · rw [(entered_spec style s c).1]
    cases c
    case listItem => simp [Nesting.enter, Container.held, count_indentation]
    case definitionDescription => exact hc.elim
    all_goals simp [Nesting.enter, Container.held, Held.none]

theorem settled_entered_quotation (style : Style) (s : Session) (q : Option Parameters) :
    (s.entered style (.quotation q)).Settled := by
  simp only [Settled, entered, writeEnter, suppressBreaks, modifyPrinter, PrinterStack.modify,
    PrinterStack.active_setActive]
  exact settled_print _ _

/-- After the lines of a quotation no text waits. -/
theorem settled_lines {n : Node} {q : Option Parameters} (hn : n.Fits)
    (hw : n.wrap? = some (.quotation q)) (hs : s.Settled)
    (h : steps style s (eventsAll n.children) = .ok t) : t.Settled := by
  refine settled_eventsAll n.children (fun k hk u v hsteps _ => ?_) h hs
  have hp : k.place = .quotation := (hn k hk).trans (Node.room_of_wrap hw)
  obtain ⟨d, hkw, hp⟩ := Node.exists_wrap_of_place hp nofun
  cases d <;> cases hp
  exact settled_of_wrap hkw trivial hsteps

theorem exists_writes_ofToken {l : Leaf} (hl : ∃ k, l = .ofToken k)
    (hstep : step style s (.leaf l) = .ok t) :
    ∃ u, t = { u with nesting := { u.nesting with previous := Nesting.completes l } } ∧
      Writes .none s u := by
  obtain ⟨u, hu, rfl⟩ := exists_of_step_leaf hstep
  obtain ⟨x, rfl⟩ := hl
  obtain ⟨v, hv, hwrites⟩ := @writeLeaf_ok style s (.ofToken x) fun r f q e => by
    cases x <;> cases e
  rw [hu] at hv
  cases hv
  exact ⟨u, rfl, hwrites⟩

theorem quotingStep_leaf {l : Leaf} (hl : ∃ k, l = .ofToken k) (h : s.Quoting)
    (hstep : step style s (.leaf l) = .ok t) : QuotingStep s t ∧ t.Quoting := by
  obtain ⟨u, rfl, hwrites⟩ := exists_writes_ofToken hl hstep
  have hsame : u.nesting.quotations = s.nesting.quotations :=
    congrArg (·.quotations) hwrites.nesting
  have ht : Quoting { u with
      nesting := { u.nesting with previous := Nesting.completes l } } :=
    h.same hwrites.printers hsame
  exact ⟨⟨h, ht, fun _ _ => hsame⟩, ht⟩

/-- Prose never leaves or enters a quotation while text waits. -/
theorem along_quoting (n : Node) : n.Prose → ∀ {s t : Session}, Ready n s →
    steps style s n.events = .ok t → s.Quoting → Along style QuotingStep s n.events t := by
  induction n using Node.childrenInduction with
  | step n ih =>
  intro hn s t hs h hq
  have hregular := hn.regular style
  have hst := keeps_of_steps hregular hs h
  rcases hw : n.wrap? with _ | c
  · rw [Node.events_of_leaves hw] at h ⊢
    refine along_leaves (P := Quoting) (fun l hl s t hstep hq => ?_) h hq
    exact quotingStep_leaf (hn.exists_ofToken hl) hq hstep
  · rw [Node.events_of_wrap hw] at h ⊢
    obtain ⟨v, hv, hleave⟩ := exists_of_steps_around h
    have hc := hn.wrap hw
    have hin := quoting_entered style hc hq
    have hlined := lined_children hregular hs hw
    have hsv := keeps_of_lined hlined hv
    have hkids : Along style QuotingStep (s.entered style c) (eventsAll n.children) v := by
      refine along_lined (P := Quoting) hlined (fun k hk s t hready hsteps hq => ?_) hv hin
      exact ⟨ih k hk (hn.child hk) hready hsteps hq,
        hq.keeps (keeps_of_steps (hregular.child hk) hready hsteps)⟩
    have hentered := (entered_spec style s c).1
    rw [Event.around, List.cons_append]
    refine .cons (step_enter style s c) ⟨hq, hin, fun _ hwaits => ?_⟩
      (hkids.concat hleave ⟨hin.keeps hsv, hq.keeps hst, fun hwaits _ => ?_⟩)
    -- A quotation flushes what waits when it is entered, and its lines flush what they queue.
    · rw [hentered]
      cases c
      case quotation q => exact absurd (settled_entered_quotation style s q) hwaits
      all_goals rfl
    · rw [hst.nesting.quotations, hsv.nesting.quotations, hentered]
      cases c
      case quotation q =>
        have hsettled := settled_entered_quotation style s q
        exact absurd (settled_lines hn.fits.here hw hsettled hv) hwaits
      all_goals rfl

end Session

/-! ## What is marked -/

/-- For each open quotation, the innermost first, whether its line breaks were dropped. -/
def Event.dropped (s : Session) (quotes : List Bool) : Event → List Bool
  | .enter (.quotation _) => s.swallows :: quotes
  | .leave (.quotation _) => quotes.tail
  | _ => quotes

/-- For each quotation that is open after the events, whether its line breaks were dropped. -/
def Session.dropped (style : Style) : Session → List Bool → List Event → List Bool
  | _, quotes, [] => quotes
  | s, quotes, e :: rest =>
    match step style s e with
    | .ok t => dropped style t (e.dropped s quotes) rest
    | .error _ => quotes

theorem Event.dropped_of_length {s : Session} {quotes : List Bool} {e : Event}
    (h : (e.dropped s quotes).length = quotes.length) : e.dropped s quotes = quotes := by
  unfold Event.dropped at h ⊢
  split at h
  · simp at h
  · cases quotes
    · rfl
    · simp at h
  · rfl

namespace Session

variable {style : Style} {s t u : Session} {c : Container} {k : Nat} {e : Event}
  {events : List Event} {quotes : List Bool}

/-- The quotations that are open, and the line that has been begun has a mark for each of them but
those whose line breaks were dropped. -/
structure MarksAll (quotes : List Bool) (s : Session) : Prop where
  length : (quotes.length : Int) = s.nesting.quotations
  marks : s.Marks (quotes.count false)

theorem Marks.quoting {j : Nat} (h : s.Marks k) (ht : t.Quoting) (hj : j ≤ k)
    (hopen : (j : Int) ≤ t.nesting.quotations)
    (hwritten : t.printers.root.written = s.printers.root.written)
    (hblank : t.printers.root.pageBlank = s.printers.root.pageBlank) : t.Marks j := by
  obtain ⟨-, -, hempty, hline⟩ := h.root
  rw [← hblank, ← hwritten] at hempty hline
  refine ⟨ht.captures, ht.indents, ?_, hempty, fun hb => Nat.le_trans hj (hline hb)⟩
  have hcount := ht.quotations
  omega

theorem marksAll_enter (hc : c.IsProse) (h : s.MarksAll quotes) :
    (s.entered style c).MarksAll ((Event.enter c).dropped s quotes) := by
  have hlength := h.length
  by_cases hq : ∃ q, c = .quotation q
  · obtain ⟨q, rfl⟩ := hq
    refine ⟨?_, ?_⟩
    · rw [(entered_spec style s _).1]
      simp [Event.dropped, Nesting.enter, hlength]
    · have hmarks := marks_enter_quotation style q h.marks
      cases hs : s.swallows <;> simpa [Event.dropped, hs] using hmarks
  · have hsame : (Event.enter c).dropped s quotes = quotes := by
      cases c <;> first | rfl | exact absurd ⟨_, rfl⟩ hq
    rw [hsame]
    refine ⟨?_, marks_enter hc (fun q hq' => hq ⟨q, hq'⟩) h.marks⟩
    rw [hlength, (entered_spec style s _).1]
    cases c <;> first | rfl | exact absurd ⟨_, rfl⟩ hq

theorem marksAll_leave (hc : c.IsProse) (h : s.MarksAll quotes) (ht : t.Quoting)
    (hstep : step style s (.leave c) = .ok t) :
    t.MarksAll ((Event.leave c).dropped s quotes) := by
  have hlength : (((Event.leave c).dropped s quotes).length : Int) = t.nesting.quotations := by
    have hbefore := h.length
    have hcount := Nesting.count_step (nesting_step hstep) .quotations
    have hopen := ht.quotations
    simp only [Nesting.count, Event.change, Container.weight] at hcount
    cases c
    case quotation =>
      simp only [Event.dropped, List.length_tail, Container.counter?, if_true] at hcount ⊢
      omega
    all_goals first
      | exact hc.elim
      | simpa [Event.dropped, Container.counter?, hbefore] using hcount.symm
  refine ⟨hlength, ?_⟩
  have hle : ((Event.leave c).dropped s quotes).count false ≤ quotes.count false := by
    cases c
    case quotation => exact (List.tail_sublist quotes).count_le false
    all_goals exact Nat.le_refl _
  have hopen : (((Event.leave c).dropped s quotes).count false : Int) ≤ t.nesting.quotations := by
    rw [← hlength]
    exact Int.ofNat_le.2 List.count_le_length
  obtain ⟨u, n, hwrite, -, rfl⟩ := exists_of_step_leave hstep
  have hpop : s.popPrefix = .ok u → Marks _ { u with nesting := n } := fun hpop =>
    have hpage := page_popPrefix h.marks.captures hpop
    h.marks.quoting ht hle hopen hpage.2.1 hpage.2.2
  cases c
  case document | paragraph | list | quotationLine =>
    cases hwrite
    exact h.marks.flush.of_eq rfl
  case listItem | quotation => exact hpop hwrite
  all_goals exact hc.elim

theorem marksAll_step (he : e.IsProse) (hr : QuotingStep s t) (h : s.MarksAll quotes)
    (hstep : step style s e = .ok t) : t.MarksAll (e.dropped s quotes) := by
  cases e with
  | enter c =>
    cases hstep
    exact marksAll_enter he h
  | leave c => exact marksAll_leave he h hr.right hstep
  | leaf l =>
    refine ⟨?_, marks_leaf he h.marks hstep⟩
    have hcount := Nesting.count_step (nesting_step hstep) .quotations
    simp only [Nesting.count, Event.change, Int.add_zero] at hcount
    exact h.length.trans hcount.symm

theorem marksAll_along (h : Along style QuotingStep s events t) : ∀ {quotes : List Bool},
    (∀ e ∈ events, e.IsProse) → s.MarksAll quotes → t.MarksAll (dropped style s quotes events) := by
  induction h with
  | nil s => exact fun _ h => h
  | cons hstep hr _ ih =>
    intro quotes he h
    rw [dropped, hstep]
    exact ih (fun e hm => he e (by simp [hm])) (marksAll_step (he _ (by simp)) hr h hstep)

/-- While text waits the open quotations and the marks stay as they are. -/
theorem marksAll_escapedBy {rest : List Event} (hby : EscapedBy style 0 s rest u e) :
    (∀ e ∈ rest, e.IsProse) → Along style QuotingStep s rest t → s.MarksAll quotes →
      ¬ s.Settled → u.MarksAll quotes ∧ ¬ u.Settled ∧ Flushes style u e ∧
        ∃ back, Along style QuotingStep u (e :: back) t ∧ ∀ e' ∈ e :: back, e'.IsProse := by
  induction hby with
  | here hdepth hflush => exact fun he halong h hs => ⟨h, hs, hflush, _, halong, he⟩
  | @later s t' u e e' rest hstep hwaits _ ih =>
    intro he halong h hs
    cases halong with
    | cons hstep' hr halong =>
      rw [hstep] at hstep'
      cases hstep'
      -- The text waits on the document's own printer after the event too, so no quotation was
      -- entered or left.
      have ht : ¬ t'.Settled := by
        obtain ⟨-, q, text, more, -, -, hq, hpending⟩ := hwaits
        have hactive := PrinterStack.active_eq_root hr.right.captures
        cases hq
        exact Option.ne_none_iff_exists'.2 ⟨_, (congrArg (·.pending) hactive).trans hpending⟩
      have hnext := marksAll_step (he _ (by simp)) hr h hstep
      have hlength : ((e.dropped s quotes).length : Int) = quotes.length := by
        rw [hnext.length, h.length, hr.waits hs ht]
      rw [Event.dropped_of_length (Int.ofNat_inj.1 hlength)] at hnext
      exact ih (fun e hm => he e (by simp [hm])) halong hnext ht

/-! ## What is written stays -/

theorem grows_of_extends {held : Held} (hs : s.printers.captures = [])
    (h : s.printers.Extends held t.printers) : ∃ more, t.written = s.written ++ more := by
  have hwritten := h.active.written
  rwa [PrinterStack.active_eq_root hs, PrinterStack.active_eq_root (h.captures_eq_nil hs)]
    at hwritten

theorem grows_step (he : e.IsProse) (hs : s.printers.captures = [])
    (hstep : step style s e = .ok t) : ∃ more, t.written = s.written ++ more := by
  cases e with
  | enter c =>
    cases hstep
    exact grows_of_extends (s := { s with nesting := s.nesting.enter c }) hs
      (writes_entered style s he).printers
  | leave c =>
    obtain ⟨u, n, hwrite, -, rfl⟩ := exists_of_step_leave hstep
    have hpop : s.popPrefix = .ok u → ∃ more, u.written = s.written ++ more := fun hpop =>
      ⟨"", by rw [String.append_empty]; exact (page_popPrefix hs hpop).2.1⟩
    cases c
    case document | paragraph | list | quotationLine =>
      cases hwrite
      exact grows_of_extends hs (Writes.flush s).printers
    case listItem | quotation => exact hpop hwrite
    all_goals exact he.elim
  | leaf l =>
    obtain ⟨u, rfl, hwrites⟩ := exists_writes_ofToken he hstep
    exact grows_of_extends hs hwrites.printers

theorem grows_along (h : Along style QuotingStep s events t) : (∀ e ∈ events, e.IsProse) →
    ∃ more, t.written = s.written ++ more := by
  induction h with
  | nil s => exact fun _ => ⟨"", by simp⟩
  | cons hstep hr _ ih =>
    intro he
    obtain ⟨first, hfirst⟩ := grows_step (he _ (by simp)) hr.left.captures hstep
    obtain ⟨more, hmore⟩ := ih fun e hm => he e (by simp [hm])
    exact ⟨first ++ more, by rw [hmore, hfirst, String.append_assoc]⟩

/-- The text that an event escapes is found in what is written in the end. -/
theorem written_of_flushes {back : List Event} (hflush : Flushes style u e)
    (halong : Along style QuotingStep u (e :: back) t) (he : ∀ e' ∈ e :: back, e'.IsProse) :
    (u.printers.root.flush (u.nesting.atWriting e).around).written.toList <+: t.written.toList := by
  cases halong with
  | cons hstep hr halong =>
    have hcaptures := hr.left.captures
    rw [hflush] at hstep
    have hroot : u.printers.flush (u.nesting.atWriting e).around =
        ⟨u.printers.root.flush (u.nesting.atWriting e).around, []⟩ :=
      printers_modifyPrinter (eq_of_captures hcaptures) (·.flush (u.nesting.atWriting e).around)
    rw [hroot] at hstep
    obtain ⟨first, hfirst⟩ := grows_step (he e (by simp)) rfl hstep
    obtain ⟨more, hmore⟩ := grows_along halong fun e hm => he e (by simp [hm])
    rw [hmore, hfirst, String.append_assoc, String.toList_append]
    exact List.prefix_append _ _

end Session

namespace Node

variable {style : Style} {kids : List Node} {p : Parameters}

/-- Each character of a text of prose is written to a line that has, before it, a mark for each
quotation that is open at the text, but for those whose line breaks were dropped. -/
theorem quoted_marked (h : (document kids p).Prose) {front rest : List Event} {l : Leaf}
    {text : String} (hsplit : (document kids p).events = front ++ .leaf l :: rest)
    (hqueued : l.queued? = some text) :
    ∃ s t u e final, Session.run style front = .ok s ∧ Session.step style s (.leaf l) = .ok t ∧
      t.printers.active.pending = some (s.printers.active.pending.getD "" ++ text) ∧
      Session.EscapedBy style 0 t rest u e ∧ (document kids p).session style = .ok final ∧
      ∀ a c b, u.printers.root.waiting (u.nesting.atWriting e).around = a ++ c :: b →
        u.printers.root.before a ++ [c] <+: final.written.toList ∧
        netChange .quotations front ≤ quoteMarks (lastLine (u.printers.root.before a)) +
          (Session.dropped style (.start style) [] front).count true := by
  have hregular := h.regular style
  have hl : l.queued? ≠ none := Option.ne_none_iff_exists'.2 ⟨text, hqueued⟩
  obtain ⟨s, t, hs, ht, u, e, hby, -⟩ := Session.escaped_of_document hregular hsplit hl
  have hpending := Session.pending_of_queued ht hqueued
  have hready := Session.ready_start style kids p
  obtain ⟨final, hfinal, -⟩ := Session.steps_events style _ hregular hready
  have hstart : (Session.start style).Quoting := ⟨rfl, fun _ hx => absurd hx List.not_mem_nil, rfl⟩
  have halong := Session.along_quoting _ h hready hfinal hstart
  have hprose := h.events
  rw [hsplit] at halong hprose
  have hmarks : (Session.start style).MarksAll [] :=
    ⟨rfl, rfl, hstart.indents, Nat.zero_le _, fun _ => rfl, fun _ => Nat.zero_le _⟩
  obtain ⟨s', hfront, hback⟩ := halong.split
  have hs' : s' = s := Except.ok.inj (hfront.steps.symm.trans hs)
  subst hs'
  have hall := Session.marksAll_along hfront (fun e he => hprose e (by simp [he])) hmarks
  cases hback with
  | @cons _ t' _ _ _ hstep hr hback =>
  have ht' : t' = t := Except.ok.inj (hstep.symm.trans ht)
  subst ht'
  have hdepth : t'.printers.depth = 0 := by rw [PrinterStack.depth, hr.right.captures]; rfl
  rw [hdepth] at hby
  have hleaf := Session.marksAll_step (hprose (.leaf l) (by simp)) hr hall ht
  obtain ⟨hu, hwaits, hflush, back, hrest, hproseBack⟩ := Session.marksAll_escapedBy hby
    (fun e he => hprose e (by simp [he])) hback hleaf (Session.not_settled_of_queued ht hl)
  refine ⟨s', t', u, e, final, hs, ht, hpending, hby, hfinal, fun a c b hchars => ⟨?_, ?_⟩⟩
  · refine List.IsPrefix.trans ?_ (Session.written_of_flushes hflush hrest hproseBack)
    refine Printer.before_prefix_flush ?_ hchars
    rw [← PrinterStack.active_eq_root hu.marks.captures]
    exact hwaits
  · have hnet := Session.count_steps .quotations front hfront.steps
    have hlength := hall.length
    have hcount := List.count_false_add_count_true (Session.dropped style (.start style) [] front)
    have hline := hu.marks.root.before a
    simp only [Event.dropped] at hline
    simp only [Nesting.count, Session.start, Nesting.start] at hnet
    omega

end Node

/-- An item with a quotation, after some text of its own or without any. -/
def quotingItem (text : List Node) : Node :=
  .document [.list .bulleted [.listItem
    (text ++ [.quotation [.quotationLine [.text "b"]] .empty]) .empty] .empty] .empty

theorem prose_quotingItem : (quotingItem [.text "a"]).Prose := by
  have hnodes : (quotingItem [.text "a"]).descendants =
      Node.descendantsAll (quotingItem [.text "a"]).children := rfl
  constructor <;> rw [Node.Everywhere, hnodes] <;>
    simp only [quotingItem, Node.children, Node.descendants, Node.descendantsAll, List.append_nil,
      List.nil_append, List.cons_append, List.forall_mem_cons]
  · simp [Node.Fits, Node.children, Node.place, Node.room, Node.wrap?, Container.place,
      Container.room]
  · simp [Node.IsProse]

/-- The text of the quotation is marked when other text comes before it. -/
theorem Node.quoted_marked_quotingItem : (quotingItem [.text "a"]).Prose ∧
    (Leaf.word "b").queued? = some "b" ∧
    ∃ front rest, (quotingItem [.text "a"]).events = front ++ .leaf (.word "b") :: rest ∧
      ∃ s t u e final, Session.run (.standard {}) front = .ok s ∧
        Session.step (.standard {}) s (.leaf (.word "b")) = .ok t ∧
        t.printers.active.pending = some (s.printers.active.pending.getD "" ++ "b") ∧
        Session.EscapedBy (.standard {}) 0 t rest u e ∧
        (quotingItem [.text "a"]).session (.standard {}) = .ok final ∧
        ∀ a c b, u.printers.root.waiting (u.nesting.atWriting e).around = a ++ c :: b →
          u.printers.root.before a ++ [c] <+: final.written.toList ∧
          netChange .quotations front ≤ quoteMarks (lastLine (u.printers.root.before a)) +
            (Session.dropped (.standard {}) (.start (.standard {})) [] front).count true := by
  have hsplit : (quotingItem [.text "a"]).events =
      [.enter (.document (some .empty)), .enter (.list .bulleted (some .empty)),
        .enter (.listItem (some .empty)), .leaf (.word "a"), .enter (.quotation (some .empty)),
        .enter .quotationLine] ++ .leaf (.word "b") ::
      [.leave .quotationLine, .leave (.quotation (some .empty)), .leave (.listItem (some .empty)),
        .leave (.list .bulleted (some .empty)), .leave (.document (some .empty))] := rfl
  exact ⟨prose_quotingItem, rfl, _, _, hsplit, quoted_marked prose_quotingItem hsplit rfl⟩

/-- The text of a quotation that comes first in an item has no mark at all. -/
theorem quotingItem_unmarked_when_first :
    ((quotingItem []).render (.standard {})).toOption = some "*   b" := by
  decide +kernel

end Markwright
