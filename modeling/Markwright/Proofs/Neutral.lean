import Markwright.Proofs.Counters

/-!
# Between two blocks nothing is open

A block takes what it pushed off again (`Session.steps_events`), and it leaves no text waiting: the
last thing it writes is markup, or it is flushed (`Session.settled_block`). So between any two
blocks of a document, before the first and after the last, the session is as it was at its start but
for what is written (`Session.Neutral`). What the blocks so far have written is never taken back, so
the text of a document begins with the text of each of its fronts.
-/

namespace Markwright

open Node (eventsAll)

/-- The nodes that may stand directly below a document. -/
def Node.IsBlock : Node → Prop
  | .heading .. | .paragraph .. | .list .. | .definitionList .. | .table .. | .quotation ..
  | .horizontalRule _ | .emptyLines _ | .rawText .. => True
  | .call _ _ _ inLine => inLine = false
  | .verbatim _ inLine _ => inLine = false
  | _ => False

/-- No text is written after what the container holds without being flushed. -/
def Container.Settles : Container → Prop
  | .document _ | .header .. | .paragraph _ | .list .. | .definitionTerm | .definitionDescription
  | .table _ | .quotationLine => True
  | _ => False

namespace Session

variable {style : Style} {s t u : Session} {c : Container} {n : Node}

/-- No text waits on the active printer. -/
def Settled (s : Session) : Prop := s.printers.active.pending = none

/-- Nothing is open. -/
structure Neutral (s : Session) : Prop where
  depth : s.printers.depth = 0
  pending : s.printers.root.pending = none
  linePrefixes : s.printers.root.linePrefixes = []
  escapeSpaces : s.printers.root.escapeSpaces = false
  lists : s.nesting.lists = []
  counters : ∀ k, s.nesting.count k = 0
  rows : s.table.rows = []

theorem Neutral.captures (hs : s.Neutral) : s.printers.captures = [] :=
  List.length_eq_zero_iff.1 hs.depth

theorem Neutral.active (hs : s.Neutral) : s.printers.active = s.printers.root :=
  PrinterStack.active_eq_root hs.captures

theorem Neutral.settled (hs : s.Neutral) : s.Settled := by
  rw [Settled, hs.active]
  exact hs.pending

/-! ## What waits is flushed -/

theorem settled_flush (s : Session) : s.flush.Settled := by
  simp [Settled, flush, PrinterStack.flush, PrinterStack.modify]

theorem settled_print (s : Session) (text : String) : (s.print text).Settled := by
  simp [Settled, print, PrinterStack.print, PrinterStack.modify]

theorem flush_of_settled (hs : s.Settled) : s.flush = s := by
  simp [flush, PrinterStack.flush, PrinterStack.modify, Printer.flush_of_none _ hs]

/-- An empty line is dropped while breaks are suppressed and nothing waits. -/
theorem emptyLine_of_suppressed (h : s.printers.active.suppressBreaks = true) (hs : s.Settled) :
    s.emptyLine = s := by
  have hprint := Printer.print_of_suppressed (s := "\n\n") s.nesting.around h hs (by simp)
  simp [emptyLine, print, PrinterStack.print, PrinterStack.modify, hprint]

theorem Settled.popPrefix (hs : s.Settled) (h : s.popPrefix = .ok t) : t.Settled := by
  unfold Session.popPrefix at h
  split at h
  · rename_i p hp
    cases h
    obtain ⟨x, -, hx⟩ := Option.map_eq_some_iff.1 hp
    cases hx
    simpa [Settled] using hs
  · cases h

theorem settled_writeLeave (hc : c.Settles) (h : writeLeave style s c = .ok t) : t.Settled := by
  cases c
  case document | header | paragraph | list | quotationLine =>
    cases h
    exact settled_flush s
  case definitionTerm =>
    cases h
    exact settled_print s _
  case definitionDescription => exact (settled_flush s).popPrefix h
  case table =>
    cases h
    exact settled_print s.emptyLine s.table.draw
  all_goals exact hc.elim

theorem settled_of_wrap (hw : n.wrap? = some c) (hc : c.Settles)
    (h : steps style s n.events = .ok t) : t.Settled := by
  rw [Node.events_of_wrap hw] at h
  obtain ⟨u, -, hleave⟩ := exists_of_steps_around h
  obtain ⟨v, m, hwrite, -, rfl⟩ := exists_of_step_leave hleave
  have hw := settled_writeLeave hc hwrite
  exact hw

theorem settled_eventsAll : ∀ (kids : List Node) {s : Session},
    (∀ k ∈ kids, ∀ s t, steps style s k.events = .ok t → s.Settled → t.Settled) →
    steps style s (eventsAll kids) = .ok t → s.Settled → t.Settled
  | [], s, _, h, hs => by
    cases h
    exact hs
  | k :: rest, s, hkids, h, hs => by
    obtain ⟨u, hk, hrest⟩ := exists_of_steps_append h
    have hu := hkids k (by simp) s u hk hs
    exact settled_eventsAll rest (fun m hm => hkids m (by simp [hm])) hrest hu

theorem settled_around (hw : n.wrap? = some c) (hfits : n.Fits)
    (hkids : ∀ d : Container, d.place = c.room → d.Settles) (hc : c.room ≠ .content)
    (hin : s.Settled → (s.entered style c).Settled)
    (hout : ∀ u t, writeLeave style u c = .ok t → u.Settled → t.Settled)
    (h : steps style s n.events = .ok t) (hs : s.Settled) : t.Settled := by
  rw [Node.events_of_wrap hw] at h
  obtain ⟨v, hv, hleave⟩ := exists_of_steps_around h
  obtain ⟨x, m, hwrite, -, rfl⟩ := exists_of_step_leave hleave
  refine hout v x hwrite (settled_eventsAll n.children ?_ hv (hin hs))
  intro k hk s t hst _
  have hp := hfits k hk
  rw [Node.room_of_wrap hw] at hp
  obtain ⟨d, hk', hp⟩ := Node.exists_wrap_of_place hp hc
  exact settled_of_wrap hk' (hkids d hp) hst

/-- After a block no text waits if none did before it. -/
theorem settled_block (hb : n.IsBlock) (hfits : n.Fits) (h : steps style s n.events = .ok t)
    (hs : s.Settled) : t.Settled := by
  have hleaf : ∀ {l : Leaf}, steps style s [.leaf l] = .ok t →
      (∀ u, writeLeaf style s l = .ok u → u.Settled) → t.Settled := by
    intro l hl hwrite
    obtain ⟨v, hv, rfl⟩ := exists_of_step_leaf (step_of_steps_singleton hl)
    exact hwrite v hv
  cases n
  case heading | paragraph | list | table =>
    refine settled_of_wrap rfl ?_ h
    trivial
  case definitionList =>
    refine settled_around rfl hfits ?_ nofun id (fun u t ht hu => ?_) h hs
    · intro d hd
      cases d <;> first | exact trivial | cases hd
    · cases ht
      exact hu
  case quotation =>
    refine settled_around rfl hfits ?_ nofun ?_ (fun u t ht hu => hu.popPrefix ht) h hs
    · intro d hd
      cases d <;> first | exact trivial | cases hd
    · intro _
      simp only [Settled, entered, writeEnter, suppressBreaks, modifyPrinter,
        PrinterStack.modify, PrinterStack.active_setActive]
      exact settled_print _ _
  case horizontalRule => exact hleaf h fun u hu => by cases hu; exact settled_print _ _
  case emptyLines => exact hleaf h fun u hu => by cases hu; exact settled_print _ _
  case call => exact hleaf h fun u hu => by cases hu; exact settled_print _ _
  case rawText => exact hleaf h fun u hu => by cases hu; exact settled_print _ _
  case verbatim content inLine p =>
    refine hleaf h fun u hu => ?_
    cases inLine <;> cases hu <;> exact settled_print _ _
  all_goals exact hb.elim

/-! ## Blocks one after the other -/

theorem Neutral.keeps (hs : s.Neutral) (h : s.Keeps .content t) (ht : t.Settled) : t.Neutral := by
  have hnil := h.printers.captures_eq_nil hs.captures
  have hext := h.printers.active
  rw [hs.active, PrinterStack.active_eq_root hnil] at hext
  refine ⟨h.printers.depth.trans hs.depth, ?_, ?_, ?_, ?_, fun k => ?_, ?_⟩
  · rwa [Settled, PrinterStack.active_eq_root hnil] at ht
  · simpa [Held.none, hs.linePrefixes] using hext.linePrefixes
  · refine Bool.eq_false_iff.2 fun he => ?_
    rcases hext.escapeSpaces he with hno | hno
    · cases hno
    · rw [hs.escapeSpaces] at hno
      cases hno
  · rw [h.nesting.lists (by decide), hs.lists]
  · have hk := hs.counters k
    cases k <;> simp only [Nesting.count] at hk ⊢
    · rw [h.nesting.links, hk]
    · rw [h.nesting.tables, hk]
    · rw [h.nesting.quotations, hk]
    · rw [h.nesting.inLine, hk]
    · rw [h.nesting.definitionLists, hk]
  · rw [h.table.eq_of_content, hs.rows]

theorem neutral_start (style : Style) : (start style).Neutral := by
  refine ⟨rfl, rfl, rfl, rfl, rfl, fun k => ?_, rfl⟩
  cases k <;> rfl

theorem settled_blocks {blocks : List Node} (hblocks : ∀ b ∈ blocks, b.IsBlock ∧ b.Fits)
    (h : steps style s (eventsAll blocks) = .ok t) (hs : s.Settled) : t.Settled :=
  settled_eventsAll blocks
    (fun b hb _ _ hsteps => settled_block (hblocks b hb).1 (hblocks b hb).2 hsteps) h hs

end Session

/-! ## Documents -/

section Documents

variable {style : Style} {blocks front back : List Node} {p q : Parameters}

theorem Node.eventsAll_append : ∀ a b : List Node, eventsAll (a ++ b) = eventsAll a ++ eventsAll b
  | [], _ => rfl
  | n :: a, b => by
    rw [List.cons_append, eventsAll, eventsAll, eventsAll_append a b, List.append_assoc]

/-- All blocks of a regular document are taken, and they leave the session neutral. -/
theorem Session.exists_steps_blocks (hblocks : ∀ b ∈ blocks, b.IsBlock)
    (hregular : ∀ b ∈ blocks, b.Regular style ∧ b.place = .content) {s : Session}
    (hs : s.Neutral) (ht : s.table = s.table.clear) :
    ∃ t, steps style s (eventsAll blocks) = .ok t ∧ t.Neutral ∧ s.Keeps .content t := by
  have hready : ∀ b ∈ blocks, b.Regular style ∧ b.place = .content ∧ Ready b s := by
    intro b hb
    obtain ⟨hr, hp⟩ := hregular b hb
    have hlinks := hs.counters .links
    refine ⟨hr, hp, Int.le_of_eq hlinks.symm, fun h => ?_, Or.inr ht⟩
    rw [hp] at h
    cases h
  obtain ⟨t, hsteps, hkeeps⟩ := steps_eventsAll blocks hready
    fun b hb s hb' => steps_events style b (hregular b hb).1 hb'
  have hset := settled_blocks (fun b hb => ⟨hblocks b hb, (hregular b hb).1.fits.here⟩)
    hsteps hs.settled
  exact ⟨t, hsteps, hs.keeps hkeeps hset, hkeeps⟩

/-- Leaving a document writes nothing when nothing waits. -/
theorem Session.exists_step_leave_document {s : Session} (hs : s.Neutral)
    (r : Option Parameters) :
    ∃ t, step style s (.leave (.document r)) = .ok t ∧ t.written = s.written := by
  refine ⟨_, step_leave (t := s) ?_ rfl, rfl⟩
  rw [writeLeave, flush_of_settled hs.settled]

theorem stripFinalBreaks_prefix (a b : String) :
    (Text.stripFinalBreaks a).toList <+: (Text.stripFinalBreaks (a ++ b)).toList := by
  simp only [Text.stripFinalBreaks, String.toList_ofList, String.toList_append,
    List.reverse_append, List.dropWhile_append]
  split
  · exact List.prefix_rfl
  · rw [List.reverse_append, List.reverse_reverse]
    refine List.IsPrefix.trans ?_ (List.prefix_append _ _)
    have hsuffix := List.dropWhile_suffix (fun c => c == '\n') (l := a.toList.reverse)
    simpa using List.reverse_prefix.2 hsuffix

theorem finish_prefix (o : Options) (a b : String) :
    (o.finish a).toList <+: (o.finish (a ++ b)).toList := by
  unfold Options.finish
  split
  · exact stripFinalBreaks_prefix a b
  · rw [String.toList_append]
    exact List.prefix_append _ _

theorem Session.run_document (style : Style) (r : Option Parameters) (events : List Event) :
    run style (.enter (.document r) :: events) = steps style (start style) events :=
  steps_cons (step_enter style (start style) (.document r))

theorem Node.render_of_session {n : Node} {s : Session} (h : n.session style = .ok s) :
    n.render style = .ok (style.options.finish s.written) := by
  rw [render, h]
  rfl

theorem Node.session_document (hblocks : ∀ b ∈ blocks, b.IsBlock)
    (hregular : ∀ b ∈ blocks, b.Regular style ∧ b.place = .content) (p : Parameters) :
    ∃ t u, Session.steps style (.start style) (eventsAll blocks) = .ok t ∧ t.Neutral ∧
      (Session.start style).Keeps .content t ∧
      (document blocks p).session style = .ok u ∧ u.written = t.written := by
  obtain ⟨t, hsteps, ht, hkeeps⟩ :=
    Session.exists_steps_blocks hblocks hregular (Session.neutral_start style) rfl
  obtain ⟨u, hleave, hwritten⟩ := Session.exists_step_leave_document ht (some p)
  exact ⟨t, u, hsteps, ht, hkeeps, Session.steps_around hsteps hleave, hwritten⟩

/-- What a document writes begins with what its first blocks write. -/
theorem Node.render_prefix (hblocks : ∀ b ∈ front ++ back, b.IsBlock)
    (hregular : ∀ b ∈ front ++ back, b.Regular style ∧ b.place = .content) (p q : Parameters) :
    ∃ t u, (document front q).render style = .ok t ∧
      (document (front ++ back) p).render style = .ok u ∧ t.toList <+: u.toList := by
  obtain ⟨s, s', hfront, hs, hkeeps, hsession, hwritten⟩ := session_document
    (fun b hb => hblocks b (List.mem_append_left _ hb))
    (fun b hb => hregular b (List.mem_append_left _ hb)) q
  obtain ⟨t, t', hall, -, -, hsession', hwritten'⟩ := session_document hblocks hregular p
  obtain ⟨u, hback, hu, hkeeps'⟩ := Session.exists_steps_blocks
    (fun b hb => hblocks b (List.mem_append_right _ hb))
    (fun b hb => hregular b (List.mem_append_right _ hb)) hs
    (by rw [hkeeps.table.eq_of_content]; rfl)
  have htu : t = u := by
    rw [eventsAll_append, Session.steps_append hfront, hback] at hall
    exact (Except.ok.inj hall).symm
  obtain ⟨more, hmore⟩ := hkeeps'.printers.active.written
  rw [hs.active, hu.active] at hmore
  refine ⟨_, _, render_of_session hsession, render_of_session hsession', ?_⟩
  rw [hwritten, hwritten', htu, Session.written, Session.written, hmore]
  exact finish_prefix _ _ _

/-- Between any two blocks of a document the session is neutral. -/
theorem Node.neutral_between_blocks (hblocks : ∀ b ∈ blocks, b.IsBlock)
    (hregular : (document blocks p).Regular style) :
    (∃ t, (document blocks p).session style = .ok t) ∧
      (∀ front, front <+: blocks → ∃ s,
        Session.run style (.enter (.document p) :: eventsAll front) = .ok s ∧ s.Neutral) ∧
      (∀ events, events <+: (document blocks p).events → ∃ s,
        Session.run style events = .ok s ∧ ∀ k, 0 ≤ s.nesting.count k) ∧
      ∀ front q, front <+: blocks → ∃ t u, (document front q).render style = .ok t ∧
        (document blocks p).render style = .ok u ∧ t.toList <+: u.toList := by
  have hchildren : ∀ b ∈ blocks, b.Regular style ∧ b.place = .content :=
    fun b hb => ⟨hregular.child hb, hregular.place_child hb⟩
  obtain ⟨-, u, -, -, -, hsession, -⟩ := session_document hblocks hchildren p
  refine ⟨⟨u, hsession⟩, ?_, ?_, ?_⟩
  · rintro front ⟨back, rfl⟩
    obtain ⟨t, -, hrun, ht, -⟩ := session_document
      (fun b hb => hblocks b (List.mem_append_left _ hb))
      (fun b hb => hchildren b (List.mem_append_left _ hb)) p
    exact ⟨t, by rw [Session.run_document, hrun], ht⟩
  · rintro events ⟨rest, hrest⟩
    rw [session, Session.run_eq_steps, ← hrest] at hsession
    obtain ⟨s, hs, -⟩ := Session.exists_of_steps_append hsession
    refine ⟨s, hs, fun k => ?_⟩
    rw [Session.count_steps k events hs, (Session.neutral_start style).counters k, Int.zero_add]
    exact (balanced k (document blocks p)).nonneg events rest hrest.symm
  · rintro front q ⟨back, rfl⟩
    exact render_prefix hblocks hchildren p q

end Documents

/-- A list inside a list, and a table with a head over two columns and a link in a cell. -/
def twoBlocks : List Node := [
  .list .bulleted [.listItem [.text "a", .list .numbered [.listItem [.text "b"] .empty] .empty]
    .empty] .empty,
  .table [
    .tableRow [.tableCell [.text "c"] true (.ofList [("colspan", "2")])] .empty,
    .tableRow [.tableCell [.link ⟨"d", "url", false, .empty⟩ [.text "e"] false .empty] false .empty]
      .empty] .empty]

theorem regular_twoBlocks (style : Style) : (Node.document twoBlocks .empty).Regular style := by
  have hone : Table.spanOf (Parameters.empty.get? "colspan") = .ok 1 := rfl
  have htwo : Table.spanOf ((Parameters.ofList [("colspan", "2")]).get? "colspan") = .ok 2 := rfl
  have hnodes : (Node.document twoBlocks .empty).descendants = Node.descendantsAll twoBlocks := rfl
  constructor <;> rw [Node.Everywhere, hnodes] <;>
    simp only [twoBlocks, Node.descendants, Node.descendantsAll, List.append_nil, List.nil_append,
      List.cons_append, List.forall_mem_cons]
  · simp [Node.Fits, Node.children, Node.place, Node.room, Node.wrap?, Container.place,
      Container.room]
  · simp [Node.SpanValid, hone, htwo]
  · simp [Node.Labelled]
  · simp [Node.CellsPlain, Node.IsCell, Node.IsTable, Node.descendants, Node.descendantsAll]

theorem Node.neutral_between_twoBlocks :
    (∀ b ∈ twoBlocks, b.IsBlock) ∧ (document twoBlocks .empty).Regular (.standard {}) ∧
      ∃ t u, (document (twoBlocks.take 1) .empty).render (.standard {}) = .ok t ∧
        (document twoBlocks .empty).render (.standard {}) = .ok u ∧ t.toList <+: u.toList := by
  have hblocks : ∀ b ∈ twoBlocks, b.IsBlock := by simp [twoBlocks, IsBlock]
  obtain ⟨-, -, -, hprefix⟩ := neutral_between_blocks hblocks (regular_twoBlocks (.standard {}))
  exact ⟨hblocks, regular_twoBlocks _, hprefix _ .empty (List.take_prefix 1 twoBlocks)⟩

end Markwright
