import Markwright.Proofs.AnyTree
import Markwright.Proofs.QuoteMarks

/-!
# What an event does with the printers

Whatever the event is, the writer does one of few things with the printers (`PrinterStack.Step`). It
prints on the active one and may add a line prefix (`Printer.Moves`); at the end of a container it
may take a prefix off; it drops the line breaks that follow, which only an item and a quotation do;
it pushes a printer or takes one off; or it queues text. So what holds of printers through a session
is proved once for each of these and not for each event.
-/

namespace Markwright

open Node (eventsAll)

/-- What is done with a printer at one event, one thing after the other. A prefix comes, and the
escaping of spaces changes, only where nothing waits. -/
inductive Printer.Moves (p : Printer) : Printer → Prop where
  | refl : Moves p p
  | print {q : Printer} (h : Moves p q) (around : Surroundings) (s : String) :
      Moves p (q.print around s)
  | flush {q : Printer} (h : Moves p q) (around : Surroundings) : Moves p (q.flush around)
  | pushPrefix {q : Printer} {x : String} (h : Moves p q) (hx : IsIndent x)
      (hq : q.pending = none) : Moves p (q.pushPrefix x)
  | escapeSpaces {q : Printer} (h : Moves p q) (hq : q.pending = none) (b : Bool) :
      Moves p { q with escapeSpaces := b }
  | leaveLine {q : Printer} (h : Moves p q) : Moves p { q with onNewLine := false }

/-- The line breaks that follow the beginning of the container are dropped. -/
def Container.Opens : Container → Prop
  | .listItem _ | .quotation _ => True
  | _ => False

namespace Printer

variable {p q r : Printer} {k : Nat}

theorem Marked.moves (h : p.Marked k) (hpq : p.Moves q) : q.Marked k := by
  induction hpq with
  | refl => exact h
  | print _ around s ih => exact ih.print around s
  | flush _ around ih => exact ih.flush around
  | pushPrefix _ hx _ ih => exact ih.pushPrefix hx
  | escapeSpaces _ _ _ ih | leaveLine _ ih => exact ⟨ih.indents, ih.held, ih.blank, ih.line⟩

/-- Each line prefix is a mark or blanks, and a blank page holds nothing. -/
abbrev Indented (p : Printer) : Prop := p.Marked 0

theorem indented_fresh (onNewLine : Bool) : (fresh onNewLine).Indented :=
  ⟨nofun, Nat.zero_le _, fun _ => rfl, fun _ => Nat.zero_le _⟩

theorem Indented.popPrefix? {x : String} (h : p.Indented) (hr : p.popPrefix? = some (x, r)) :
    r.Indented := by
  obtain ⟨y, -, hy⟩ := Option.map_eq_some_iff.1 hr
  cases hy
  exact ⟨fun z hz => h.indents z (List.dropLast_subset _ hz), Nat.zero_le _, h.blank,
    fun _ => Nat.zero_le _⟩

end Printer

namespace PrinterStack

/-- What an event does with the printers. -/
inductive Step : Event → PrinterStack → PrinterStack → Prop where
  | stay {e : Event} {s : PrinterStack} {q : Printer} (h : s.active.Moves q) :
      Step e s (s.setActive q)
  | unindent {c : Container} {s : PrinterStack} {q r : Printer} {x : String}
      (h : s.active.Moves q) (hr : q.popPrefix? = some (x, r)) : Step (.leave c) s (s.setActive r)
  | suppress {c : Container} {s : PrinterStack} {q : Printer} (hc : c.Opens)
      (h : s.active.Moves q) (hq : q.pending = none) :
      Step (.enter c) s (s.setActive { q with suppressBreaks := true })
  | push {c : Container} {s : PrinterStack} {q : Printer} (h : s.active.Moves q) :
      Step (.enter c) s (s.setActive q).push
  | pop {c : Container} {s : PrinterStack} {p q : Printer} {rest : List Printer}
      (hs : s.captures = p :: rest) (h : active ⟨s.root, rest⟩ |>.Moves q) :
      Step (.leave c) s (setActive ⟨s.root, rest⟩ q)
  | delay {l : Leaf} {s : PrinterStack} (text : String) :
      Step (.leaf l) s (s.modify (·.delay text))

/-- The active printer moves, and those below it stay. -/
def Moves (s t : PrinterStack) : Prop := ∃ q, s.active.Moves q ∧ t = s.setActive q

namespace Moves

variable {s t : PrinterStack} {e : Event}

protected theorem refl (s : PrinterStack) : s.Moves s := ⟨_, .refl, (setActive_active s).symm⟩

theorem modify {f : Printer → Printer} (h : s.Moves t)
    (hf : s.active.Moves t.active → s.active.Moves (f t.active)) : s.Moves (t.modify f) := by
  obtain ⟨q, hq, rfl⟩ := h
  rw [active_setActive] at hf
  exact ⟨_, hf hq, by rw [PrinterStack.modify, active_setActive, setActive_setActive]⟩

theorem print (h : s.Moves t) (around : Surroundings) (text : String) :
    s.Moves (t.print around text) := h.modify (·.print around text)

theorem flush (h : s.Moves t) (around : Surroundings) : s.Moves (t.flush around) :=
  h.modify (·.flush around)

theorem pushPrefix {x : String} (h : s.Moves t) (hx : IsIndent x)
    (ht : t.active.pending = none) : s.Moves (t.modify (·.pushPrefix x)) :=
  h.modify (·.pushPrefix hx ht)

theorem step (h : s.Moves t) : Step e s t := by
  obtain ⟨q, hq, rfl⟩ := h
  exact .stay hq

theorem suppress {c : Container} (h : s.Moves t) (hc : c.Opens) (ht : t.active.pending = none) :
    Step (.enter c) s (t.modify ({ · with suppressBreaks := true })) := by
  obtain ⟨q, hq, rfl⟩ := h
  rw [active_setActive] at ht
  rw [PrinterStack.modify, active_setActive, setActive_setActive]
  exact .suppress hc hq ht

end Moves

/-- All printers are indented. -/
def Indented (s : PrinterStack) : Prop := s.root.Indented ∧ ∀ p ∈ s.captures, p.Indented

namespace Indented

variable {s t : PrinterStack} {p : Printer} {e : Event}

theorem active (h : s.Indented) : s.active.Indented := by
  obtain ⟨root, captures⟩ := s
  cases captures with
  | nil => exact h.1
  | cons q rest => exact h.2 q (by simp)

theorem setActive (h : s.Indented) (hp : p.Indented) : (s.setActive p).Indented := by
  obtain ⟨root, captures⟩ := s
  cases captures with
  | nil => exact ⟨hp, nofun⟩
  | cons q rest => exact ⟨h.1, fun r hr => (List.mem_cons.1 hr).elim (· ▸ hp)
      fun hr => h.2 r (List.mem_cons_of_mem q hr)⟩

theorem step (h : s.Indented) (hst : Step e s t) : t.Indented := by
  cases hst with
  | stay hq => exact h.setActive (h.active.moves hq)
  | unindent hq hr => exact h.setActive (Printer.Indented.popPrefix? (h.active.moves hq) hr)
  | suppress _ hq _ => exact h.setActive (h.active.moves hq).suppress
  | push hq =>
    have hbelow := h.setActive (h.active.moves hq)
    exact ⟨hbelow.1, fun r hr => (List.mem_cons.1 hr).elim
      (· ▸ Printer.indented_fresh _) (hbelow.2 r)⟩
  | @pop c _ p q rest hs hq =>
    have hbelow : Indented ⟨s.root, rest⟩ :=
      ⟨h.1, fun r hr => h.2 r (hs ▸ List.mem_cons_of_mem p hr)⟩
    exact hbelow.setActive (hbelow.active.moves hq)
  | delay text =>
    have hactive := h.active
    exact h.setActive ⟨hactive.indents, hactive.held, hactive.blank, hactive.line⟩

end Indented

theorem Step.push_self (c : Container) (s : PrinterStack) : Step (.enter c) s s.push := by
  have hpush := Step.push (c := c) (s := s) .refl
  rwa [setActive_active] at hpush

theorem pending_active_print (s : PrinterStack) (around : Surroundings) (text : String) :
    (s.print around text).active.pending = none := by
  rw [print, modify, active_setActive]
  exact Printer.pending_print _ _ _

end PrinterStack

namespace Session

variable {style : Style} {s t : Session} {b : PrinterStack} {e : Event}

/-! ## The writer's events -/

theorem moves_emptyLine (h : b.Moves s.printers) : b.Moves s.emptyLine.printers := h.print _ _

theorem moves_markFormat (s : Session) (f : Format) (markup : String) (entered : Bool) :
    s.printers.Moves (s.markFormat f markup entered).printers := by
  unfold markFormat
  split
  · exact .refl _
  · dsimp only
    have hprint : s.printers.Moves (s.print markup).printers :=
      (PrinterStack.Moves.refl _).print _ _
    split
    · exact hprint.modify (f := ({ · with escapeSpaces := entered }))
        (·.escapeSpaces (PrinterStack.pending_active_print _ _ _) entered)
    · exact hprint

theorem moves_separateItem (s : Session) : s.printers.Moves s.separateItem.printers := by
  have hrefl := PrinterStack.Moves.refl s.printers
  unfold separateItem
  split
  · dsimp only
    split
    · exact (hrefl.print _ "\n").print _ "\n"
    · exact hrefl.print _ "\n"
  · exact hrefl

theorem step_writeEnter (style : Style) (s : Session) (c : Container) :
    PrinterStack.Step (.enter c) s.printers (writeEnter style s c).printers := by
  have hrefl := PrinterStack.Moves.refl s.printers
  cases c
  case document | definitionList | tableRow => exact hrefl.step
  case header level _ _ =>
    simp only [writeEnter]
    split
    · exact ((hrefl.print _ _).print _ _).step
    · exact ((moves_emptyLine hrefl).print _ _).step
  case paragraph | definitionTerm => exact (moves_emptyLine hrefl).step
  case format f _ => exact (moves_markFormat s f _ _).step
  case list =>
    simp only [writeEnter]
    split
    · exact (moves_emptyLine hrefl).step
    · exact (hrefl.print _ "\n").step
  case listItem =>
    have hmarked := (moves_separateItem s).print s.separateItem.nesting.around
      (Text.padRight style.options.listIndentWidth s.separateItem.itemMarker)
    have hpushed := hmarked.pushPrefix (isIndent_indentation style)
      (PrinterStack.pending_active_print _ _ _)
    refine hpushed.suppress trivial ?_
    rw [PrinterStack.modify, PrinterStack.active_setActive]
    exact PrinterStack.pending_active_print _ _ _
  case definitionDescription =>
    have hmarked := hrefl.print s.nesting.around (Text.padRight style.options.listIndentWidth ":")
    exact (hmarked.pushPrefix (isIndent_indentation style)
      (PrinterStack.pending_active_print _ _ _)).step
  case table => exact (hrefl.modify (f := ({ · with onNewLine := false })) (·.leaveLine)).step
  case tableCell | tableHeadCell => exact .push_self _ s.printers
  case quotation =>
    have hbroken := hrefl.print s.nesting.around "\n"
    have hpushed := hbroken.pushPrefix (Or.inl rfl : IsIndent "> ")
      (PrinterStack.pending_active_print _ _ _)
    exact (hpushed.print s.nesting.around "\n").suppress trivial
      (PrinterStack.pending_active_print _ _ _)
  case quotationLine =>
    simp only [writeEnter]
    split
    · exact hrefl.step
    · exact (moves_emptyLine hrefl).step
  case link r freeStanding _ =>
    have hflush := hrefl.flush s.nesting.around
    simp only [writeEnter]
    split
    · obtain ⟨q, hq, hsame⟩ := hflush
      have hpush := PrinterStack.Step.push (c := .link r freeStanding ‹_›) hq
      rw [← hsame] at hpush
      exact hpush
    · exact hflush.step

theorem step_popPrefix {c : Container} (hb : b.Moves s.printers) (h : s.popPrefix = .ok t) :
    PrinterStack.Step (.leave c) b t.printers := by
  obtain ⟨q, hq, hs⟩ := hb
  unfold popPrefix at h
  split at h
  · rename_i x p hp
    cases h
    rw [hs, PrinterStack.active_setActive] at hp
    dsimp only
    rw [hs, PrinterStack.setActive_setActive]
    exact .unindent hq hp
  · cases h

theorem exists_of_popCapture {text : String} (h : s.popCapture = .ok (text, t)) :
    ∃ p rest, s.printers.captures = p :: rest ∧ t.printers = ⟨s.printers.root, rest⟩ := by
  unfold popCapture PrinterStack.pop? at h
  rcases hs : s.printers.captures with _ | ⟨p, rest⟩
  · rw [hs] at h
    cases h
  · rw [hs] at h
    cases h
    exact ⟨p, rest, rfl, rfl⟩

theorem step_leaveCell {c : Container} {isHeader : Bool} {q : Option Parameters}
    (h : s.leaveCell isHeader q = .ok t) : PrinterStack.Step (.leave c) s.printers t.printers := by
  unfold leaveCell at h
  split at h
  · cases h
  · rename_i text u hpop
    obtain ⟨p, rest, hs, hu⟩ := exists_of_popCapture hpop
    split at h <;> cases h
    have hstep := PrinterStack.Step.pop (c := c) hs .refl
    rw [PrinterStack.setActive_active, ← hu] at hstep
    exact hstep

theorem step_writeLeave {c : Container} (h : writeLeave style s c = .ok t) :
    PrinterStack.Step (.leave c) s.printers t.printers := by
  have hrefl := PrinterStack.Moves.refl s.printers
  cases c
  case document | header | paragraph | list | quotationLine =>
    cases h
    exact (hrefl.flush _).step
  case definitionList | tableRow =>
    cases h
    exact hrefl.step
  case format f _ =>
    cases h
    exact (moves_markFormat s f _ _).step
  case listItem | quotation => exact step_popPrefix hrefl h
  case definitionTerm =>
    cases h
    exact (hrefl.print _ "\n").step
  case definitionDescription => exact step_popPrefix (s := s.flush) (hrefl.flush _) h
  case table =>
    cases h
    exact ((moves_emptyLine hrefl).print _ _).step
  case tableCell | tableHeadCell => exact step_leaveCell h
  case link r freeStanding q =>
    unfold writeLeave at h
    dsimp only at h
    split at h
    · cases h
      exact (hrefl.print _ _).step
    · split at h
      · split at h
        · cases h
        · rename_i label u hpop
          cases h
          obtain ⟨p, rest, hs, hu⟩ := exists_of_popCapture hpop
          obtain ⟨r', hr', hprint⟩ := (PrinterStack.Moves.refl u.printers).print u.nesting.around
            (linkText style r label q)
          rw [hu] at hr'
          have hstep := PrinterStack.Step.pop (c := .link r freeStanding q) hs hr'
          rw [← hu, ← hprint] at hstep
          exact hstep
      · cases h
        exact hrefl.step

theorem printers_imageLabel {r : Reference} {q : Option Parameters} {label : String}
    (h : imageLabel style s r q = .ok (label, t)) : t.printers = s.printers := by
  unfold imageLabel at h
  split at h
  · cases h
    rfl
  · split at h <;> cases h <;> rfl

theorem moves_writeLeaf {l : Leaf} (hl : l.queued? = none) (h : writeLeaf style s l = .ok t) :
    s.printers.Moves t.printers := by
  have hrefl := PrinterStack.Moves.refl s.printers
  cases l
  case image r _ q =>
    unfold writeLeaf at h
    dsimp only at h
    split at h
    · cases h
    · rename_i label u hlabel
      cases h
      rw [← printers_imageLabel hlabel]
      exact (PrinterStack.Moves.refl u.printers).print _ _
  case call id q content inLine =>
    cases h
    cases inLine
    · exact (moves_emptyLine hrefl).print _ _
    · exact hrefl.print _ _
  case verbatim content inLine q =>
    cases inLine <;> cases h
    · exact (moves_emptyLine hrefl).print _ _
    · exact hrefl.print _ _
  case rawText =>
    cases h
    split
    · exact hrefl.print _ _
    · exact (moves_emptyLine hrefl).print _ _
  case horizontalLine =>
    cases h
    exact (moves_emptyLine hrefl).print _ _
  case emptyLines =>
    cases h
    exact hrefl.print _ _
  case newLine =>
    cases h
    split <;> exact hrefl.print _ _
  case word | symbol | space => cases hl
  case anchor =>
    cases h
    exact hrefl

theorem step_writeLeaf {l : Leaf} (h : writeLeaf style s l = .ok t) :
    PrinterStack.Step (.leaf l) s.printers t.printers := by
  rcases hl : l.queued? with _ | text
  · exact (moves_writeLeaf hl h).step
  · rw [writeLeaf_queued hl] at h
    cases h
    exact .delay text

/-- What an event does with the printers of a session. -/
theorem printers_step (h : step style s e = .ok t) :
    PrinterStack.Step e s.printers t.printers := by
  cases e with
  | enter c =>
    cases h
    exact step_writeEnter style { s with nesting := s.nesting.enter c } c
  | leave c =>
    obtain ⟨u, n, hwrite, -, rfl⟩ := exists_of_step_leave h
    have hstep := step_writeLeave hwrite
    exact hstep
  | leaf l =>
    obtain ⟨u, hwrite, rfl⟩ := exists_of_step_leaf h
    have hstep := step_writeLeaf hwrite
    exact hstep

theorem indented_start (style : Style) : (start style).printers.Indented :=
  ⟨Printer.indented_fresh true, nofun⟩

theorem indented_steps : ∀ {events : List Event} {s : Session}, s.printers.Indented →
    steps style s events = .ok t → t.printers.Indented
  | [], s, h, hs => by
    cases hs
    exact h
  | e :: rest, s, h, hs => by
    obtain ⟨u, hu, hrest⟩ := exists_of_steps_cons hs
    exact indented_steps (h.step (printers_step hu)) hrest

/-! ## Containers -/

section Around

variable {u : Session} {c : Container} {inner : List Event}

/-- A container that pushes no printer moves the active one when it is entered and when it is left,
where a prefix may be taken off. One that pushes a printer moves only the one below. -/
theorem exists_moves_of_around (hin : (s.entered style c).Stays t)
    (hleave : step style t (.leave c) = .ok u) (hout : s.Stays u) :
    (∃ q r, s.printers.active.Moves q ∧
      ((s.entered style c).printers.active = q ∨ c.Opens ∧ q.pending = none ∧
        (s.entered style c).printers.active = { q with suppressBreaks := true }) ∧
      (s.entered style c).printers.depth = s.printers.depth ∧
      t.printers.active.Moves r ∧
      (u.printers.active = r ∨ ∃ x, r.popPrefix? = some (x, u.printers.active))) ∨
    (∃ q, s.printers.active.Moves q ∧ q.Moves u.printers.active) := by
  have hdepth := hin.printers.depth
  have hdepth' := hout.printers.depth
  have hleft := printers_step hleave
  -- A container that pushes no printer takes none off.
  have hkept : (s.entered style c).printers.depth = s.printers.depth → ∃ r,
      t.printers.active.Moves r ∧
        (u.printers.active = r ∨ ∃ x, r.popPrefix? = some (x, u.printers.active)) := by
    intro hsame
    rw [hsame] at hdepth
    generalize u.printers = after at hleft hdepth'
    cases hleft with
    | stay hr => exact ⟨_, hr, Or.inl (PrinterStack.active_setActive _ _)⟩
    | unindent hr hx => exact ⟨_, hr, Or.inr ⟨_, by rwa [PrinterStack.active_setActive]⟩⟩
    | pop hs _ =>
      rw [PrinterStack.depth_setActive] at hdepth'
      have hlength := congrArg List.length hs
      simp only [PrinterStack.depth, List.length_cons] at hdepth hdepth' hlength
      omega
  have hentered := printers_step (step_enter style s c)
  have hextends := hin.printers
  generalize (s.entered style c).printers = inside at hentered hextends hkept hdepth
  cases hentered with
  | stay hq =>
    have hsame := PrinterStack.depth_setActive s.printers ‹_›
    obtain ⟨r, hr, hu⟩ := hkept hsame
    exact Or.inl ⟨_, r, hq, Or.inl (PrinterStack.active_setActive _ _), hsame, hr, hu⟩
  | suppress hc hq hpending =>
    have hsame := PrinterStack.depth_setActive s.printers { ‹Printer› with suppressBreaks := true }
    obtain ⟨r, hr, hu⟩ := hkept hsame
    exact Or.inl ⟨_, r, hq, Or.inr ⟨hc, hpending, PrinterStack.active_setActive _ _⟩, hsame, hr, hu⟩
  | @push _ _ q hq =>
    have hover : (s.printers.setActive q).Captures t.printers :=
      (PrinterStack.captures_push _).extends hextends
    obtain ⟨p, hp⟩ := hover
    generalize u.printers = after at hleft hdepth'
    rw [hp] at hleft
    have hmore : PrinterStack.depth { s.printers.setActive q with
        captures := p :: (s.printers.setActive q).captures } = s.printers.depth + 1 :=
      congrArg (· + 1) (PrinterStack.depth_setActive s.printers q)
    cases hleft with
    | stay hr =>
      rw [PrinterStack.depth_setActive, hmore] at hdepth'
      omega
    | unindent hr hx =>
      rw [PrinterStack.depth_setActive, hmore] at hdepth'
      omega
    | pop hs hr =>
      obtain ⟨-, rfl⟩ := List.cons.inj hs
      refine Or.inr ⟨q, hq, ?_⟩
      rw [PrinterStack.active_setActive]
      have hbelow : PrinterStack.active ⟨(s.printers.setActive q).root,
          (s.printers.setActive q).captures⟩ = q := PrinterStack.active_setActive _ _
      rwa [hbelow] at hr

variable {R : Session → List Event → Session → Prop}

theorem relates_of_eventsAll (hnil : ∀ s, R s [] s)
    (happend : ∀ {s t u a b}, R s a t → R t b u → R s (a ++ b) u) : ∀ {kids : List Node},
    (∀ k ∈ kids, ∀ s t, 0 ≤ s.nesting.links → steps style s k.events = .ok t → R s k.events t) →
    ∀ {s t : Session}, 0 ≤ s.nesting.links → steps style s (eventsAll kids) = .ok t →
    R s (eventsAll kids) t
  | [], _, s, _, _, h => by
    cases h
    exact hnil s
  | k :: rest, hkids, s, t, hl, h => by
    obtain ⟨u, hu, hrest⟩ := exists_of_steps_append h
    have hlinks := (stays_of_steps k s u hl hu).links
    exact happend (hkids k (by simp) s u hl hu) (relates_of_eventsAll hnil happend
      (fun m hm => hkids m (List.mem_cons_of_mem k hm)) (hlinks ▸ hl) hrest)

/-- What holds of each leaf and is carried over from the inside of a container to all of it, holds
of the events of a tree. -/
theorem relates_of_steps (hnil : ∀ s, R s [] s)
    (happend : ∀ {s t u a b}, R s a t → R t b u → R s (a ++ b) u)
    (hleaf : ∀ {s t l}, step style s (.leaf l) = .ok t → R s [.leaf l] t)
    (haround : ∀ {s t u c inner}, (s.entered style c).Stays t → R (s.entered style c) inner t →
      step style t (.leave c) = .ok u → s.Stays u → R s (Event.around c inner) u) (n : Node) :
    ∀ s t, 0 ≤ s.nesting.links → steps style s n.events = .ok t → R s n.events t := by
  have hleaves : ∀ {leaves : List Leaf} {s t : Session},
      steps style s (leaves.map .leaf) = .ok t → R s (leaves.map .leaf) t := by
    intro leaves
    induction leaves with
    | nil =>
      intro s t h
      cases h
      exact hnil s
    | cons l rest ih =>
      intro s t h
      obtain ⟨u, hu, hrest⟩ := exists_of_steps_cons h
      exact happend (hleaf hu) (ih hrest)
  induction n using Node.childrenInduction with
  | step n ih =>
  intro s t hl h
  have hstays := stays_of_steps n s t hl h
  rcases hw : n.wrap? with _ | c
  · rw [Node.events_of_leaves hw] at h ⊢
    exact hleaves h
  rw [Node.events_of_wrap hw] at h ⊢
  obtain ⟨u, hu, hleave⟩ := exists_of_steps_around h
  have hin := stays_of_eventsAll (fun k _ => stays_of_steps k) (links_entered hl c) hu
  exact haround hin (relates_of_eventsAll hnil happend ih (links_entered hl c) hu) hleave hstays

end Around

end Session

end Markwright
