import Markwright.Proofs.Moves

/-!
# Line breaks that are dropped

A printer drops line breaks at the start of its page, and from the beginning of an item or a
quotation on, until anything else is written. So where breaks are dropped on a page that is not
blank, nothing has been written since an item or a quotation was begun (`Session.Opened`), be it
that it is still open or that it was left without a word.
-/

namespace Markwright

open Node (eventsAll)

/-! ## Pages -/

namespace Printer

variable {p q r : Printer} {around : Surroundings} {s : String}

/-- Nothing has been written between the two. -/
structure SamePage (p q : Printer) : Prop where
  written : q.written = p.written
  pageBlank : q.pageBlank = p.pageBlank

protected theorem SamePage.refl (p : Printer) : p.SamePage p := ⟨rfl, rfl⟩

protected theorem SamePage.trans (h : p.SamePage q) (k : q.SamePage r) : p.SamePage r :=
  ⟨k.written.trans h.written, k.pageBlank.trans h.pageBlank⟩

/-- Where breaks are dropped, they were before and nothing has been written since. -/
def Hushed (p q : Printer) : Prop := q.suppressBreaks = true →
  p.suppressBreaks = true ∧ p.SamePage q

namespace Hushed

protected theorem refl (p : Printer) : p.Hushed p := fun h => ⟨h, .refl p⟩

protected theorem trans (h : p.Hushed q) (k : q.Hushed r) : p.Hushed r := by
  intro hr
  obtain ⟨hq, hqr⟩ := k hr
  obtain ⟨hp, hpq⟩ := h hq
  exact ⟨hp, hpq.trans hqr⟩

theorem of_eq (hs : q.suppressBreaks = p.suppressBreaks) (hpage : p.SamePage q) : p.Hushed q :=
  fun h => ⟨hs.symm.trans h, hpage⟩

theorem write (p : Printer) (s : String) : p.Hushed (p.write s) := by
  by_cases hs : p.passed s = []
  · rw [write_of_passed_nil hs]
    exact .refl p
  · rw [write_of_passed_ne hs]
    exact fun h => nomatch h

theorem flush (p : Printer) (around : Surroundings) : p.Hushed (p.flush around) := by
  unfold Printer.flush
  split
  · exact .refl p
  · have hcleared : p.Hushed { p with pending := none, flushes := p.flushes + 1 } :=
      of_eq rfl ⟨rfl, rfl⟩
    exact hcleared.trans (write _ _)

theorem moves (h : p.Moves q) : p.Hushed q := by
  induction h with
  | refl => exact .refl p
  | print _ around s ih => exact (ih.trans (flush _ around)).trans (write _ s)
  | flush _ around ih => exact ih.trans (flush _ around)
  | pushPrefix _ _ _ ih | escapeSpaces _ _ _ ih | leaveLine _ ih =>
    exact ih.trans (of_eq rfl ⟨rfl, rfl⟩)

theorem popPrefix? {x : String} (h : p.popPrefix? = some (x, q)) : p.Hushed q := by
  obtain ⟨y, -, hy⟩ := Option.map_eq_some_iff.1 h
  cases hy
  exact of_eq rfl ⟨rfl, rfl⟩

end Hushed

end Printer

/-! ## Runs -/

namespace Session

variable {style : Style} {s t u : Session} {a b events : List Event} {c : Container}

/-- An item or a quotation is begun along the events, and what it was begun on has nothing written
on it since. -/
def Opened (style : Style) (s : Session) (events : List Event) (t : Session) : Prop :=
  ∃ front c back u, events = front ++ .enter c :: back ∧ c.Opens ∧
    steps style s (front ++ [.enter c]) = .ok u ∧ u.printers.depth = t.printers.depth ∧
    u.printers.active.SamePage t.printers.active

theorem Opened.append (h : Opened style s a t) (b : List Event)
    (hdepth : u.printers.depth = t.printers.depth)
    (hpage : t.printers.active.SamePage u.printers.active) : Opened style s (a ++ b) u := by
  obtain ⟨front, c, back, v, rfl, hc, hv, hvdepth, hvpage⟩ := h
  refine ⟨front, c, back ++ b, v, by simp, hc, hv, hvdepth.trans hdepth.symm, hvpage.trans hpage⟩

theorem Opened.after (h : Opened style t b u) (hs : steps style s a = .ok t) :
    Opened style s (a ++ b) u := by
  obtain ⟨front, c, back, v, rfl, hc, hv, hdepth, hpage⟩ := h
  refine ⟨a ++ front, c, back, v, by simp, hc, ?_, hdepth, hpage⟩
  rw [List.append_assoc, steps_append hs, hv]

theorem opened_enter (hc : c.Opens) (rest : List Event)
    (hdepth : (s.entered style c).printers.depth = t.printers.depth)
    (hpage : (s.entered style c).printers.active.SamePage t.printers.active) :
    Opened style s (.enter c :: rest) t :=
  ⟨[], c, rest, _, rfl, hc, steps_singleton (step_enter style s c), hdepth, hpage⟩

/-- Where breaks are dropped, nothing has been written, or nothing since an item or a quotation was
begun. -/
structure Quiet (style : Style) (s : Session) (events : List Event) (t : Session) : Prop where
  steps : steps style s events = .ok t
  depth : t.printers.depth = s.printers.depth
  dropped : t.printers.active.suppressBreaks = true →
    (s.printers.active.suppressBreaks = true ∧ s.printers.active.SamePage t.printers.active) ∨
      Opened style s events t

theorem quiet_nil (s : Session) : Quiet style s [] s :=
  ⟨rfl, rfl, fun h => Or.inl ⟨h, .refl _⟩⟩

theorem Quiet.append (h : Quiet style s a t) (k : Quiet style t b u) :
    Quiet style s (a ++ b) u := by
  refine ⟨by rw [steps_append h.steps, k.steps], k.depth.trans h.depth, fun hu => ?_⟩
  rcases k.dropped hu with ⟨ht, hpage⟩ | hopened
  · rcases h.dropped ht with ⟨hs, hpage'⟩ | hopened
    · exact Or.inl ⟨hs, hpage'.trans hpage⟩
    · exact Or.inr (hopened.append b k.depth hpage)
  · exact Or.inr (hopened.after h.steps)

theorem quiet_leaf {l : Leaf} (h : step style s (.leaf l) = .ok t) :
    Quiet style s [.leaf l] t := by
  refine ⟨steps_singleton h, (stays_of_leaf h).printers.depth, fun ht => Or.inl ?_⟩
  have hstep := printers_step h
  generalize t.printers = after at hstep ht
  have hhushed : s.printers.active.Hushed after.active := by
    cases hstep with
    | stay hq =>
      rw [PrinterStack.active_setActive]
      exact .moves hq
    | delay text =>
      rw [PrinterStack.modify, PrinterStack.active_setActive]
      exact .of_eq rfl ⟨rfl, rfl⟩
  exact hhushed ht

theorem quiet_around {inner : List Event} (hin : (s.entered style c).Stays t)
    (h : Quiet style (s.entered style c) inner t) (hleave : step style t (.leave c) = .ok u)
    (hout : s.Stays u) : Quiet style s (Event.around c inner) u := by
  refine ⟨steps_around h.steps hleave, hout.printers.depth, fun hu => ?_⟩
  rcases exists_moves_of_around hin hleave hout with
    ⟨q, r, hq, hentered, hdepth, hr, hleft⟩ | ⟨q, hq, hqu⟩
  · have hru : r.Hushed u.printers.active := by
      rcases hleft with hleft | ⟨x, hx⟩
      · rw [hleft]
        exact .refl r
      · exact .popPrefix? hx
    obtain ⟨ht, hpage⟩ := (Printer.Hushed.moves hr).trans hru hu
    have hsame := hout.printers.depth
    rw [Event.around, List.cons_append]
    rcases h.dropped ht with ⟨hinside, hpage'⟩ | hopened
    · rcases hentered with hentered | ⟨hc, -, -⟩
      · obtain ⟨hs, hpage''⟩ := Printer.Hushed.moves hq (hentered ▸ hinside)
        rw [← hentered] at hpage''
        exact Or.inl ⟨hs, (hpage''.trans hpage').trans hpage⟩
      · exact Or.inr (opened_enter hc _ (hdepth.trans hsame.symm) (hpage'.trans hpage))
    · have hafter := (hopened.append [.leave c]
        (hsame.trans (h.depth.trans hdepth).symm) hpage).after
          (steps_singleton (step_enter style s c))
      exact Or.inr hafter
  · exact Or.inl (((Printer.Hushed.moves hq).trans (.moves hqu)) hu)

theorem quiet_of_steps (n : Node) : ∀ s t : Session, 0 ≤ s.nesting.links →
    steps style s n.events = .ok t → Quiet style s n.events t :=
  relates_of_steps quiet_nil .append quiet_leaf quiet_around n

theorem quiet_of_eventsAll {kids : List Node} (hl : 0 ≤ s.nesting.links)
    (h : steps style s (eventsAll kids) = .ok t) : Quiet style s (eventsAll kids) t :=
  relates_of_eventsAll quiet_nil .append (fun k _ => quiet_of_steps k) hl h

theorem active_popPrefix (h : s.popPrefix = .ok t) :
    t.printers.active = { s.printers.active with
      linePrefixes := s.printers.active.linePrefixes.dropLast } ∧
    t.printers.depth = s.printers.depth := by
  unfold popPrefix at h
  split at h
  · rename_i x p hp
    cases h
    obtain ⟨y, -, hy⟩ := Option.map_eq_some_iff.1 hp
    cases hy
    exact ⟨PrinterStack.active_setActive _ _, PrinterStack.depth_setActive _ _⟩
  · cases h

theorem hushed_popPrefix (h : s.popPrefix = .ok t) :
    s.printers.active.Hushed t.printers.active := by
  rw [(active_popPrefix h).1]
  exact .of_eq rfl ⟨rfl, rfl⟩

/-- After an item or a quotation, breaks are dropped only where nothing has been written since it or
one in it was begun. -/
theorem opened_of_container {n : Node} (hw : n.wrap? = some c) (hc : c.Opens)
    (hl : 0 ≤ s.nesting.links) (h : steps style s n.events = .ok t)
    (ht : t.printers.active.suppressBreaks = true) : Opened style s n.events t := by
  have hstays := stays_of_steps n s t hl h
  rw [Node.events_of_wrap hw] at h ⊢
  obtain ⟨u, hu, hleave⟩ := exists_of_steps_around h
  obtain ⟨v, m, hwrite, -, rfl⟩ := exists_of_step_leave hleave
  have hpop : u.popPrefix = .ok v := by
    cases c
    case listItem | quotation => exact hwrite
    all_goals exact hc.elim
  have hdepth := (active_popPrefix hpop).2
  obtain ⟨hdropped, hpage⟩ := hushed_popPrefix hpop ht
  have hquiet := quiet_of_eventsAll (links_entered hl c) hu
  have hinside : (s.entered style c).printers.depth = v.printers.depth :=
    hquiet.depth.symm.trans hdepth.symm
  rw [Event.around, List.cons_append]
  rcases hquiet.dropped hdropped with ⟨-, hpage'⟩ | hopened
  · exact opened_enter hc _ hinside (hpage'.trans hpage)
  · exact (hopened.append [.leave c] hdepth hpage).after (steps_singleton (step_enter style s c))

/-! ## Anywhere in a tree -/

theorem links_kids {kids : List Node} (hl : 0 ≤ s.nesting.links)
    (h : steps style (s.entered style c) (eventsAll kids) = .ok t) : 0 ≤ t.nesting.links := by
  rw [(stays_of_eventsAll (fun k _ => stays_of_steps k) (links_entered hl c) h).links]
  exact links_entered hl c

theorem links_of_at {n m : Node} {before : List Event} (hat : n.At before m) :
    ∀ {s t : Session}, 0 ≤ s.nesting.links → steps style s before = .ok t →
      0 ≤ t.nesting.links := by
  induction hat with
  | here n =>
    intro s t hl h
    cases h
    exact hl
  | @inside n m k c front back before hw hk hat ih =>
    intro s t hl h
    rw [List.cons_append] at h
    obtain ⟨u, hu, hrest⟩ := exists_of_steps_append
      ((steps_cons (step_enter style s c)).symm.trans h)
    exact ih (links_kids hl hu) hrest

/-- Where breaks are dropped on a page that is not blank, they were dropped before and nothing has
been written since, or nothing has been written since an item or a quotation was begun. -/
def Dropping (style : Style) (s : Session) (events : List Event) (t : Session) : Prop :=
  t.printers.active.suppressBreaks = true → t.printers.active.pageBlank = false →
    (s.printers.active.suppressBreaks = true ∧ t.printers.depth = s.printers.depth ∧
      s.printers.active.SamePage t.printers.active) ∨ Opened style s events t

theorem Dropping.append (h : Dropping style s a t) (hs : steps style s a = .ok t)
    (k : Dropping style t b u) : Dropping style s (a ++ b) u := by
  intro hu hblank
  rcases k hu hblank with ⟨ht, hdepth, hpage⟩ | hopened
  · rcases h ht (hpage.pageBlank ▸ hblank) with ⟨hs, hdepth', hpage'⟩ | hopened
    · exact Or.inl ⟨hs, hdepth.trans hdepth', hpage'.trans hpage⟩
    · exact Or.inr (hopened.append b hdepth hpage)
  · exact Or.inr (hopened.after hs)

theorem Quiet.dropping (h : Quiet style s events t) : Dropping style s events t :=
  fun ht _ => (h.dropped ht).imp_left fun ⟨hs, hpage⟩ => ⟨hs, h.depth, hpage⟩

theorem dropping_enter (style : Style) (s : Session) (c : Container) :
    Dropping style s [.enter c] (s.entered style c) := by
  intro hinside hblank
  by_cases hc : c.Opens
  · exact Or.inr (opened_enter hc [] rfl (.refl _))
  have hstep := printers_step (step_enter style s c)
  generalize (s.entered style c).printers = inside at hstep hinside hblank
  cases hstep with
  | stay hq =>
    rw [PrinterStack.active_setActive] at hinside ⊢
    obtain ⟨hs, hpage⟩ := Printer.Hushed.moves hq hinside
    exact Or.inl ⟨hs, PrinterStack.depth_setActive _ _, hpage⟩
  | suppress hopens _ _ => exact absurd hopens hc
  | push hq => cases hblank

theorem dropping_kids {kids : List Node} (hl : 0 ≤ s.nesting.links)
    (h : steps style (s.entered style c) (eventsAll kids) = .ok t) :
    Dropping style s (.enter c :: eventsAll kids) t :=
  (dropping_enter style s c).append (steps_singleton (step_enter style s c))
    (quiet_of_eventsAll (links_entered hl c) h).dropping

theorem dropping_of_at {n m : Node} {before : List Event} (hat : n.At before m) :
    ∀ {s t : Session}, 0 ≤ s.nesting.links → steps style s before = .ok t →
      Dropping style s before t := by
  induction hat with
  | here n =>
    intro s t _ h
    cases h
    exact (quiet_nil s).dropping
  | @inside n m k c front back before hw hk hat ih =>
    intro s t hl h
    obtain ⟨u, hu, hrest⟩ := exists_of_steps_append h
    have hfront := (steps_cons (step_enter style s c)).symm.trans hu
    exact (dropping_kids hl hfront).append hu (ih (links_kids hl hfront) hrest)

/-- Where a document drops breaks on a page that is not blank, nothing has been written on it since
an item or a quotation was begun. -/
theorem opened_of_dropping (h : Dropping style (start style) events t)
    (ht : t.printers.active.suppressBreaks = true) (hblank : t.printers.active.pageBlank = false) :
    Opened style (start style) events t := by
  rcases h ht hblank with ⟨-, -, hpage⟩ | hopened
  · rw [hpage.pageBlank] at hblank
    cases hblank
  · exact hopened

end Session

end Markwright
