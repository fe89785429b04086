import Markwright.Proofs.Neutral
import Markwright.Proofs.Waiting

/-!
# What text is escaped under

By induction on the tree, text that is queued below a node is either flushed before the node ends,
and then it is known under what (`Session.Escapes`), or it still waits at the end and what it was
queued under shows in the nesting there (`Session.Accords`). While a cell is open its own printer
takes all events, and the text before its table waits below. A document flushes what waits when it
is left, so in a document all text is escaped, and it is known which events escape it under other
surroundings than it was queued under (`Node.escaped_under`).
-/

namespace Markwright

open Node (eventsAll)

/-! ## Printers below -/

namespace PrinterStack

variable {b s t : PrinterStack} {held : Held}

/-- `s` is `b` with captures on top. -/
def Over (b s : PrinterStack) : Prop :=
  ∃ p more, s = { b with captures := p :: (more ++ b.captures) }

theorem Captures.over (h : Captures b s) : Over b s := by
  obtain ⟨p, rfl⟩ := h
  exact ⟨p, [], rfl⟩

theorem Over.extends (h : Over b s) (k : Extends held s t) : Over b t := by
  obtain ⟨p, more, rfl⟩ := h
  obtain ⟨q, -, rfl⟩ := k
  exact ⟨q, more, rfl⟩

theorem Over.push (h : Over b s) : Over b s.push := by
  obtain ⟨p, more, rfl⟩ := h
  exact ⟨_, p :: more, rfl⟩

theorem atHeight?_depth (s : PrinterStack) : s.atHeight? s.depth = some s.active := by
  obtain ⟨root, captures⟩ := s
  cases captures <;> simp [atHeight?, depth, active]

theorem atHeight?_of_le {height : Nat} (h0 : height ≠ 0) (hle : height ≤ s.depth) :
    s.atHeight? height = s.captures[s.depth - height]? := by
  rw [atHeight?, if_neg h0, if_pos hle]

theorem Over.atHeight? (h : Over b s) : s.atHeight? b.depth = some b.active := by
  obtain ⟨p, more, rfl⟩ := h
  obtain ⟨root, captures⟩ := b
  cases captures with
  | nil => simp [PrinterStack.atHeight?, depth, active]
  | cons q rest =>
    have hle : depth ⟨root, q :: rest⟩ ≤ depth ⟨root, p :: (more ++ q :: rest)⟩ := by
      simp only [depth, List.length_cons, List.length_append]
      omega
    have hindex : depth ⟨root, p :: (more ++ q :: rest)⟩ - depth ⟨root, q :: rest⟩ =
        more.length + 1 := by
      simp only [depth, List.length_cons, List.length_append]
      omega
    have hne : depth ⟨root, q :: rest⟩ ≠ 0 := Nat.succ_ne_zero _
    refine (atHeight?_of_le hne hle).trans ?_
    rw [hindex]
    simp [active]

end PrinterStack

namespace Session

variable {style : Style} {s t u v : Session} {c : Container} {n : Node} {a : Surroundings}
  {p : Place} {R : Session → Session → Prop} {P : Session → Prop}

/-! ## Runs step by step -/

/-- A run all of whose steps are in a relation. -/
inductive Along (style : Style) (R : Session → Session → Prop) :
    Session → List Event → Session → Prop where
  | nil (s : Session) : Along style R s [] s
  | cons {s t u : Session} {e : Event} {rest : List Event} (hstep : step style s e = .ok t)
      (hr : R s t) (h : Along style R t rest u) : Along style R s (e :: rest) u

theorem Along.steps {events : List Event} (h : Along style R s events t) :
    steps style s events = .ok t := by
  induction h with
  | nil s => rfl
  | cons hstep _ _ ih => rw [steps_cons hstep, ih]

theorem Along.append {e f : List Event} (h : Along style R s e t) (k : Along style R t f u) :
    Along style R s (e ++ f) u := by
  induction h with
  | nil s => exact k
  | cons hstep hr _ ih => exact .cons hstep hr (ih k)

theorem Along.split : ∀ {e f : List Event} {s : Session}, Along style R s (e ++ f) u →
    ∃ t, Along style R s e t ∧ Along style R t f u
  | [], _, s, h => ⟨s, .nil s, h⟩
  | _ :: _, _, _, .cons hstep hr h => by
    obtain ⟨t, hfront, hback⟩ := h.split
    exact ⟨t, .cons hstep hr hfront, hback⟩

theorem Along.concat {events : List Event} {e : Event} (h : Along style R s events t)
    (hstep : step style t e = .ok u) (hr : R t u) : Along style R s (events ++ [e]) u :=
  h.append (.cons hstep hr (.nil u))

theorem Along.mono {Q : Session → Session → Prop} {events : List Event}
    (h : Along style R s events t) (hrq : ∀ s t, R s t → Q s t) : Along style Q s events t := by
  induction h with
  | nil s => exact .nil s
  | cons hstep hr _ ih => exact .cons hstep (hrq _ _ hr) ih

/-! ## Trees that are told -/

/-- The nodes can be told one after the other, each in its place. -/
def Lined (style : Style) (p : Place) (s : Session) (kids : List Node) : Prop :=
  ∀ k ∈ kids, k.Regular style ∧ k.place = p ∧ Ready k s

theorem Lined.tail {k : Node} {rest : List Node} (h : Lined style p s (k :: rest))
    (hst : s.Keeps p t) : Lined style p t rest := by
  intro m hm
  obtain ⟨hregular, hplace, hready⟩ := h m (by simp [hm])
  exact ⟨hregular, hplace, hready.keeps hregular (hplace.symm ▸ hst)⟩

theorem lined_children (hn : n.Regular style) (hs : Ready n s) (hw : n.wrap? = some c) :
    Lined style c.room (s.entered style c) n.children := fun _ hk =>
  ⟨hn.child hk, (hn.place_child hk).trans (Node.room_of_wrap hw), hs.child hn hw hk⟩

theorem keeps_of_steps (hn : n.Regular style) (hs : Ready n s)
    (h : steps style s n.events = .ok t) : s.Keeps n.place t := by
  obtain ⟨u, hu, hsu⟩ := steps_events style n hn hs
  rw [h] at hu
  cases hu
  exact hsu

theorem exists_steps_lined {kids : List Node} (h : Lined style p s kids) :
    ∃ t, steps style s (eventsAll kids) = .ok t ∧ s.Keeps p t :=
  steps_eventsAll kids h fun k hk _ => steps_events style k (h k hk).1

theorem keeps_of_lined {kids : List Node} (h : Lined style p s kids)
    (hsteps : steps style s (eventsAll kids) = .ok t) : s.Keeps p t := by
  obtain ⟨u, hu, hsu⟩ := exists_steps_lined h
  rw [hsteps] at hu
  cases hu
  exact hsu

/-- What holds of every step of a row of nodes, if it holds of the steps of each. -/
theorem along_lined : ∀ {kids : List Node} {s t : Session}, Lined style p s kids →
    (∀ k ∈ kids, ∀ s t, Ready k s → steps style s k.events = .ok t → P s →
      Along style R s k.events t ∧ P t) →
    steps style s (eventsAll kids) = .ok t → P s → Along style R s (eventsAll kids) t
  | [], s, t, _, _, h, _ => by
    cases h
    exact .nil s
  | k :: rest, s, t, hl, hk, h, hs => by
    obtain ⟨u, hu, hrest⟩ := exists_of_steps_append h
    obtain ⟨hregular, hplace, hready⟩ := hl k (by simp)
    have hst := keeps_of_steps hregular hready hu
    rw [hplace] at hst
    obtain ⟨halong, hPu⟩ := hk k (by simp) s u hready hu hs
    exact halong.append (along_lined (hl.tail hst) (fun m hm => hk m (by simp [hm])) hrest hPu)

theorem along_leaves : ∀ {leaves : List Leaf} {s t : Session},
    (∀ l ∈ leaves, ∀ s t, step style s (.leaf l) = .ok t → P s → R s t ∧ P t) →
    steps style s (leaves.map .leaf) = .ok t → P s → Along style R s (leaves.map .leaf) t
  | [], s, t, _, h, _ => by
    cases h
    exact .nil s
  | l :: rest, s, t, hl, h, hs => by
    obtain ⟨u, hu, hrest⟩ := exists_of_steps_cons h
    obtain ⟨hr, hPu⟩ := hl l (by simp) s u hu hs
    exact .cons hu hr (along_leaves (fun m hm => hl m (by simp [hm])) hrest hPu)

/-! ## Under a cell -/

section Over

variable {b : PrinterStack}

theorem over_entered (style : Style) (c : Container) (h : b.Over s.printers) :
    b.Over (s.entered style c).printers := by
  by_cases hc : c.Captures (s.nesting.enter c)
  · obtain ⟨t, hw, ht⟩ := writeEnter_of_captures style
      (s := { s with nesting := s.nesting.enter c }) hc
    rw [entered, ht]
    exact (h.extends hw.printers).push
  · by_cases hp : c.place = .table
    · obtain ⟨q, rfl⟩ := eq_tableRow_of_place hp
      exact h
    · exact h.extends (writes_writeEnter style
        (s := { s with nesting := s.nesting.enter c }) hc hp).printers

/-- What is told on top of some printers stays on top of them. -/
theorem along_over (n : Node) : n.Regular style → ∀ {s t : Session}, Ready n s →
    steps style s n.events = .ok t → b.Over s.printers →
    Along style (fun s t => b.Over s.printers ∧ b.Over t.printers) s n.events t := by
  induction n using Node.childrenInduction with
  | step n ih =>
  intro hn s t hs h ho
  rcases hw : n.wrap? with _ | c
  · rw [Node.events_of_leaves hw] at h ⊢
    refine along_leaves (P := fun s => b.Over s.printers) (fun l hl s t hstep ho => ?_) h ho
    obtain ⟨u, hu, rfl⟩ := exists_of_step_leaf hstep
    obtain ⟨u', hu', hwrites⟩ := @writeLeaf_ok style s l
      fun r f q e => label_of_mem_leaves hn.labels.here (e ▸ hl)
    rw [hu] at hu'
    cases hu'
    have hou : b.Over u.printers := ho.extends hwrites.printers
    exact ⟨⟨ho, hou⟩, hou⟩
  · have hst := keeps_of_steps hn hs h
    rw [Node.events_of_wrap hw] at h ⊢
    obtain ⟨v, hv, hleave⟩ := exists_of_steps_around h
    have hin := over_entered style c ho
    have hlined := lined_children hn hs hw
    have hkids : Along style (fun s t => b.Over s.printers ∧ b.Over t.printers)
        (s.entered style c) (eventsAll n.children) v := by
      refine along_lined (P := fun s => b.Over s.printers) hlined
        (fun k hk s t hready hsteps ho => ?_) hv hin
      exact ⟨ih k hk (hn.child hk) hready hsteps ho,
        ho.extends (keeps_of_steps (hn.child hk) hready hsteps).printers⟩
    have hout : b.Over v.printers := hin.extends (keeps_of_lined hlined hv).printers
    rw [Event.around, List.cons_append]
    exact .cons (step_enter style s c) ⟨ho, hin⟩
      (hkids.concat hleave ⟨hout, ho.extends hst.printers⟩)

end Over

/-! ## Text that waits through a run -/

/-- The text that waits at a height stays there, and more may be queued behind it. -/
def StillWaits (height : Nat) (s t : Session) : Prop :=
  ∃ p q text more, s.printers.atHeight? height = some p ∧ p.pending = some text ∧
    t.printers.atHeight? height = some q ∧ q.pending = some (text ++ more)

/-- The text that waits at a height is escaped by the event `e`, which finds the session `u`: it
still waits after each event before that one, and then it is the first thing that is written. -/
inductive EscapedBy (style : Style) (height : Nat) :
    Session → List Event → Session → Event → Prop where
  | here {s : Session} {e : Event} {rest : List Event} (hdepth : s.printers.depth = height)
      (hflush : Flushes style s e) : EscapedBy style height s (e :: rest) s e
  | later {s t u : Session} {e e' : Event} {rest : List Event} (hstep : step style s e = .ok t)
      (hwaits : StillWaits height s t) (h : EscapedBy style height t rest u e') :
      EscapedBy style height s (e :: rest) u e'

/-- Text that was queued under `a` and waits on the active printer is escaped along the events, and
under `a` unless the event that escapes it shifts the surroundings. -/
def Escaped (style : Style) (a : Surroundings) (s : Session) (events : List Event) : Prop :=
  ∃ u e, EscapedBy style s.printers.depth s events u e ∧
    ((u.nesting.atWriting e).around = a ↔ ¬ e.Shifts u.nesting)

section Waiting

variable {text : String} {events : List Event} {height : Nat}

theorem stillWaits_of_active {more : String} (hdepth : t.printers.depth = s.printers.depth)
    (hs : s.printers.active.pending = some text)
    (ht : t.printers.active.pending = some (text ++ more)) :
    StillWaits s.printers.depth s t :=
  ⟨_, _, text, more, s.printers.atHeight?_depth, hs, hdepth ▸ t.printers.atHeight?_depth, ht⟩

theorem stillWaits_of_pending (hdepth : t.printers.depth = s.printers.depth)
    (hs : s.printers.active.pending = some text) (ht : t.printers.active.pending = some text) :
    StillWaits s.printers.depth s t :=
  stillWaits_of_active hdepth hs ((String.append_empty (s := text)).symm ▸ ht)

theorem Along.waits (h : Along style (StillWaits height) s events t)
    (hs : ∃ q text, s.printers.atHeight? height = some q ∧ q.pending = some text) :
    ∃ q text, t.printers.atHeight? height = some q ∧ q.pending = some text := by
  induction h with
  | nil s => exact hs
  | cons _ hr _ ih =>
    obtain ⟨_, q, text, more, -, -, hq, hpending⟩ := hr
    exact ih ⟨q, _, hq, hpending⟩

/-- What waits still waits after a run through which it waits. -/
theorem exists_pending_of_along (h : Along style (StillWaits height) s events t)
    (hs : s.printers.depth = height) (ht : t.printers.depth = height)
    (hw : s.printers.active.pending = some text) :
    ∃ text, t.printers.active.pending = some text := by
  obtain ⟨q, text, hq, hpending⟩ := h.waits ⟨_, text, hs ▸ s.printers.atHeight?_depth, hw⟩
  rw [← ht, t.printers.atHeight?_depth] at hq
  cases hq
  exact ⟨text, hpending⟩

theorem EscapedBy.append {e : Event} (h : EscapedBy style height s events u e)
    (rest : List Event) : EscapedBy style height s (events ++ rest) u e := by
  induction h with
  | here hdepth hflush => exact .here hdepth hflush
  | later hstep hwaits _ ih => exact .later hstep hwaits ih

theorem Along.escapedBy {rest : List Event} {e : Event}
    (h : Along style (StillWaits height) s events t) (k : EscapedBy style height t rest u e) :
    EscapedBy style height s (events ++ rest) u e := by
  induction h with
  | nil s => exact k
  | cons hstep hr _ ih => exact .later hstep hr (ih k)

theorem Escaped.append (h : Escaped style a s events) (rest : List Event) :
    Escaped style a s (events ++ rest) := by
  obtain ⟨u, e, hby, haround⟩ := h
  exact ⟨u, e, hby.append rest, haround⟩

theorem Escaped.after {rest : List Event} (k : Escaped style a t rest)
    (h : Along style (StillWaits s.printers.depth) s events t)
    (hdepth : t.printers.depth = s.printers.depth) : Escaped style a s (events ++ rest) := by
  obtain ⟨u, e, hby, haround⟩ := k
  exact ⟨u, e, h.escapedBy (hdepth ▸ hby), haround⟩

theorem Escapes.escaped {e : Event} (h : Escapes style a s e) (rest : List Event) :
    Escaped style a s (e :: rest) :=
  ⟨s, e, .here rfl h.flushes, h.around⟩

/-- Text that was queued under `a` and waits in `s` is escaped along the events, or it still waits
after them. -/
def Outcome (style : Style) (p : Place) (a : Surroundings) (s : Session) (events : List Event)
    (t : Session) : Prop :=
  Escaped style a s events ∨
    (Along style (StillWaits s.printers.depth) s events t ∧ t.printers.depth = s.printers.depth ∧
      Accords a t.nesting p)

theorem outcome_nil (ha : Accords a s.nesting p) : Outcome style p a s [] s :=
  Or.inr ⟨.nil s, rfl, ha⟩

theorem Outcome.trans {p q : Place} {more : List Event} (h : Outcome style p a s events t)
    (hs : ¬ s.Settled)
    (k : ¬ t.Settled → Accords a t.nesting p → Outcome style q a t more u) :
    Outcome style q a s (events ++ more) u := by
  rcases h with hesc | ⟨halong, hdepth, ha⟩
  · exact Or.inl (hesc.append more)
  · obtain ⟨text, hs⟩ := Option.ne_none_iff_exists'.1 hs
    obtain ⟨text', ht⟩ := exists_pending_of_along halong rfl hdepth hs
    rcases k (Option.ne_none_iff_exists'.2 ⟨text', ht⟩) ha with hesc | ⟨hmore, hdepth', ha'⟩
    · exact Or.inl (hesc.after halong hdepth)
    · exact Or.inr ⟨halong.append (hdepth ▸ hmore), hdepth'.trans hdepth, ha'⟩

theorem outcome_step {e : Event} (hstep : step style s e = .ok t)
    (hstill : StillWaits s.printers.depth s t) (hdepth : t.printers.depth = s.printers.depth)
    (ha : Accords a t.nesting p) : Outcome style p a s [e] t :=
  Or.inr ⟨.cons hstep hstill (.nil t), hdepth, ha⟩

theorem outcome_leaf {l : Leaf} (h : step style s (.leaf l) = .ok t) (hs : ¬ s.Settled)
    (ha : a = s.nesting.around) : Outcome style .content a s [.leaf l] t := by
  obtain ⟨text, hs⟩ := Option.ne_none_iff_exists'.1 hs
  rcases leaf_waiting h hs with hflush | ⟨more, hpending, hdepth, haround⟩
  · exact Or.inl ⟨s, .leaf l, .here rfl hflush, fun _ => id, fun _ => ha.symm⟩
  · exact outcome_step h (stillWaits_of_active hdepth hs hpending) hdepth (ha.trans haround.symm)

theorem outcome_leaves : ∀ {leaves : List Leaf} {s t : Session},
    steps style s (leaves.map .leaf) = .ok t → ¬ s.Settled → a = s.nesting.around →
    Outcome style .content a s (leaves.map .leaf) t
  | [], s, t, h, _, ha => by
    cases h
    exact outcome_nil ha
  | l :: rest, s, t, h, hs, ha => by
    obtain ⟨u, hu, hrest⟩ := exists_of_steps_cons h
    exact (outcome_leaf hu hs ha).trans hs fun hsu hau => outcome_leaves hrest hsu hau

/-- What waits before a node is escaped while it is told, or it still waits after it. -/
def Passes (style : Style) (n : Node) : Prop :=
  ∀ {s t : Session} {a : Surroundings}, Ready n s → s.nesting.Counts →
    steps style s n.events = .ok t → ¬ s.Settled → Accords a s.nesting n.place →
    Outcome style n.place a s n.events t

theorem outcome_lined : ∀ {kids : List Node} {s t : Session}, Lined style p s kids →
    (∀ k ∈ kids, Passes style k) → s.nesting.Counts → steps style s (eventsAll kids) = .ok t →
    ¬ s.Settled → Accords a s.nesting p → Outcome style p a s (eventsAll kids) t
  | [], s, t, _, _, _, h, _, ha => by
    cases h
    exact outcome_nil ha
  | k :: rest, s, t, hl, hk, hn, h, hs, ha => by
    obtain ⟨u, hu, hrest⟩ := exists_of_steps_append h
    obtain ⟨hregular, hplace, hready⟩ := hl k (by simp)
    have hfirst := hk k (by simp) hready hn hu hs (hplace ▸ ha)
    have hsu := keeps_of_steps hregular hready hu
    rw [hplace] at hfirst hsu
    exact hfirst.trans hs fun hsu' hau => outcome_lined (hl.tail hsu)
      (fun m hm => hk m (by simp [hm])) (hn.agrees hsu.nesting) hrest hsu' hau

/-! ## Cells -/

theorem eq_cell_of_place : ∀ {c : Container}, c.place = .tableRow →
    ∃ q, c = .tableCell q ∨ c = .tableHeadCell q
  | .tableCell q, _ => ⟨q, Or.inl rfl⟩
  | .tableHeadCell q, _ => ⟨q, Or.inr rfl⟩

theorem exists_writeLeave_eq_leaveCell (style : Style) (s : Session) : ∀ {c : Container},
    c.place = .tableRow → ∃ isHeader q, writeLeave style s c = s.leaveCell isHeader q
  | .tableCell q, _ => ⟨false, q, rfl⟩
  | .tableHeadCell q, _ => ⟨true, q, rfl⟩

theorem printers_leaveCell {b : PrinterStack} {isHeader : Bool} {q : Option Parameters}
    (h : b.Captures s.printers) (hleave : s.leaveCell isHeader q = .ok t) : t.printers = b := by
  rw [leaveCell, popCapture_of_captures h] at hleave
  dsimp only at hleave
  split at hleave <;> cases hleave
  rfl

/-- What waits before a cell waits below the printer of the cell. -/
theorem along_cell {text : String} (hn : n.Regular style) (hs : Ready n s)
    (hplace : n.place = .tableRow) (h : steps style s n.events = .ok t)
    (hw : s.printers.active.pending = some text) :
    Along style (StillWaits s.printers.depth) s n.events t := by
  obtain ⟨c, hwrap, hplace⟩ := Node.exists_wrap_of_place hplace nofun
  obtain ⟨q, hq⟩ := eq_cell_of_place hplace
  have hin := captures_of_cell hplace (.refl .content (s.entered style c))
  rw [Node.events_of_wrap hwrap] at h ⊢
  obtain ⟨v, hv, hleave⟩ := exists_of_steps_around h
  have hlined := lined_children hn hs hwrap
  have hout := captures_of_cell hplace (keeps_of_lined hlined hv)
  obtain ⟨u, m, hwrite, -, rfl⟩ := exists_of_step_leave hleave
  obtain ⟨isHeader, r, hcell⟩ := exists_writeLeave_eq_leaveCell style v hplace
  have hback : u.printers = s.printers := printers_leaveCell hout (hcell.symm.trans hwrite)
  have hbelow : ∀ {t : Session}, s.printers.Over t.printers →
      t.printers.atHeight? s.printers.depth = some s.printers.active := fun h => h.atHeight?
  have hstill : ∀ {t u : Session}, t.printers.atHeight? s.printers.depth = some s.printers.active →
      u.printers.atHeight? s.printers.depth = some s.printers.active →
      StillWaits s.printers.depth t u := fun ht hu =>
    ⟨_, _, text, "", ht, hw, hu, by rw [hw, String.append_empty]⟩
  have hkids : Along style (StillWaits s.printers.depth) (s.entered style c)
      (eventsAll n.children) v := by
    refine Along.mono ?_ fun t u (h : s.printers.Over t.printers ∧ s.printers.Over u.printers) =>
      hstill (hbelow h.1) (hbelow h.2)
    refine along_lined (P := fun t => s.printers.Over t.printers) hlined
      (fun k hk t u hready hsteps ho => ?_) hv hin.over
    have hk := hn.child hk
    exact ⟨along_over k hk hready hsteps ho, ho.extends (keeps_of_steps hk hready hsteps).printers⟩
  have hself := s.printers.atHeight?_depth
  rw [Event.around, List.cons_append]
  refine .cons (step_enter style s c) (hstill hself (hbelow hin.over)) ?_
  refine hkids.concat hleave (hstill (hbelow hout.over) ?_)
  exact (congrArg (·.atHeight? s.printers.depth) hback).trans hself

/-! ## Trees -/

theorem depth_entered (style : Style) (hc : ¬ c.Captures (s.nesting.enter c)) :
    (s.entered style c).printers.depth = s.printers.depth := by
  by_cases hp : c.place = .table
  · obtain ⟨q, rfl⟩ := eq_tableRow_of_place hp
    rfl
  · exact (writes_writeEnter style (s := { s with nesting := s.nesting.enter c }) hc
      hp).printers.depth

theorem counts_entered (style : Style) (c : Container) (h : s.nesting.Counts) :
    (s.entered style c).nesting.Counts :=
  (entered_spec style s c).1 ▸ h.enter c

/-- What waits inside a container that pushed no printer, when the container is left. -/
theorem outcome_leave (hn : s.nesting.Counts) (hc : ¬ c.Captures (s.nesting.enter c))
    (hsv : (s.entered style c).Keeps c.room v) (hst : s.Keeps c.place t)
    (hleave : step style v (.leave c) = .ok t) (hv : ¬ v.Settled)
    (ha : Accords a v.nesting c.room) : Outcome style c.place a v [.leave c] t := by
  have hagrees := hsv.nesting
  rw [(entered_spec style s c).1] at hagrees
  have hinLine : c.place = .list → 0 < v.nesting.inLine := by
    intro hp
    rw [hagrees.inLine]
    have := hn.inLine
    cases c <;> cases hp
    simp only [Nesting.enter]
    omega
  have htables : c.room = .table → 0 < v.nesting.tables := by
    intro hr
    obtain ⟨q, rfl⟩ := eq_table_of_room hr
    rw [hagrees.tables]
    have := hn.tables
    simp only [Nesting.enter]
    omega
  rcases leave_waiting (mt (captures_congr hagrees.links).1 hc) hleave ha
    ((hn.enter c).agrees hagrees) hinLine htables with hesc | ⟨hpending, hout⟩
  · exact Or.inl (hesc.escaped [])
  · obtain ⟨text, hv⟩ := Option.ne_none_iff_exists'.1 hv
    have hdepth : t.printers.depth = v.printers.depth := by
      rw [hst.printers.depth, hsv.printers.depth, depth_entered style hc]
    exact outcome_step hleave (stillWaits_of_pending hdepth hv (hpending.trans hv)) hdepth hout

theorem passes (style : Style) (n : Node) : n.Regular style → Passes style n := by
  induction n using Node.childrenInduction with
  | step n ih =>
  intro hn s t a hready hcounts h hs ha
  have hst := keeps_of_steps hn hready h
  rcases hwrap : n.wrap? with _ | c
  · have hplace := Node.place_of_wrap_none hwrap
    rw [hplace] at ha ⊢
    rw [Node.events_of_leaves hwrap] at h ⊢
    exact outcome_leaves h hs ha
  -- Only a cell pushes a printer over text that waits; a link flushes it first.
  by_cases hcell : n.place = .tableRow
  · obtain ⟨text, hs⟩ := Option.ne_none_iff_exists'.1 hs
    exact Or.inr ⟨along_cell hn hready hcell h hs, hst.printers.depth, ha.agrees hst.nesting⟩
  rw [Node.place_of_wrap hwrap] at hcell ha hst ⊢
  rw [Node.events_of_wrap hwrap] at h ⊢
  obtain ⟨v, hv, hleave⟩ := exists_of_steps_around h
  have hlined := lined_children hn hready hwrap
  have hcounts' := counts_entered style c hcounts
  rcases @enter_waiting style _ _ _ hcell ha hcounts with hesc | ⟨hc, hpending, hin⟩
  · exact Or.inl (((hesc.escaped []).append _).append _)
  have henter : Outcome style c.room a s [.enter c] (s.entered style c) := by
    obtain ⟨text, hs⟩ := Option.ne_none_iff_exists'.1 hs
    have hdepth := depth_entered style hc
    exact outcome_step (step_enter style s c)
      (stillWaits_of_pending hdepth hs (hpending.trans hs)) hdepth hin
  have hkids := henter.trans hs fun hin hain =>
    outcome_lined hlined (fun k hk => ih k hk (hn.child hk)) hcounts' hv hin hain
  exact hkids.trans hs fun hin hain =>
    outcome_leave hcounts hc (keeps_of_lined hlined hv) hst hleave hin hain

theorem ready_start (style : Style) (kids : List Node) (p : Parameters) :
    Ready (.document kids p) (start style) := ⟨Int.le_refl 0, nofun, Or.inr rfl⟩

/-! ## Text that is queued -/

theorem escapes_leave_captured (hc : c.Captures (s.nesting.enter c)) (hl : 0 ≤ s.nesting.links)
    (hsv : (s.entered style c).Keeps c.room v) :
    Escapes style v.nesting.around v (.leave c) := by
  obtain ⟨b, -, hcap⟩ := exists_captures_of_keeps hc hsv
  have hagrees := hsv.nesting
  rw [(entered_spec style s c).1] at hagrees
  refine leave_captured hcap ((captures_congr hagrees.links).2 hc) fun hp => ?_
  rw [hagrees.links]
  cases c
  case link =>
    simp only [Nesting.enter]
    omega
  case tableCell | tableHeadCell => cases hp
  all_goals exact hc.elim

/-- All text that is queued along the events is escaped along them, or it waits at their end. -/
inductive Accounted (style : Style) (p : Place) (t : Session) : Session → List Event → Prop where
  | nil : Accounted style p t t []
  | cons {s u : Session} {e : Event} {rest : List Event} (hstep : step style s e = .ok u)
      (hqueued : ∀ l, e = .leaf l → l.queued? ≠ none →
        Outcome style p s.nesting.around u rest t)
      (h : Accounted style p t u rest) : Accounted style p t s (e :: rest)

theorem pending_of_queued {l : Leaf} (h : step style s (.leaf l) = .ok t)
    (hl : l.queued? = some text) :
    t.printers.active.pending = some (s.printers.active.pending.getD "" ++ text) := by
  obtain ⟨u, hwrite, rfl⟩ := exists_of_step_leaf h
  rw [writeLeaf_queued hl] at hwrite
  cases hwrite
  simp [delay, modifyPrinter, PrinterStack.modify, Printer.delay]

theorem not_settled_of_queued {l : Leaf} (h : step style s (.leaf l) = .ok t)
    (hl : l.queued? ≠ none) : ¬ t.Settled := by
  obtain ⟨text, hl⟩ := Option.ne_none_iff_exists'.1 hl
  exact Option.ne_none_iff_exists'.2 ⟨_, pending_of_queued h hl⟩

theorem Accounted.append {q : Place} {more : List Event} (h : Accounted style p t s events)
    (k : Accounted style q u t more)
    (hwaits : ∀ a, ¬ t.Settled → Accords a t.nesting p → Outcome style q a t more u) :
    Accounted style q u s (events ++ more) := by
  induction h with
  | nil => exact k
  | cons hstep hqueued _ ih =>
    refine .cons hstep (fun l he hl => ?_) ih
    subst he
    exact (hqueued l rfl hl).trans (not_settled_of_queued hstep hl) (hwaits _)

theorem accounted_leaves : ∀ {leaves : List Leaf} {s t : Session},
    steps style s (leaves.map .leaf) = .ok t → Accounted style .content t s (leaves.map .leaf)
  | [], s, t, h => by
    cases h
    exact .nil
  | l :: rest, s, t, h => by
    obtain ⟨u, hu, hrest⟩ := exists_of_steps_cons h
    refine .cons hu (fun m hm hqueued => ?_) (accounted_leaves hrest)
    cases hm
    refine outcome_leaves hrest (not_settled_of_queued hu hqueued) ?_
    obtain ⟨v, hwrite, rfl⟩ := exists_of_step_leaf hu
    have haround := congrArg Nesting.around (nesting_writeLeaf hwrite)
    exact haround.symm

theorem accounted_lined : ∀ {kids : List Node} {s t : Session}, Lined style p s kids →
    (∀ k ∈ kids, ∀ {s t : Session}, Ready k s → s.nesting.Counts →
      steps style s k.events = .ok t → Accounted style k.place t s k.events) →
    s.nesting.Counts → steps style s (eventsAll kids) = .ok t →
    Accounted style p t s (eventsAll kids)
  | [], s, t, _, _, _, h => by
    cases h
    exact .nil
  | k :: rest, s, t, hl, hk, hn, h => by
    obtain ⟨u, hu, hrest⟩ := exists_of_steps_append h
    obtain ⟨hregular, hplace, hready⟩ := hl k (by simp)
    have hfirst := hk k (by simp) hready hn hu
    have hsu := keeps_of_steps hregular hready hu
    rw [hplace] at hfirst hsu
    have hlu := hl.tail hsu
    have hnu := hn.agrees hsu.nesting
    refine hfirst.append (accounted_lined hlu (fun m hm => hk m (by simp [hm])) hnu hrest) ?_
    have hpasses : ∀ m ∈ rest, Passes style m := fun m hm => passes style m (hlu m hm).1
    exact fun a hu hau => outcome_lined hlu hpasses hnu hrest hu hau

theorem accounted (style : Style) (n : Node) : n.Regular style → ∀ {s t : Session}, Ready n s →
    s.nesting.Counts → steps style s n.events = .ok t →
    Accounted style n.place t s n.events := by
  induction n using Node.childrenInduction with
  | step n ih =>
  intro hn s t hready hcounts h
  have hst := keeps_of_steps hn hready h
  rcases hwrap : n.wrap? with _ | c
  · have hplace := Node.place_of_wrap_none hwrap
    rw [hplace]
    rw [Node.events_of_leaves hwrap] at h ⊢
    exact accounted_leaves h
  rw [Node.place_of_wrap hwrap] at hst ⊢
  rw [Node.events_of_wrap hwrap] at h ⊢
  obtain ⟨v, hv, hleave⟩ := exists_of_steps_around h
  have hlined := lined_children hn hready hwrap
  have hsv := keeps_of_lined hlined hv
  have hcounts' := counts_entered style c hcounts
  have hkids := accounted_lined hlined (fun k hk => ih k hk (hn.child hk)) hcounts' hv
  refine .cons (step_enter style s c) (fun _ hl => Event.noConfusion hl)
    (hkids.append ?_ fun a hin ha => ?_)
  · exact .cons hleave (fun _ hl => Event.noConfusion hl) .nil
  -- A container that pushed a printer flushes it when it is left, and nothing of it waits then.
  by_cases hc : c.Captures (s.nesting.enter c)
  · have hroom : c.room = .content := by
      cases c <;> first | rfl | exact hc.elim
    rw [hroom] at ha
    exact Or.inl ((ha ▸ escapes_leave_captured hc hready.links hsv).escaped [])
  · exact outcome_leave hcounts hc hsv hst hleave hin ha

theorem Accounted.exists_outcome {l : Leaf} {rest : List Event} :
    ∀ {front : List Event} {s : Session}, Accounted style p t s (front ++ .leaf l :: rest) →
    l.queued? ≠ none → ∃ u v, steps style s front = .ok u ∧ step style u (.leaf l) = .ok v ∧
      Outcome style p u.nesting.around v rest t
  | [], s, .cons hstep hqueued _, hl => ⟨s, _, rfl, hstep, hqueued l rfl hl⟩
  | e :: front, s, .cons hstep _ h, hl => by
    obtain ⟨u, v, hu, hv, houtcome⟩ := h.exists_outcome hl
    exact ⟨u, v, (steps_cons hstep).trans hu, hv, houtcome⟩

theorem Outcome.escaped (h : Outcome style p a s events t) (hs : ¬ s.Settled) (ht : t.Settled) :
    Escaped style a s events := by
  rcases h with hesc | ⟨halong, hdepth, -⟩
  · exact hesc
  · obtain ⟨text, hs⟩ := Option.ne_none_iff_exists'.1 hs
    obtain ⟨text', hwaits⟩ := exists_pending_of_along halong rfl hdepth hs
    exact absurd (ht.symm.trans hwaits) nofun

/-- Nothing waits at the end of a document, so what is queued in it is escaped. -/
theorem escaped_of_document {kids : List Node} {q : Parameters} {front rest : List Event}
    {l : Leaf} (hregular : (Node.document kids q).Regular style)
    (hsplit : (Node.document kids q).events = front ++ .leaf l :: rest) (hl : l.queued? ≠ none) :
    ∃ s t, run style front = .ok s ∧ step style s (.leaf l) = .ok t ∧
      Escaped style s.nesting.around t rest := by
  have hready := ready_start style kids q
  obtain ⟨v, hv, -⟩ := steps_events style _ hregular hready
  have hend : v.Settled := settled_of_wrap (n := .document kids q) rfl trivial hv
  have hall := accounted style _ hregular hready ⟨Int.le_refl 0, Int.le_refl 0⟩ hv
  rw [hsplit] at hall
  obtain ⟨s, t, hs, ht, houtcome⟩ := hall.exists_outcome hl
  exact ⟨s, t, hs, ht, houtcome.escaped (not_settled_of_queued ht hl) hend⟩

end Waiting

end Session

namespace Node

variable {style : Style} {kids : List Node} {p : Parameters}

/-- Text of a document waits on its printer until an event escapes it. That event sees other
surroundings than the text was queued under if it leaves a list outside of lines or the outermost
table, or enters a line from outside of one, and at no other event. -/
theorem escaped_under (hregular : (document kids p).Regular style) {front rest : List Event}
    {l : Leaf} {text : String} (hsplit : (document kids p).events = front ++ .leaf l :: rest)
    (hqueued : l.queued? = some text) :
    ∃ s t u e, Session.run style front = .ok s ∧ Session.step style s (.leaf l) = .ok t ∧
      t.printers.active.pending = some (s.printers.active.pending.getD "" ++ text) ∧
      Session.EscapedBy style t.printers.depth t rest u e ∧
      ((u.nesting.atWriting e).around = s.nesting.around ↔ ¬ e.Shifts u.nesting) := by
  have hl : l.queued? ≠ none := Option.ne_none_iff_exists'.2 ⟨text, hqueued⟩
  obtain ⟨s, t, hs, ht, u, e, hby, haround⟩ := Session.escaped_of_document hregular hsplit hl
  exact ⟨s, t, u, e, hs, ht, Session.pending_of_queued ht hqueued, hby, haround⟩

end Node

/-- A list with dashes in its only item. -/
def dashedItem : List Node := [.listItem [.text "a--b"] .empty]

theorem regular_dashedItem (style : Style) :
    (Node.document [.list .bulleted dashedItem .empty] .empty).Regular style := by
  have hnodes : (Node.document [.list .bulleted dashedItem .empty] .empty).descendants =
      Node.descendantsAll [.list .bulleted dashedItem .empty] := rfl
  constructor <;> rw [Node.Everywhere, hnodes] <;>
    simp only [dashedItem, Node.descendants, Node.descendantsAll, List.append_nil,
      List.forall_mem_cons]
  · simp [Node.Fits, Node.children, Node.place, Node.room, Node.wrap?, Container.place,
      Container.room]
  · simp [Node.SpanValid]
  · simp [Node.Labelled]
  · simp [Node.CellsPlain, Node.IsCell]

/-- The first dash of the item is escaped by the end of the list. -/
theorem Node.escaped_under_dashedItem :
    (document [.list .bulleted dashedItem .empty] .empty).Regular (.standard {}) ∧
      (Leaf.symbol "-").queued? = some "-" ∧
      ∃ front rest, (document [.list .bulleted dashedItem .empty] .empty).events =
          front ++ .leaf (.symbol "-") :: rest ∧
        ∃ s t u e, Session.run (.standard {}) front = .ok s ∧
          Session.step (.standard {}) s (.leaf (.symbol "-")) = .ok t ∧
          t.printers.active.pending = some (s.printers.active.pending.getD "" ++ "-") ∧
          Session.EscapedBy (.standard {}) t.printers.depth t rest u e ∧
          ((u.nesting.atWriting e).around = s.nesting.around ↔ ¬ e.Shifts u.nesting) := by
  have hsplit : (document [.list .bulleted dashedItem .empty] .empty).events =
      [.enter (.document (some .empty)), .enter (.list .bulleted (some .empty)),
        .enter (.listItem (some .empty)), .leaf (.word "a")] ++ .leaf (.symbol "-") ::
      [.leaf (.symbol "-"), .leaf (.word "b"), .leave (.listItem (some .empty)),
        .leave (.list .bulleted (some .empty)), .leave (.document (some .empty))] := rfl
  exact ⟨regular_dashedItem _, rfl, _, _, hsplit,
    escaped_under (regular_dashedItem _) hsplit rfl⟩

/-- The dashes are escaped when an item follows, and not when none does. -/
theorem dashedItem_escaped_when_followed :
    ((Node.document [.list .bulleted dashedItem .empty] .empty).render
      (.standard {})).toOption = some "*   a--b" ∧
    ((Node.document [.list .bulleted (dashedItem ++ [.listItem [.text "c"] .empty]) .empty]
      .empty).render (.standard {})).toOption = some "*   a\\--b\n*   c" := by
  decide +kernel

end Markwright
