import Markwright.Proofs.Cells
import Markwright.Proofs.Surroundings

/-!
# Trees with pieces that stand anywhere

Whatever a tree holds and wherever its pieces stand, a session that takes all its events comes back
to the counters and the printers that it began with (`Session.stays_of_steps`). One that fails does
so for what a node asks, or because a cell that is left finds no row
(`Session.leavesRowless_of_error`).
-/

namespace Markwright

open Node (eventsAll)

/-! ## Below a node -/

/-- A node stands in a tree behind the given events. -/
inductive Node.At : Node → List Event → Node → Prop where
  | here (n : Node) : At n [] n
  | inside {n m k : Node} {c : Container} {front back : List Node} {before : List Event}
      (hw : n.wrap? = some c) (hk : n.children = front ++ k :: back) (h : At k before m) :
      At n (.enter c :: eventsAll front ++ before) m

namespace Node

variable {n m : Node} {c : Container} {before : List Event}

theorem At.exists_events (h : At n before m) : ∃ after, n.events = before ++ m.events ++ after := by
  induction h with
  | here n => exact ⟨[], by simp⟩
  | @inside n m k c front back before hw hk h ih =>
    obtain ⟨after, ih⟩ := ih
    refine ⟨after ++ eventsAll back ++ [.leave c], ?_⟩
    rw [events_of_wrap hw, hk, eventsAll_append, eventsAll, ih]
    simp [Event.around]

theorem At.mem (h : At n before m) : m ∈ n :: n.descendants := by
  induction h with
  | here n => exact List.mem_cons_self
  | @inside n m k c front back before hw hk h ih =>
    refine List.mem_cons_of_mem _ ?_
    rw [descendants_eq, mem_descendantsAll]
    exact ⟨k, by simp [hk], ih⟩

theorem At.everywhere {p : Node → Prop} (h : At n before m) (hp : n.Everywhere p) :
    m.Everywhere p := by
  induction h with
  | here n => exact hp
  | inside hw hk h ih => exact ih (hp.child (by simp [hk]))

theorem exists_at (hm : m ∈ n :: n.descendants) : ∃ before, At n before m := by
  induction n using childrenInduction with
  | step n ih =>
  rcases List.mem_cons.1 hm with rfl | hm
  · exact ⟨[], .here m⟩
  rw [descendants_eq, mem_descendantsAll] at hm
  obtain ⟨k, hk, hm⟩ := hm
  obtain ⟨before, h⟩ := ih k hk hm
  obtain ⟨front, back, hkids⟩ := List.append_of_mem hk
  rcases hw : n.wrap? with _ | c
  · rw [children_of_wrap_none hw] at hk
    cases hk
  · exact ⟨_, .inside hw hkids h⟩

/-- An event of a row of siblings belongs to one of them. -/
theorem exists_of_eventsAll_eq {e : Event} : ∀ {kids : List Node} {front back : List Event},
    eventsAll kids = front ++ e :: back → ∃ a k b inner after, kids = a ++ k :: b ∧
      k.events = inner ++ e :: after ∧ front = eventsAll a ++ inner
  | [], front, back, h => by simp [eventsAll] at h
  | k :: rest, front, back, h => by
    have hlater : ∀ inner : List Event, eventsAll rest = inner ++ e :: back →
        front = k.events ++ inner → ∃ a l b inner after, k :: rest = a ++ l :: b ∧
          l.events = inner ++ e :: after ∧ front = eventsAll a ++ inner := by
      intro inner hrest hfront
      obtain ⟨a, l, b, inner, after, rfl, hl, rfl⟩ := exists_of_eventsAll_eq hrest
      exact ⟨k :: a, l, b, inner, after, rfl, hl, by rw [hfront, eventsAll, List.append_assoc]⟩
    rw [eventsAll] at h
    rcases List.append_eq_append_iff.1 h with ⟨inner, hfront, hrest⟩ | ⟨inner, hk, hrest⟩
    · exact hlater inner hrest hfront
    · rcases inner with _ | ⟨e', after⟩
      · exact hlater [] hrest.symm (by simpa using hk.symm)
      · obtain ⟨rfl, -⟩ := List.cons.inj hrest
        exact ⟨[], k, rest, front, after, rfl, hk, rfl⟩

/-- The event that leaves a container belongs to a node, which was entered before its children. -/
theorem exists_at_of_leave (n : Node) : ∀ {front back : List Event},
    n.events = front ++ .leave c :: back → ∃ m before, At n before m ∧ m.wrap? = some c ∧
      front = before ++ .enter c :: eventsAll m.children := by
  induction n using childrenInduction with
  | step n ih =>
  intro front back h
  rcases hw : n.wrap? with _ | d
  · rw [events_of_leaves hw] at h
    have hmem : Event.leave c ∈ n.leaves.map Event.leaf := by rw [h]; simp
    simp at hmem
  rw [events_of_wrap hw, Event.around, List.cons_append] at h
  rcases front with _ | ⟨e, front⟩
  · cases h
  rw [List.cons_append, List.cons.injEq] at h
  obtain ⟨rfl, h⟩ := h
  have hlast : eventsAll n.children = front → d = c → ∃ m before, At n before m ∧
      m.wrap? = some c ∧ Event.enter d :: front = before ++ .enter c :: eventsAll m.children := by
    rintro rfl rfl
    exact ⟨n, [], .here n, hw, rfl⟩
  rcases List.append_eq_append_iff.1 h with ⟨rest, rfl, hd⟩ | ⟨rest, hkids, hd⟩
  · rcases List.singleton_eq_append_iff.1 hd with ⟨rfl, hd⟩ | ⟨-, hd⟩
    · cases hd
      exact hlast (by simp) rfl
    · cases hd
  · rcases rest with _ | ⟨e, after⟩
    · cases hd
      exact hlast (by simpa using hkids) rfl
    · obtain ⟨rfl, -⟩ := List.cons.inj hd
      obtain ⟨a, k, b, inner, after', hsplit, hk, rfl⟩ := exists_of_eventsAll_eq hkids
      obtain ⟨m, before, hat, hm, rfl⟩ := ih k (by simp [hsplit]) hk
      exact ⟨m, _, .inside hw hsplit hat, hm, by simp⟩

end Node

/-! ## What a tree leaves as it was -/

/-- All counters are where they were, and as many lists are open. -/
structure Nesting.Level (m n : Nesting) : Prop where
  counts : ∀ k, n.count k = m.count k
  listDepth : n.lists.length = m.lists.length

theorem Nesting.level_leave {m n : Nesting} (c : Container) (h : (m.enter c).Level n) :
    ∃ n', n.leave c = .ok n' ∧ m.Level n' := by
  have hcounts : ∀ n', n.leave c = .ok n' → ∀ k, n'.count k = m.count k := by
    intro n' hn k
    have hleave := count_step (e := .leave c) hn k
    have henter := count_step (m := m) (e := .enter c) rfl k
    have hin := h.counts k
    simp only [Event.change] at hleave henter
    omega
  have hdepth := h.listDepth
  cases c
  case list kind p =>
    simp only [enter, List.length_cons] at hdepth
    rcases hn : n.lists with _ | ⟨top, rest⟩
    · simp [hn] at hdepth
    · have hleave : n.leave (.list kind p) = .ok { n with lists := rest, previous := .list } := by
        simp [leave, hn]
      refine ⟨_, hleave, hcounts _ hleave, ?_⟩
      simpa [hn] using hdepth
  case listItem => exact ⟨_, rfl, hcounts _ rfl, hdepth.trans (length_nextItem _)⟩
  all_goals exact ⟨_, rfl, hcounts _ rfl, hdepth⟩

namespace Session

variable {style : Style} {s t u : Session} {c : Container} {n : Node}

/-- The nesting is level, and the printers are extended. -/
structure Stays (s t : Session) : Prop where
  nesting : s.nesting.Level t.nesting
  printers : s.printers.Extends .none t.printers

protected theorem Stays.refl (s : Session) : s.Stays s := ⟨⟨fun _ => rfl, rfl⟩, .refl _⟩

protected theorem Stays.trans (h : s.Stays t) (k : t.Stays u) : s.Stays u :=
  ⟨⟨fun c => (k.nesting.counts c).trans (h.nesting.counts c),
    k.nesting.listDepth.trans h.nesting.listDepth⟩, h.printers.trans k.printers⟩

theorem Stays.links (h : s.Stays t) : t.nesting.links = s.nesting.links := h.nesting.counts .links

theorem Stays.tables (h : s.Stays t) : t.nesting.tables = s.nesting.tables :=
  h.nesting.counts .tables

/-! ### Leaves -/

theorem writes_writeLeaf {l : Leaf} (h : writeLeaf style s l = .ok t) : Writes .none s t := by
  by_cases himage : ∃ r f q, l = .image r f q
  · obtain ⟨r, f, q, rfl⟩ := himage
    unfold writeLeaf at h
    dsimp only at h
    split at h
    · cases h
    · rename_i label v hv
      cases h
      refine Writes.trans ?_ (.print v _)
      unfold imageLabel at hv
      split at hv
      · cases hv
        exact .refl _
      · split at hv <;> cases hv
        · exact .note _ _
        · exact .refl _
  · have hok : ∃ u, writeLeaf style s l = .ok u ∧ Writes .none s u :=
      writeLeaf_ok fun r f q e => absurd ⟨r, f, q, e⟩ himage
    obtain ⟨u, hu, hw⟩ := hok
    rw [h] at hu
    cases hu
    exact hw

theorem stays_of_leaf {l : Leaf} (h : step style s (.leaf l) = .ok t) : s.Stays t := by
  obtain ⟨u, hwrite, rfl⟩ := exists_of_step_leaf h
  have hw := writes_writeLeaf hwrite
  refine ⟨⟨fun k => ?_, ?_⟩, hw.printers⟩
  · rw [← hw.nesting]
    cases k <;> rfl
  · rw [← hw.nesting]

/-! ### Containers -/

theorem exists_captures_of_stays (hc : c.Captures (s.nesting.enter c))
    (h : (s.entered style c).Stays t) :
    ∃ b : Session, Writes .none { s with nesting := s.nesting.enter c } b ∧
      b.printers.Captures t.printers := by
  obtain ⟨b, hw, hb⟩ := writeEnter_of_captures style
    (s := { s with nesting := s.nesting.enter c }) hc
  have hin := h.printers
  rw [entered, hb] at hin
  exact ⟨b, hw, (PrinterStack.captures_push b.printers).extends hin⟩

/-- A container that is no cell can always be left. -/
theorem exists_leave_of_stays (hc : c.place ≠ .tableRow) (hl : 0 ≤ s.nesting.links)
    (h : (s.entered style c).Stays t) : ∃ u, step style t (.leave c) = .ok u ∧ s.Stays u := by
  obtain ⟨hnest, -, -⟩ := entered_spec style s c
  have hin := h.nesting
  rw [hnest] at hin
  have hleave : ∀ {v}, writeLeave style t c = .ok v → v.nesting = t.nesting →
      s.printers.Extends .none v.printers → ∃ u, step style t (.leave c) = .ok u ∧ s.Stays u := by
    intro v hv hn hext
    obtain ⟨n, hn', hlevel⟩ := Nesting.level_leave c hin
    exact ⟨_, step_leave hv (hn ▸ hn'), hlevel, hext⟩
  by_cases hcap : c.Captures (s.nesting.enter c)
  · obtain ⟨b, hw, hb⟩ := exists_captures_of_stays hcap h
    cases c
    case link r freeStanding q =>
      obtain ⟨hlt, rfl⟩ := hcap
      have hone : t.nesting.links = 1 := by
        have hlinks : t.nesting.links = s.nesting.links + 1 := hin.counts .links
        simp only [Nesting.enter] at hlt
        omega
      obtain ⟨v, hv, hn, -, hext⟩ := writeLeave_link_of_captures style r q hb hone
      exact hleave hv hn (hw.printers.trans hext)
    case tableCell | tableHeadCell => exact absurd rfl hc
    all_goals exact hcap.elim
  · by_cases hp : c.place = .table
    · obtain ⟨q, rfl⟩ := eq_tableRow_of_place hp
      exact hleave rfl rfl h.printers
    · have hext := (writes_writeEnter style
        (s := { s with nesting := s.nesting.enter c }) hcap hp).printers.trans h.printers
      by_cases hr : c.room = .table
      · obtain ⟨q, rfl⟩ := eq_table_of_room hr
        obtain ⟨v, hv, hn, -, hw⟩ := writeLeave_table style t q
        exact hleave hv hn (hext.trans hw)
      · have hcap' : ¬ c.Captures t.nesting := mt (captures_congr (hin.counts .links)).1 hcap
        obtain ⟨v, hv, hn, -, hw⟩ := writeLeave_of_extends hext hcap' hp hr
        exact hleave hv hn hw

theorem step_leave_error {f : Failure} (h : writeLeave style s c = .error f) :
    step style s (.leave c) = .error f := by
  have hstep : step style s (.leave c) =
      writeLeave style s c >>= fun t => track t (.leave c) >>= pure := rfl
  rw [hstep, h]
  rfl

/-- A cell that is left needs a row to go to and a span. -/
theorem leave_cell_of_stays {q : Option Parameters} (hc : c = .tableCell q ∨ c = .tableHeadCell q)
    (h : (s.entered style c).Stays t) :
    (∃ u, step style t (.leave c) = .ok u ∧ s.Stays u) ∨
      ∃ f, step style t (.leave c) = .error f ∧
        (t.table.rows = [] ∧ f.fault = .cellOutsideRow ∨
          Table.spanOf (lookupIn q "colspan") = .error f.fault) := by
  obtain ⟨isHeader, hplace, hwrite⟩ : ∃ isHeader, c.place = .tableRow ∧
      writeLeave style t c = t.leaveCell isHeader q := by
    rcases hc with rfl | rfl
    · exact ⟨false, rfl, rfl⟩
    · exact ⟨true, rfl, rfl⟩
  have hcap : s.printers.Captures t.printers := by
    have hpush : (s.entered style c).printers = s.printers.push := by
      rcases hc with rfl | rfl <;> rfl
    have hcaptures := PrinterStack.captures_push s.printers
    rw [← hpush] at hcaptures
    exact hcaptures.extends h.printers
  have hin := h.nesting
  rw [(entered_spec style s c).1] at hin
  rw [leaveCell, popCapture_of_captures hcap] at hwrite
  dsimp only at hwrite
  rcases hadd : t.table.addCell (t.printers.active.flush t.nesting.around).written isHeader q
    with fault | table
  · rw [hadd] at hwrite
    exact Or.inr ⟨_, step_leave_error hwrite, Table.Layout.addCell_error hadd⟩
  · rw [hadd] at hwrite
    obtain ⟨n, hn, hlevel⟩ := Nesting.level_leave c hin
    exact Or.inl ⟨_, step_leave hwrite hn, hlevel, .refl _⟩

/-! ### Trees -/

theorem stays_of_eventsAll : ∀ {kids : List Node} {s t : Session}, (∀ k ∈ kids, ∀ s t : Session,
      0 ≤ s.nesting.links → steps style s k.events = .ok t → s.Stays t) →
    0 ≤ s.nesting.links → steps style s (eventsAll kids) = .ok t → s.Stays t
  | [], s, _, _, _, h => by
    cases h
    exact .refl s
  | k :: rest, s, t, hkids, hl, h => by
    obtain ⟨u, hk, hrest⟩ := exists_of_steps_append h
    have hsu := hkids k (by simp) s u hl hk
    exact hsu.trans (stays_of_eventsAll (fun l hm => hkids l (List.mem_cons_of_mem _ hm))
      (hsu.links ▸ hl) hrest)

theorem stays_of_leaves : ∀ {leaves : List Leaf} {s t : Session},
    steps style s (leaves.map .leaf) = .ok t → s.Stays t
  | [], s, _, h => by
    cases h
    exact .refl s
  | l :: rest, s, t, h => by
    obtain ⟨u, hl, hrest⟩ := exists_of_steps_cons h
    exact (stays_of_leaf hl).trans (stays_of_leaves hrest)

theorem links_entered (hl : 0 ≤ s.nesting.links) (c : Container) :
    0 ≤ (s.entered style c).nesting.links := by
  rw [(entered_spec style s c).1]
  exact Int.le_trans hl (links_le_enter _ c)

/-- A session that takes all events of a tree comes back to where it began. -/
theorem stays_of_steps (n : Node) : ∀ s t : Session, 0 ≤ s.nesting.links →
    steps style s n.events = .ok t → s.Stays t := by
  induction n using Node.childrenInduction with
  | step n ih =>
  intro s t hl h
  rcases hw : n.wrap? with _ | c
  · rw [Node.events_of_leaves hw] at h
    exact stays_of_leaves h
  rw [Node.events_of_wrap hw] at h
  obtain ⟨u, hu, hleave⟩ := exists_of_steps_around h
  have hin := stays_of_eventsAll ih (links_entered hl c) hu
  by_cases hc : c.place = .tableRow
  · obtain ⟨q, hq⟩ := eq_cell_of_place hc
    rcases leave_cell_of_stays hq hin with ⟨v, hv, hsv⟩ | ⟨f, hf, -⟩
    · rw [hleave, Except.ok.injEq] at hv
      exact hv ▸ hsv
    · rw [hleave] at hf
      cases hf
  · obtain ⟨v, hv, hsv⟩ := exists_leave_of_stays hc hl hin
    rw [hleave, Except.ok.injEq] at hv
    exact hv ▸ hsv

theorem exists_of_steps_append_error {a b : List Event} {f : Failure}
    (h : steps style s (a ++ b) = .error f) :
    steps style s a = .error f ∨ ∃ t, steps style s a = .ok t ∧ steps style t b = .error f := by
  rcases ha : steps style s a with f' | t
  · rw [steps, List.foldlM_append] at h
    change (steps style s a >>= fun t => steps style t b) = _ at h
    rw [ha] at h
    exact Or.inl h
  · exact Or.inr ⟨t, rfl, (steps_append ha).symm.trans h⟩

theorem exists_of_eventsAll_error : ∀ {kids : List Node} {s : Session} {f : Failure},
    steps style s (eventsAll kids) = .error f → ∃ front k back t, kids = front ++ k :: back ∧
      steps style s (eventsAll front) = .ok t ∧ steps style t k.events = .error f
  | [], s, f, h => by cases h
  | k :: rest, s, f, h => by
    rcases exists_of_steps_append_error h with hk | ⟨u, hu, hrest⟩
    · exact ⟨[], k, rest, s, rfl, rfl, hk⟩
    · obtain ⟨front, l, back, t, rfl, ht, hl⟩ := exists_of_eventsAll_error hrest
      exact ⟨k :: front, l, back, t, rfl, by rw [eventsAll, steps_append hu, ht], hl⟩

/-- A cell that is left, at which the table has no row. -/
def LeavesRowless (style : Style) (s : Session) (n : Node) : Prop :=
  ∃ m before c t, n.At before m ∧ m.wrap? = some c ∧ c.place = .tableRow ∧
    steps style s (before ++ .enter c :: eventsAll m.children) = .ok t ∧ t.table.rows = []

/-- With spans that are valid and images that can be labelled, a tree fails only at a cell without
a row. -/
theorem leavesRowless_of_error (n : Node) : n.Everywhere Node.SpanValid →
    n.Everywhere (Node.Labelled style) → ∀ (s : Session) (f : Failure), 0 ≤ s.nesting.links →
    steps style s n.events = .error f → f.fault = .cellOutsideRow ∧ LeavesRowless style s n := by
  induction n using Node.childrenInduction with
  | step n ih =>
  intro hspans hlabels s f hl h
  rcases hw : n.wrap? with _ | c
  · rw [Node.events_of_leaves hw] at h
    have hok : ∃ t, steps style s (n.leaves.map .leaf) = .ok t ∧ s.Keeps .content t :=
      steps_leaves n.leaves fun r f q hm => label_of_mem_leaves hlabels.here hm
    obtain ⟨t, ht, -⟩ := hok
    rw [ht] at h
    cases h
  rw [Node.events_of_wrap hw, Event.around, List.cons_append,
    steps_cons (step_enter style s c)] at h
  rcases exists_of_steps_append_error h with hinner | ⟨t, ht, hleave⟩
  · obtain ⟨front, k, back, u, hsplit, hfront, hk⟩ := exists_of_eventsAll_error hinner
    have hmem : k ∈ n.children := by simp [hsplit]
    have hsu := stays_of_eventsAll (fun k _ => stays_of_steps k) (links_entered hl c) hfront
    obtain ⟨hfault, m, before, d, t, hat, hm, hd, ht, hrows⟩ :=
      ih k hmem (hspans.child hmem) (hlabels.child hmem) u f
        (hsu.links ▸ links_entered hl c) hk
    refine ⟨hfault, m, _, d, t, .inside hw hsplit hat, hm, hd, ?_, hrows⟩
    rw [List.append_assoc, List.cons_append, steps_cons (step_enter style s c),
      steps_append hfront, ht]
  · have hin := stays_of_eventsAll (fun k _ => stays_of_steps k) (links_entered hl c) ht
    have herror : step style t (.leave c) = .error f := by
      rcases hstep : step style t (.leave c) with f' | u
      · rw [steps, List.foldlM_cons, hstep] at hleave
        exact hleave
      · rw [steps_singleton hstep] at hleave
        cases hleave
    by_cases hc : c.place = .tableRow
    · obtain ⟨q, hq⟩ := eq_cell_of_place hc
      rcases leave_cell_of_stays hq hin with ⟨u, hu, -⟩ | ⟨f', hf', hcause⟩
      · rw [herror] at hu
        cases hu
      · rw [herror, Except.error.injEq] at hf'
        subst hf'
        rcases hcause with ⟨hrows, hfault⟩ | hspan
        · refine ⟨hfault, n, [], c, t, .here n, hw, hc, ?_, hrows⟩
          rw [List.nil_append, steps_cons (step_enter style s c), ht]
        · have hvalid : ∃ span, Table.spanOf (lookupIn q "colspan") = .ok span := by
            refine span_of_wrap hspans.here (hq.imp ?_ ?_) <;> (rintro rfl; exact hw)
          obtain ⟨span, hvalid⟩ := hvalid
          rw [hvalid] at hspan
          cases hspan
    · obtain ⟨u, hu, -⟩ := exists_leave_of_stays hc hl hin
      rw [herror] at hu
      cases hu

end Session

end Markwright
