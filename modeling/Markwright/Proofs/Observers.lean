import Markwright.Proofs.AnyTree
import Markwright.Proofs.WellNested

/-!
# What the later listeners see

In a chain the first listener keeps track of the nesting and those behind it only look. They are
told of what is entered after it and of what is left before it, so at both ends they find the
container counted (`Chain.nesting_seen`). What lies between leaves the nesting as it was but for the
item of a list, which only items move on (`Node.exists_returns`), so where items stand in lists
alone both ends look the same (`Node.seen_at_both_ends`).

The writer is such a listener. It asks two different things of the depth of links when it pushes a
printer for a label and when it takes it off, and for what it sees they come to the same
(`Session.depth_entered_link`).
-/

namespace Markwright

open Node (eventsAll)

/-- The nesting after a stream of events. -/
def Nesting.steps (n : Nesting) (events : List Event) : Except RenderFault Nesting :=
  events.foldlM step n

/-! ## Chains of listeners -/

/-- Listeners that share a state. The first keeps the nesting, and the later ones leave it as it
is. -/
structure Chain (σ ε : Type) where
  nesting : σ → Nesting
  tracker : σ → Event → Except ε σ
  later : List (σ → Event → Except ε σ)
  tracks : ∀ s e t, tracker s e = .ok t → (nesting s).step e = .ok (nesting t)
  keeps : ∀ listen ∈ later, ∀ s e t, listen s e = .ok t → nesting t = nesting s

namespace Chain

variable {σ ε : Type} {C : Chain σ ε} {i : Nat} {s t u : σ} {e : Event}

/-- Tells all listeners of an event. -/
def step (C : Chain σ ε) (s : σ) (e : Event) : Except ε σ :=
  e.dispatch (C.tracker :: C.later) s

/-- Tells all listeners of events, one event after the other, until a listener fails. -/
def steps (C : Chain σ ε) (s : σ) (events : List Event) : Except ε σ :=
  events.foldlM C.step s

/-- Those that are told of an event before the later listener at a place is. -/
def toldBefore (C : Chain σ ε) (i : Nat) : Event → List (σ → Event → Except ε σ)
  | .enter _ => C.tracker :: C.later.take i
  | _ => (C.later.drop (i + 1)).reverse

/-- The state in which the later listener at a place is told of an event. -/
def seen (C : Chain σ ε) (i : Nat) (s : σ) (e : Event) : Except ε σ :=
  (C.toldBefore i e).foldlM (fun s listen => listen s e) s

theorem exists_order_eq (C : Chain σ ε) (hi : i < C.later.length) (e : Event) :
    ∃ rest, e.order (C.tracker :: C.later) = C.toldBefore i e ++ C.later[i] :: rest := by
  have hsplit : C.later.take i ++ C.later[i] :: C.later.drop (i + 1) = C.later := by simp
  have hfront : e.order (C.tracker :: C.later) = C.tracker :: C.later ∧
      C.toldBefore i e = C.tracker :: C.later.take i ∨
      e.order (C.tracker :: C.later) = (C.tracker :: C.later).reverse ∧
      C.toldBefore i e = (C.later.drop (i + 1)).reverse := by
    cases e with
    | enter c => exact Or.inl ⟨rfl, rfl⟩
    | leave c | leaf l => exact Or.inr ⟨rfl, rfl⟩
  rcases hfront with ⟨horder, hbefore⟩ | ⟨horder, hbefore⟩ <;> rw [horder, hbefore]
  · exact ⟨C.later.drop (i + 1), by rw [List.cons_append, hsplit]⟩
  · refine ⟨(C.tracker :: C.later.take i).reverse, ?_⟩
    have hreverse := congrArg List.reverse (congrArg (C.tracker :: ·) hsplit)
    rw [← List.cons_append, List.reverse_append, List.reverse_cons, List.append_assoc] at hreverse
    exact hreverse.symm

theorem nesting_foldlM : ∀ {listeners : List (σ → Event → Except ε σ)} {s : σ},
    (∀ listen ∈ listeners, listen ∈ C.later) →
    listeners.foldlM (fun s listen => listen s e) s = .ok t → C.nesting t = C.nesting s
  | [], s, _, h => by
    cases h
    rfl
  | listen :: rest, s, hlater, h => by
    rw [List.foldlM_cons] at h
    rcases hs : listen s e with fault | u
    · rw [hs] at h
      cases h
    · rw [hs] at h
      have hrest := nesting_foldlM (fun l hl => hlater l (List.mem_cons_of_mem _ hl)) h
      exact hrest.trans (C.keeps listen (hlater listen (by simp)) s e u hs)

/-- The tracker is the first that is told of what is entered. -/
theorem nesting_foldlM_tracker {listeners : List (σ → Event → Except ε σ)}
    (hlater : ∀ listen ∈ listeners, listen ∈ C.later)
    (h : (C.tracker :: listeners).foldlM (fun s listen => listen s e) s = .ok t) :
    (C.nesting s).step e = .ok (C.nesting t) := by
  rw [List.foldlM_cons] at h
  rcases hs : C.tracker s e with fault | u
  · rw [hs] at h
    cases h
  · rw [hs] at h
    rw [nesting_foldlM hlater h]
    exact C.tracks s e u hs

/-- A later listener finds what is entered counted, and what is left not yet uncounted. -/
theorem nesting_seen (h : C.seen i s e = .ok t) : C.nesting t = (C.nesting s).atWriting e := by
  have htake : ∀ listen ∈ C.later.take i, listen ∈ C.later := fun _ => List.mem_of_mem_take
  have hdrop : ∀ listen ∈ (C.later.drop (i + 1)).reverse, listen ∈ C.later :=
    fun _ hl => List.mem_of_mem_drop (List.mem_reverse.1 hl)
  cases e with
  | enter c => exact (Except.ok.inj (nesting_foldlM_tracker htake h)).symm
  | leave c | leaf l => exact nesting_foldlM hdrop h

theorem nesting_step (h : C.step s e = .ok t) : (C.nesting s).step e = .ok (C.nesting t) := by
  have hback : (C.tracker :: C.later).reverse.foldlM (fun s listen => listen s e) s = .ok t →
      (C.nesting s).step e = .ok (C.nesting t) := by
    intro h
    rw [List.reverse_cons, List.foldlM_append] at h
    rcases hs : C.later.reverse.foldlM (fun s listen => listen s e) s with fault | u
    · rw [hs] at h
      cases h
    · rw [hs] at h
      rw [← nesting_foldlM (fun _ => List.mem_reverse.1) hs]
      exact nesting_foldlM_tracker (List.forall_mem_nil _) h
  cases e with
  | enter c => exact nesting_foldlM_tracker (fun _ => id) h
  | leave c | leaf l => exact hback h

theorem nesting_steps : ∀ {events : List Event} {s : σ}, C.steps s events = .ok t →
    (C.nesting s).steps events = .ok (C.nesting t)
  | [], s, h => by
    cases h
    rfl
  | e :: rest, s, h => by
    rw [steps, List.foldlM_cons] at h
    rw [Nesting.steps, List.foldlM_cons]
    rcases hs : C.step s e with fault | u
    · rw [hs] at h
      cases h
    · rw [hs] at h
      rw [nesting_step hs]
      exact nesting_steps h

theorem steps_of_append {a b : List Event} (ha : C.steps s a = .ok t)
    (h : C.steps s (a ++ b) = .ok u) : C.steps t b = .ok u := by
  rw [steps, List.foldlM_append] at h
  change (C.steps s a >>= fun t => C.steps t b) = _ at h
  rwa [ha] at h

end Chain

/-! ## What lies between two ends -/

/-- Items stand in lists alone. -/
abbrev Node.ItemsInLists (n : Node) : Prop :=
  n.Everywhere fun m => ∀ k ∈ m.children, k.place = .list → m.room = .list

/-- The nesting agrees, and the open lists are of the same kinds. -/
structure Nesting.Returns (p : Place) (m n : Nesting) : Prop extends m.Agrees p n where
  kinds : n.lists.map (·.kind) = m.lists.map (·.kind)

namespace Nesting

variable {p q : Place} {l m n : Nesting} {c : Container}

protected theorem Returns.refl (p : Place) (n : Nesting) : n.Returns p n := ⟨.refl p n, rfl⟩

protected theorem Returns.trans (h : l.Returns p m) (k : m.Returns p n) : l.Returns p n :=
  ⟨h.toAgrees.trans k.toAgrees, k.kinds.trans h.kinds⟩

/-- Only what stands in a list may move its item on. -/
theorem Returns.mono (h : m.Returns p n) (hpq : p = .list → q = .list) : m.Returns q n :=
  ⟨⟨h.links, h.tables, h.quotations, h.inLine, h.definitionLists, h.outerLists, h.listDepth,
    fun hq => h.lists (mt hpq hq)⟩, h.kinds⟩

theorem map_kind_nextItem : ∀ ls : List OpenList,
    (nextItem ls).map (·.kind) = ls.map (·.kind)
  | [] => rfl
  | _ :: _ => rfl

theorem returns_leave (c : Container) (h : (m.enter c).Returns c.room n) :
    ∃ n', n.leave c = .ok n' ∧ m.Returns c.place n' := by
  obtain ⟨n', hn, hagrees⟩ := agrees_leave c h.toAgrees
  refine ⟨n', hn, hagrees, ?_⟩
  by_cases hp : c.place = .list
  · cases c <;> cases hp
    cases hn
    exact h.kinds.trans (map_kind_nextItem m.lists)
  · rw [hagrees.lists hp]

theorem exists_steps_leaves : ∀ (leaves : List Leaf) (m : Nesting),
    ∃ n, m.steps (leaves.map .leaf) = .ok n ∧ m.Returns .content n
  | [], m => ⟨m, rfl, .refl _ m⟩
  | l :: rest, m => by
    obtain ⟨n, hn, hreturns⟩ := exists_steps_leaves rest { m with previous := completes l }
    exact ⟨n, hn, ⟨⟨hreturns.links, hreturns.tables, hreturns.quotations, hreturns.inLine,
      hreturns.definitionLists, hreturns.outerLists, hreturns.listDepth, hreturns.lists⟩,
      hreturns.kinds⟩⟩

theorem steps_append {l m : Nesting} {a b : List Event} (ha : l.steps a = .ok m) :
    l.steps (a ++ b) = m.steps b := by
  rw [steps, List.foldlM_append]
  change (l.steps a >>= fun m => m.steps b) = _
  rw [ha]
  rfl

end Nesting

namespace Node

theorem exists_returns_eventsAll : ∀ {kids : List Node} {p : Place} (m : Nesting),
    (∀ k ∈ kids, (k.place = .list → p = .list) ∧
      ∀ m : Nesting, ∃ m', m.steps k.events = .ok m' ∧ m.Returns k.place m') →
    ∃ m', m.steps (eventsAll kids) = .ok m' ∧ m.Returns p m'
  | [], p, m, _ => ⟨m, rfl, .refl p m⟩
  | k :: rest, p, m, h => by
    obtain ⟨hplace, hk⟩ := h k (by simp)
    obtain ⟨l, hl, hkl⟩ := hk m
    obtain ⟨n, hn, hrest⟩ := exists_returns_eventsAll l fun k hk => h k (List.mem_cons_of_mem _ hk)
    exact ⟨n, by rw [eventsAll, Nesting.steps_append hl, hn], (hkl.mono hplace).trans hrest⟩

/-- A tree is tracked to its end, and but for the item of an open list the nesting is then as it
was. -/
theorem exists_returns (n : Node) : n.ItemsInLists → ∀ m : Nesting,
    ∃ m', m.steps n.events = .ok m' ∧ m.Returns n.place m' := by
  induction n using childrenInduction with
  | step n ih =>
  intro hn m
  rcases hw : n.wrap? with _ | c
  · rw [events_of_leaves hw, place_of_wrap_none hw]
    exact Nesting.exists_steps_leaves n.leaves m
  · obtain ⟨l, hl, hinner⟩ := exists_returns_eventsAll (m.enter c) fun k hk =>
      ⟨fun hp => (room_of_wrap hw).symm.trans (hn.here k hk hp), ih k hk (hn.child hk)⟩
    obtain ⟨m', hm', hreturns⟩ := Nesting.returns_leave c hinner
    have hleave : l.steps [.leave c] = .ok m' := by
      change (l.leave c >>= pure) = _
      rw [hm']
      rfl
    refine ⟨m', ?_, place_of_wrap hw ▸ hreturns⟩
    rw [events_of_wrap hw, Event.around]
    change (m.enter c).steps (eventsAll n.children ++ [.leave c]) = _
    rw [Nesting.steps_append hl, hleave]

end Node

/-! ## Both ends of a container -/

/-- The kind of list that a container opens. -/
def Container.listKind? : Container → Option ListKind
  | .list kind _ => some kind
  | _ => none

namespace Nesting

/-- `n` is in the container, which was entered in `m`: it counts, its list is open, and as an item
it is the next one. -/
structure Inside (c : Container) (m n : Nesting) : Prop where
  counts : ∀ k, n.count k = m.count k + c.weight k
  kinds : n.lists.map (·.kind) = c.listKind?.toList ++ m.lists.map (·.kind)
  item : ∀ q, c = .listItem q → m.lists ≠ [] → n.itemIndex = m.itemIndex + 1

/-- The depths are the same, the open lists are of the same kinds, and for an item its index is the
same. -/
structure SameFor (c : Container) (m n : Nesting) : Prop where
  counts : ∀ k, n.count k = m.count k
  kinds : n.lists.map (·.kind) = m.lists.map (·.kind)
  item : ∀ q, c = .listItem q → n.itemIndex = m.itemIndex

variable {l m n : Nesting} {c : Container}

theorem inside_enter (c : Container) (m : Nesting) : m.Inside c (m.enter c) := by
  refine ⟨fun k => count_step (e := .enter c) rfl k, ?_, ?_⟩
  · cases c
    case listItem => exact map_kind_nextItem m.lists
    all_goals rfl
  · rintro q rfl hlists
    obtain ⟨top, rest, htop⟩ := List.exists_cons_of_ne_nil hlists
    simp [enter, itemIndex, nextItem, htop]

theorem Returns.sameFor (h : (m.enter c).Returns c.room n) : (m.enter c).SameFor c n := by
  refine ⟨fun k => ?_, h.kinds, ?_⟩
  · cases k
    · exact h.links
    · exact h.tables
    · exact h.quotations
    · exact h.inLine
    · exact h.definitionLists
  · rintro q rfl
    rw [itemIndex, itemIndex, h.lists nofun]

theorem Inside.sameFor (h : l.Inside c m) (k : m.SameFor c n) : l.Inside c n :=
  ⟨fun x => (k.counts x).trans (h.counts x), k.kinds.trans h.kinds,
    fun q hq hl => (k.item q hq).trans (h.item q hq hl)⟩

end Nesting

namespace Session

variable {style : Style} {s t : Session} {r : Reference} {freeStanding : Bool}
  {q : Option Parameters}

theorem nesting_writeEnter (style : Style) (s : Session) (c : Container) :
    (writeEnter style s c).nesting = s.nesting := by
  by_cases hp : c.place = .table
  · obtain ⟨q, rfl⟩ := eq_tableRow_of_place hp
    rfl
  · by_cases hc : c.Captures s.nesting
    · obtain ⟨t, hw, ht⟩ := writeEnter_of_captures style hc
      rw [ht]
      exact hw.nesting
    · exact (writes_writeEnter style hc hp).nesting

/-- The chain of a session: the writer looks at the nesting and leaves it as it is. -/
def chain (style : Style) : Chain Session Failure where
  nesting := nesting
  tracker := track
  later := [write style]
  tracks s e t h := by
    unfold track at h
    split at h <;> cases h
    assumption
  keeps listen hlisten s e t h := by
    obtain rfl := List.mem_singleton.1 hlisten
    cases e with
    | enter c =>
      cases h
      exact nesting_writeEnter style s c
    | leave c => exact nesting_writeLeave h
    | leaf l => exact nesting_writeLeaf h

theorem chain_step (style : Style) : (chain style).step = step style := rfl

theorem depth_entered_link (hl : 0 ≤ s.nesting.links) :
    (s.entered style (.link r freeStanding q)).printers.depth =
      s.printers.depth + if s.nesting.links = 0 ∧ freeStanding = false then 1 else 0 := by
  have hcap : (Container.link r freeStanding q).Captures
        (s.nesting.enter (.link r freeStanding q)) ↔
      s.nesting.links = 0 ∧ freeStanding = false := by
    have hlink : s.nesting.links + 1 < 2 ↔ s.nesting.links = 0 := by omega
    exact and_congr_left fun _ => hlink
  by_cases h : s.nesting.links = 0 ∧ freeStanding = false
  · obtain ⟨b, hw, hb⟩ := writeEnter_of_captures style
      (s := { s with nesting := s.nesting.enter (.link r freeStanding q) }) (hcap.2 h)
    rw [if_pos h, entered, hb]
    exact congrArg (· + 1) hw.printers.depth
  · rw [if_neg h]
    have hplace : (Container.link r freeStanding q).place ≠ .table := by rintro ⟨⟩
    exact (writes_writeEnter style (s := { s with nesting := s.nesting.enter _ }) (mt hcap.1 h)
      hplace).printers.depth

end Session

namespace Node

variable {n : Node} {front inner back : List Event} {c d : Container}

/-- The two ends of a container in the events of a tree are those of a node. -/
theorem exists_at_of_ends (hsplit : n.events = front ++ .enter c :: (inner ++ .leave d :: back))
    (hinner : WellNested inner) :
    d = c ∧ ∃ m, At n front m ∧ m.wrap? = some c ∧ inner = eventsAll m.children := by
  have hleave : n.events = (front ++ .enter c :: inner) ++ .leave d :: back := by
    rw [hsplit, List.append_assoc, List.cons_append]
  obtain ⟨m, before, hat, hwrap, hends⟩ := exists_at_of_leave n hleave
  have hkids : WellNested (eventsAll m.children) :=
    wellNested_eventsAll fun k _ => wellNested_events k
  obtain ⟨rfl, rfl, rfl⟩ := hinner.eq_of_enter hkids hends
  exact ⟨rfl, m, hat, hwrap, rfl⟩

/-- Where items stand in lists alone, each later listener of a chain finds the same at both ends of
a container, and the container is counted. So the writer takes a printer off at the end of a link
if it pushed one at its beginning, and then only. -/
theorem seen_at_both_ends (hitems : n.ItemsInLists)
    (hsplit : n.events = front ++ .enter c :: (inner ++ .leave d :: back))
    (hinner : WellNested inner) :
    d = c ∧
      (∀ (σ ε : Type) (C : Chain σ ε) (i : Nat) (start s t s' t' : σ),
        C.steps start front = .ok s → C.seen i s (.enter c) = .ok t →
        C.steps start (front ++ .enter c :: inner) = .ok s' → C.seen i s' (.leave d) = .ok t' →
        (C.nesting t).SameFor c (C.nesting t') ∧ (C.nesting s).Inside c (C.nesting t) ∧
          (C.nesting s).Inside c (C.nesting t')) ∧
      ∀ (style : Style) (s s' : Session) (r : Reference) (freeStanding : Bool)
        (q : Option Parameters), c = .link r freeStanding q →
        Session.run style front = .ok s →
        Session.run style (front ++ .enter c :: inner) = .ok s' →
        ∃ t u, Session.step style s (.enter c) = .ok t ∧ Session.step style s' (.leave d) = .ok u ∧
          (t.printers.depth = s.printers.depth + 1 ↔ s'.printers.depth = u.printers.depth + 1) ∧
          t.printers.depth =
            s.printers.depth + (if s.nesting.links = 0 ∧ freeStanding = false then 1 else 0) ∧
          u.printers.depth = s.printers.depth := by
  obtain ⟨rfl, m, hat, hwrap, rfl⟩ := exists_at_of_ends hsplit hinner
  have hm : m.ItemsInLists := hat.everywhere hitems
  refine ⟨rfl, fun σ ε C i start s t s' t' hs ht hs' ht' => ?_,
    fun style s s' r freeStanding q hlink hs hs' => ?_⟩
  · have hrun := C.nesting_steps (C.steps_of_append hs hs')
    obtain ⟨n', hn', hreturns⟩ := exists_returns_eventsAll ((C.nesting s).enter d) fun k hk =>
      ⟨fun hp => (room_of_wrap hwrap).symm.trans (hm.here k hk hp), exists_returns k (hm.child hk)⟩
    have hsame : n' = C.nesting s' := Except.ok.inj (hn'.symm.trans hrun)
    rw [C.nesting_seen ht, C.nesting_seen ht']
    have hends := hreturns.sameFor
    rw [hsame] at hends
    have hin := Nesting.inside_enter d (C.nesting s)
    exact ⟨hends, hin, hin.sameFor hends⟩
  · have hlinks : 0 ≤ s.nesting.links := by
      have hcount : s.nesting.links = 0 + netChange .links front :=
        Session.count_steps .links front hs
      have hnonneg := (n.balanced .links).nonneg front _ hsplit
      omega
    rw [Session.run_eq_steps, Session.steps_append hs] at hs'
    obtain ⟨t, ht, hkids⟩ := Session.exists_of_steps_cons hs'
    cases ht
    have hin := Session.stays_of_eventsAll (fun k _ => Session.stays_of_steps k)
      (Session.links_entered hlinks d) hkids
    obtain ⟨u, hu, hout⟩ := Session.exists_leave_of_stays (hlink ▸ nofun) hlinks hin
    refine ⟨_, u, Session.step_enter style s d, hu, ?_, ?_, hout.printers.depth⟩
    · rw [hin.printers.depth, hout.printers.depth]
    · subst hlink
      exact Session.depth_entered_link hlinks

end Node

/-- An item that starts with a link. -/
def linkedItem : Node :=
  .document [.list .bulleted [
    .listItem [.link ⟨"a", "url", false, .empty⟩ [.newLine] false .empty] .empty] .empty] .empty

theorem itemsInLists_linkedItem : linkedItem.ItemsInLists := by
  have hnodes : linkedItem.descendants = Node.descendantsAll linkedItem.children := rfl
  rw [Node.ItemsInLists, Node.Everywhere, hnodes]
  simp [linkedItem, Node.children, Node.descendants, Node.descendantsAll, Node.place, Node.room,
    Node.wrap?, Container.place, Container.room]

/-- The printer that the link pushes is taken off again. -/
theorem Node.seen_at_both_ends_linkedItem :
    let c : Container := .link ⟨"a", "url", false, .empty⟩ false (some .empty)
    let C := Session.chain (.standard {})
    linkedItem.ItemsInLists ∧ ∃ front inner back,
      linkedItem.events = front ++ .enter c :: (inner ++ .leave c :: back) ∧ WellNested inner ∧
      ∃ s t s' t', C.steps (.start (.standard {})) front = .ok s ∧ C.seen 0 s (.enter c) = .ok t ∧
        C.steps (.start (.standard {})) (front ++ .enter c :: inner) = .ok s' ∧
        C.seen 0 s' (.leave c) = .ok t' ∧
        t.nesting.SameFor c t'.nesting ∧ s.nesting.Inside c t.nesting ∧
        s.nesting.Inside c t'.nesting ∧
        ∃ t u, Session.step (.standard {}) s (.enter c) = .ok t ∧
          Session.step (.standard {}) s' (.leave c) = .ok u ∧
          t.printers.depth = s.printers.depth + 1 ∧ s'.printers.depth = u.printers.depth + 1 := by
  intro c C
  have hsplit : linkedItem.events =
      [.enter (.document (some .empty)), .enter (.list .bulleted (some .empty)),
        .enter (.listItem (some .empty))] ++ .enter c :: ([.leaf .newLine] ++ .leave c ::
      [.leave (.listItem (some .empty)), .leave (.list .bulleted (some .empty)),
        .leave (.document (some .empty))]) := rfl
  have hinner : WellNested [.leaf .newLine] := wellNested_leaves [.newLine]
  obtain ⟨-, hseen, hlink⟩ := seen_at_both_ends itemsInLists_linkedItem hsplit hinner
  obtain ⟨hsame, hin, hin'⟩ := hseen _ _ C 0 (.start (.standard {})) _ _ _ _ rfl rfl rfl rfl
  obtain ⟨t, u, ht, hu, hiff, hdepth, -⟩ := hlink (.standard {}) _ _ _ _ _ rfl rfl rfl
  exact ⟨itemsInLists_linkedItem, _, _, _, hsplit, hinner, _, _, _, _, rfl, rfl, rfl, rfl, hsame,
    hin, hin', t, u, ht, hu, hdepth, hiff.1 hdepth⟩

end Markwright
