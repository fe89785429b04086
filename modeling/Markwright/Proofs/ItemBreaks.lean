import Markwright.Proofs.Entries

/-!
# Empty lines between items

A session remembers whether a paragraph came since the last list or item began, and an item that is
not the first of its list leaves an empty line when one did. There is one memory for all lists. So
what counts is whether the last of the paragraphs, lists and items that begin in the item before is
a paragraph (`ParagraphLast`), and a list behind a paragraph takes its empty line away. No line
break at all is written where breaks are dropped, since an item or a quotation in the item before
has nothing in it (`Node.breaks_between_items`).
-/

namespace Markwright

open Node (eventsAll descendantsAll)

/-! ## What a session remembers -/

/-- A list or an item begins. -/
def Event.BeginsList : Event → Prop
  | .enter (.list ..) | .enter (.listItem _) => True
  | _ => False

/-- Whether a paragraph came since the last list or item began, told whether one had before. -/
def Event.paragraphCame (came : Bool) : Event → Bool
  | .enter (.paragraph _) => true
  | .enter (.list ..) | .enter (.listItem _) => false
  | _ => came

/-- A paragraph begins along the events, and no list or item after it. -/
def ParagraphLast (events : List Event) : Prop :=
  ∃ front p back, events = front ++ .enter (.paragraph p) :: back ∧ ∀ e ∈ back, ¬ e.BeginsList

section Memory

variable {came : Bool} {events : List Event} {e : Event}

theorem Event.paragraphCame_cases (e : Event) : (∃ p, e = .enter (.paragraph p)) ∨
    (e.BeginsList ∧ ∀ came, e.paragraphCame came = false) ∨
    ((∀ p, e ≠ .enter (.paragraph p)) ∧ ¬ e.BeginsList ∧ ∀ came, e.paragraphCame came = came) := by
  rcases e with c | c | l
  · cases c
    case paragraph p => exact Or.inl ⟨p, rfl⟩
    case list | listItem => exact Or.inr (Or.inl ⟨trivial, fun _ => rfl⟩)
    all_goals exact Or.inr (Or.inr ⟨nofun, id, fun _ => rfl⟩)
  all_goals exact Or.inr (Or.inr ⟨nofun, id, fun _ => rfl⟩)

theorem paragraphLast_concat (events : List Event) (e : Event) : ParagraphLast (events ++ [e]) ↔
    (∃ p, e = .enter (.paragraph p)) ∨ (¬ e.BeginsList ∧ ParagraphLast events) := by
  constructor
  · rintro ⟨front, p, back, hsplit, hback⟩
    rcases List.eq_nil_or_concat back with rfl | ⟨back, d, rfl⟩
    · exact Or.inl ⟨p, (List.append_inj' hsplit rfl).2 |> List.singleton_inj.1⟩
    · rw [List.concat_eq_append] at hsplit hback
      rw [← List.cons_append, ← List.append_assoc] at hsplit
      obtain ⟨hevents, he⟩ := List.append_inj' hsplit rfl
      obtain rfl := List.singleton_inj.1 he
      exact Or.inr ⟨hback e (by simp),
        front, p, back, hevents, fun d hd => hback d (List.mem_append_left _ hd)⟩
  · rintro (⟨p, rfl⟩ | ⟨he, front, p, back, rfl, hback⟩)
    · exact ⟨events, p, [], rfl, nofun⟩
    · refine ⟨front, p, back ++ [e], by simp, fun d hd => ?_⟩
      rcases List.mem_append.1 hd with hd | hd
      · exact hback d hd
      · obtain rfl := List.mem_singleton.1 hd
        exact he

/-- What is remembered in an item once it has begun. -/
theorem foldl_paragraphCame (events : List Event) :
    events.foldl Event.paragraphCame false = true ↔ ParagraphLast events := by
  induction events using List.reverseRecOn with
  | nil =>
    refine iff_of_false Bool.false_ne_true ?_
    rintro ⟨front, p, back, hsplit, -⟩
    simp at hsplit
  | append_singleton events e ih =>
    rw [List.foldl_append, List.foldl_cons, List.foldl_nil, paragraphLast_concat]
    rcases e.paragraphCame_cases with ⟨p, rfl⟩ | ⟨hlist, hcame⟩ | ⟨hparagraph, hlist, hcame⟩
    · exact iff_of_true rfl (Or.inl ⟨p, rfl⟩)
    · rw [hcame]
      refine iff_of_false Bool.false_ne_true ?_
      rintro (⟨p, rfl⟩ | ⟨hnot, -⟩)
      · exact hlist
      · exact hnot hlist
    · rw [hcame, ih]
      exact ⟨fun h => Or.inr ⟨hlist, h⟩,
        fun h => (h.resolve_left fun ⟨p, hp⟩ => hparagraph p hp).2⟩

end Memory

namespace Session

variable {style : Style} {s t : Session} {c : Container}

theorem afterParagraph_markFormat (s : Session) (f : Format) (markup : String) (entered : Bool) :
    (s.markFormat f markup entered).afterParagraph = s.afterParagraph := by
  unfold markFormat
  split
  · rfl
  · dsimp only
    split <;> rfl

theorem afterParagraph_entered (style : Style) (s : Session) (c : Container) :
    (s.entered style c).afterParagraph = (Event.enter c).paragraphCame s.afterParagraph := by
  cases c
  case format f _ => exact afterParagraph_markFormat _ f _ _
  case header =>
    simp only [entered, writeEnter]
    split <;> rfl
  case quotationLine =>
    simp only [entered, writeEnter]
    split <;> rfl
  case link =>
    simp only [entered, writeEnter]
    split <;> rfl
  all_goals rfl

theorem afterParagraph_popPrefix (h : s.popPrefix = .ok t) :
    t.afterParagraph = s.afterParagraph := by
  unfold popPrefix at h
  split at h <;> cases h
  rfl

theorem afterParagraph_popCapture {text : String} (h : s.popCapture = .ok (text, t)) :
    t.afterParagraph = s.afterParagraph := by
  unfold popCapture at h
  split at h <;> cases h
  rfl

theorem afterParagraph_leaveCell {isHeader : Bool} {q : Option Parameters}
    (h : s.leaveCell isHeader q = .ok t) : t.afterParagraph = s.afterParagraph := by
  unfold leaveCell at h
  split at h
  · cases h
  · rename_i hpop
    have hsame := afterParagraph_popCapture hpop
    split at h <;> cases h
    exact hsame

theorem afterParagraph_writeLeave (h : writeLeave style s c = .ok t) :
    t.afterParagraph = s.afterParagraph := by
  cases c
  case listItem | quotation => exact afterParagraph_popPrefix h
  case definitionDescription => exact afterParagraph_popPrefix (s := s.flush) h
  case tableCell | tableHeadCell => exact afterParagraph_leaveCell h
  case format f _ =>
    cases h
    exact afterParagraph_markFormat s f _ _
  case link =>
    unfold writeLeave at h
    dsimp only at h
    split at h
    · cases h
      rfl
    · split at h
      · split at h <;> cases h
        rename_i hpop
        have hsame := afterParagraph_popCapture hpop
        exact hsame
      · cases h
        rfl
  all_goals
    cases h
    rfl

theorem afterParagraph_writeLeaf {l : Leaf} (h : writeLeaf style s l = .ok t) :
    t.afterParagraph = s.afterParagraph := by
  cases l
  case image =>
    unfold writeLeaf at h
    dsimp only at h
    split at h <;> cases h
    rename_i hlabel
    unfold imageLabel at hlabel
    split at hlabel
    · cases hlabel
      rfl
    · split at hlabel <;> cases hlabel <;> rfl
  case verbatim content inLine _ => cases inLine <;> cases h <;> rfl
  case call id p content inLine => cases inLine <;> cases h <;> rfl
  case rawText | newLine =>
    cases h
    split <;> rfl
  all_goals
    cases h
    rfl

theorem afterParagraph_step {e : Event} (h : step style s e = .ok t) :
    t.afterParagraph = e.paragraphCame s.afterParagraph := by
  cases e with
  | enter c =>
    cases h
    exact afterParagraph_entered style s c
  | leave c =>
    obtain ⟨u, n, hwrite, -, rfl⟩ := exists_of_step_leave h
    have hsame := afterParagraph_writeLeave hwrite
    exact hsame
  | leaf l =>
    obtain ⟨u, hwrite, rfl⟩ := exists_of_step_leaf h
    have hsame := afterParagraph_writeLeaf hwrite
    exact hsame

theorem afterParagraph_steps : ∀ {events : List Event} {s : Session},
    steps style s events = .ok t →
      t.afterParagraph = events.foldl Event.paragraphCame s.afterParagraph
  | [], s, h => by
    cases h
    rfl
  | e :: rest, s, h => by
    obtain ⟨u, hu, hrest⟩ := exists_of_steps_cons h
    rw [afterParagraph_steps hrest, afterParagraph_step hu, List.foldl_cons]

/-- After an item it is remembered whether a paragraph came last in it. -/
theorem afterParagraph_item {n : Node} {q : Option Parameters}
    (hw : n.wrap? = some (.listItem q)) (h : steps style s n.events = .ok t) :
    t.afterParagraph = true ↔ ParagraphLast (eventsAll n.children) := by
  rw [← foldl_paragraphCame, afterParagraph_steps h, Node.events_of_wrap hw, Event.around,
    List.foldl_append, List.foldl_cons, List.foldl_cons, List.foldl_nil]
  rfl

end Session

/-! ## What begins in an item -/

namespace Node

/-- The node is a paragraph. -/
def IsParagraph : Node → Prop
  | .paragraph .. => True
  | _ => False

/-- The node is a list. -/
def IsList : Node → Prop
  | .list .. => True
  | _ => False

variable {n m k : Node} {c : Container} {kids : List Node}

theorem isParagraph_of_wrap : ∀ {n : Node} {p : Option Parameters},
    n.wrap? = some (.paragraph p) → n.IsParagraph
  | .paragraph .., _, _ => trivial
  | .tableCell _ header _, _, h => by cases header <;> cases h

theorem isList_of_room : ∀ {n : Node}, n.room = .list → n.IsList
  | .list .., _ => trivial
  | .tableCell _ header _, h => by cases header <;> cases h

theorem isList_of_wrap {kind : ListKind} {p : Option Parameters}
    (h : n.wrap? = some (.list kind p)) : n.IsList :=
  isList_of_room (room_of_wrap h)

theorem exists_of_enter_mem_eventsAll
    (hkids : ∀ k ∈ kids, .enter c ∈ k.events → ∃ m ∈ k :: k.descendants, m.wrap? = some c)
    (h : .enter c ∈ eventsAll kids) : ∃ m ∈ descendantsAll kids, m.wrap? = some c := by
  obtain ⟨k, hk, hin⟩ := mem_eventsAll.1 h
  obtain ⟨m, hm, hw⟩ := hkids k hk hin
  exact ⟨m, mem_descendantsAll.2 ⟨k, hk, hm⟩, hw⟩

/-- A container that is entered among the events of a node is the node itself or below. -/
theorem exists_of_enter_mem (n : Node) : .enter c ∈ n.events →
    ∃ m ∈ n :: n.descendants, m.wrap? = some c := by
  induction n using childrenInduction with
  | step n ih =>
  intro h
  rcases hw : n.wrap? with _ | d
  · rw [events_of_leaves hw] at h
    simp at h
  rw [events_of_wrap hw, Event.around, List.cons_append, List.mem_cons, List.mem_append] at h
  rcases h with h | h | h
  · cases h
    exact ⟨n, by simp, hw⟩
  · obtain ⟨m, hm, hmw⟩ := exists_of_enter_mem_eventsAll ih h
    exact ⟨m, List.mem_cons_of_mem n (descendants_eq n ▸ hm), hmw⟩
  · simp at h

theorem exists_parent (n : Node) : m ∈ n.descendants →
    ∃ p ∈ n :: n.descendants, m ∈ p.children := by
  induction n using childrenInduction with
  | step n ih =>
  intro hm
  rw [descendants_eq, mem_descendantsAll] at hm
  obtain ⟨k, hk, hm⟩ := hm
  rcases List.mem_cons.1 hm with rfl | hm
  · exact ⟨n, by simp, hk⟩
  · obtain ⟨p, hp, hmp⟩ := ih k hk hm
    refine ⟨p, List.mem_cons_of_mem n ?_, hmp⟩
    rw [descendants_eq, mem_descendantsAll]
    exact ⟨k, hk, hp⟩

/-- Among content without lists no list and no item begins. -/
theorem not_beginsList_of_mem (hkids : ∀ k ∈ kids, k.ItemsInLists ∧ k.place ≠ .list)
    (hlists : ∀ m ∈ descendantsAll kids, ¬ m.IsList) : ∀ e ∈ eventsAll kids, ¬ e.BeginsList := by
  rintro (c | c | l) he hbegins
  · obtain ⟨m, hm, hw⟩ := exists_of_enter_mem_eventsAll (fun k _ => exists_of_enter_mem k) he
    cases c
    case list kind p => exact hlists m hm (isList_of_wrap hw)
    case listItem q =>
      obtain ⟨k, hk, hmk⟩ := mem_descendantsAll.1 hm
      obtain ⟨hitems, hplace⟩ := hkids k hk
      rcases List.mem_cons.1 hmk with rfl | hmk
      · exact hplace (place_of_wrap hw)
      · obtain ⟨x, hx, hmx⟩ := exists_parent k hmk
        exact hlists x (mem_descendantsAll.2 ⟨k, hk, hx⟩)
          (isList_of_room (hitems x hx m hmx (place_of_wrap hw)))
    all_goals exact hbegins
  all_goals exact hbegins

theorem not_paragraphLast (h : ∀ m ∈ descendantsAll kids, ¬ m.IsParagraph) :
    ¬ ParagraphLast (eventsAll kids) := by
  rintro ⟨front, p, back, hsplit, -⟩
  have hmem : .enter (.paragraph p) ∈ eventsAll kids := by simp [hsplit]
  obtain ⟨m, hm, hw⟩ := exists_of_enter_mem_eventsAll (fun k _ => exists_of_enter_mem k) hmem
  exact h m hm (isParagraph_of_wrap hw)

/-- A paragraph in an item comes last if there is no list in it and behind it. -/
theorem paragraphLast_of_child {q : Option Parameters} {a b : List Node} (hn : n.ItemsInLists)
    (hw : n.wrap? = some (.listItem q)) (hkids : n.children = a ++ k :: b) (hk : k.IsParagraph)
    (hlists : ∀ m ∈ k.descendants ++ descendantsAll b, ¬ m.IsList) :
    ParagraphLast (eventsAll n.children) := by
  obtain ⟨p, hkw⟩ : ∃ p, k.wrap? = some (.paragraph p) := by
    cases k <;> first | exact ⟨_, rfl⟩ | exact hk.elim
  have hchild : ∀ x ∈ n.children, x.ItemsInLists ∧ x.place ≠ .list := fun x hx =>
    ⟨hn.child hx, fun hp => nomatch (room_of_wrap hw).symm.trans (hn.here x hx hp)⟩
  have hmem : k ∈ n.children := by simp [hkids]
  have hin : ∀ x ∈ k.children, x.ItemsInLists ∧ x.place ≠ .list := fun x hx =>
    ⟨(hn.child hmem).child hx,
      fun hp => nomatch (room_of_wrap hkw).symm.trans ((hn.child hmem).here x hx hp)⟩
  have hinside := not_beginsList_of_mem hin fun m hm =>
    hlists m (List.mem_append_left _ (descendants_eq k ▸ hm))
  have hbehind := not_beginsList_of_mem (fun x hx => hchild x (by simp [hkids, hx])) fun m hm =>
    hlists m (List.mem_append_right _ hm)
  refine ⟨eventsAll a, p, eventsAll k.children ++ .leave (.paragraph p) :: eventsAll b, ?_, ?_⟩
  · rw [hkids, eventsAll_append, eventsAll, events_of_wrap hkw]
    simp [Event.around]
  · intro e he
    rcases List.mem_append.1 he with he | he
    · exact hinside e he
    · rcases List.mem_cons.1 he with rfl | he
      · exact id
      · exact hbehind e he

variable {style : Style} {before : List Event} {front back held kids : List Node}
  {kind : ListKind} {p q q' : Parameters} {s t : Session}

/-- Before an item that is not the first of its list two line breaks are written if a paragraph came
last in the item before, and else one; but none if breaks are dropped, since nothing has been
written from the beginning of that item on, or of an item or a quotation in it. A paragraph comes
last if there is no list in it and behind it, and none does where there is no paragraph at all. -/
theorem breaks_between_items (hn : n.ItemsInLists)
    (hat : n.At before (.list kind (front ++ .listItem held q' :: .listItem kids q :: back) p))
    (hs : Session.run style (before ++ .enter (.list kind (some p)) :: eventsAll front) = .ok s)
    (ht : Session.steps style s (Node.listItem held q').events = .ok t) :
    let item := Container.listItem (some q)
    let page := t.page (.enter item)
    (∃ breaks, (t.entered style item).printers.active.written.toList =
        page.before (List.replicate breaks '\n') ++ (t.entryMarker style item).toList ∧
      (page.suppressBreaks = false → ParagraphLast (eventsAll held) → breaks = 2) ∧
      (page.suppressBreaks = false → ¬ ParagraphLast (eventsAll held) → breaks = 1) ∧
      (page.suppressBreaks = true →
        breaks = 0 ∧ Session.Opened style s (Node.listItem held q').events t)) ∧
    (∀ a k b, held = a ++ k :: b → k.IsParagraph →
      (∀ m ∈ k.descendants ++ descendantsAll b, ¬ m.IsList) → ParagraphLast (eventsAll held)) ∧
    ((∀ m ∈ descendantsAll held, ¬ m.IsParagraph) → ¬ ParagraphLast (eventsAll held)) := by
  intro item page
  have hprev : (Node.listItem held q').wrap? = some (.listItem (some q')) := rfl
  obtain ⟨s₀, hs₀, hlist⟩ := Session.exists_of_steps_append hs
  have hfront : Session.steps style (s₀.entered style (.list kind (some p))) (eventsAll front) =
      .ok s := (Session.steps_cons (Session.step_enter style s₀ _)).symm.trans hlist
  have hlinks := Session.links_kids (Session.links_of_at hat (Int.le_refl 0) hs₀) hfront
  have hchild : ∀ k ∈ front ++ [.listItem held q'], k.ItemsInLists := fun k hk =>
    (hat.everywhere hn).child (List.mem_append.2 (by simpa [or_assoc] using Or.inl hk))
  have hindex : 0 < (t.nesting.enter item).itemIndex := by
    have hrun : Session.steps style (s₀.entered style (.list kind (some p)))
        (eventsAll (front ++ [.listItem held q'])) = .ok t := by
      rw [eventsAll_append, Session.steps_append hfront, eventsAll, eventsAll, List.append_nil, ht]
    exact Session.itemIndex_pos hchild hprev hrun
  have hcame := Session.afterParagraph_item hprev ht
  refine ⟨⟨t.breaksBefore (some q), Session.written_entered_item style t (some q),
    fun hkept hlast => ?_, fun hkept hlast => ?_, fun hdropped => ⟨?_, ?_⟩⟩,
    fun a k b => paragraphLast_of_child (hchild _ (by simp)) hprev, not_paragraphLast⟩
  · rw [Session.breaksBefore, hkept, if_neg Bool.false_ne_true, if_pos hindex,
      if_pos (hcame.2 hlast)]
  · rw [Session.breaksBefore, hkept, if_neg Bool.false_ne_true, if_pos hindex,
      if_neg (mt hcame.1 hlast)]
  · rw [Session.breaksBefore, if_pos hdropped]
  · exact Session.opened_of_container hprev trivial hlinks ht
      (Printer.Hushed.flush _ _ hdropped).1

end Node

/-- A list of two items. The first one holds a paragraph, and behind it what is given. -/
def paragraphItems (rest : List Node) : Node :=
  .document [.list .bulleted [.listItem (.paragraph [.text "a"] .empty :: rest) .empty,
    .listItem [.text "c"] .empty] .empty] .empty

theorem itemsInLists_paragraphItems : (paragraphItems []).ItemsInLists := by
  have hnodes : (paragraphItems []).descendants =
      Node.descendantsAll (paragraphItems []).children := rfl
  rw [Node.ItemsInLists, Node.Everywhere, hnodes]
  simp [paragraphItems, Node.children, Node.descendants, Node.descendantsAll, Node.place,
    Node.room, Node.wrap?, Container.place, Container.room]

/-- Behind an item with nothing but a paragraph two line breaks come. -/
theorem Node.breaks_between_items_paragraph : (paragraphItems []).ItemsInLists ∧
    ∃ items, (paragraphItems []).At [.enter (.document (some .empty))] items ∧
    ∃ s t, Session.run (.standard {}) [.enter (.document (some .empty)),
        .enter (.list .bulleted (some .empty))] = .ok s ∧
      Session.steps (.standard {}) s
        (Node.listItem [.paragraph [.text "a"] .empty] .empty).events = .ok t ∧
      ParagraphLast (eventsAll [.paragraph [.text "a"] .empty]) ∧
      (t.page (.enter (.listItem (some .empty)))).suppressBreaks = false ∧
      (t.entered (.standard {}) (.listItem (some .empty))).printers.active.written.toList =
        (t.page (.enter (.listItem (some .empty)))).before ['\n', '\n'] ++
          (t.entryMarker (.standard {}) (.listItem (some .empty))).toList := by
  have hat : (paragraphItems []).At [.enter (.document (some .empty))]
      (.list .bulleted ([] ++ .listItem [.paragraph [.text "a"] .empty] .empty ::
        .listItem [.text "c"] .empty :: []) .empty) :=
    @Node.At.inside _ _ _ _ [] [] [] rfl rfl (.here _)
  obtain ⟨t, hrun, hkept⟩ := Session.exists_of_map_steps (.standard {}) (.start (.standard {}))
    ([.enter (.document (some .empty)), .enter (.list .bulleted (some .empty))] ++
      (Node.listItem [.paragraph [.text "a"] .empty] .empty).events)
    (fun t => (t.page (.enter (.listItem (some .empty)))).suppressBreaks) (x := false)
    (by decide +kernel)
  obtain ⟨s, hs, ht⟩ := Session.exists_of_steps_append hrun
  obtain ⟨⟨breaks, hwritten, htwo, -⟩, hlast, -⟩ :=
    breaks_between_items itemsInLists_paragraphItems hat hs ht
  have hparagraph := hlast [] _ [] rfl trivial (by simp [descendants, descendantsAll, IsList])
  obtain rfl := htwo hkept hparagraph
  exact ⟨itemsInLists_paragraphItems, _, hat, s, t, hs, ht, hparagraph, hkept, hwritten⟩

/-- A list behind the paragraph takes the empty line away. -/
theorem nestedList_leaves_no_emptyLine :
    ((paragraphItems [.list .bulleted [.listItem [.text "b"] .empty] .empty]).render
      (.standard {})).toOption = some "*   a\n    *   b\n*   c" := by
  decide +kernel

end Markwright
