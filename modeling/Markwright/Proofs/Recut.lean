import Mathlib.Logic.Relation
import Markwright.Proofs.FlatPage
import Markwright.Proofs.Surroundings

/-!
# How inline text is cut up

Where a text is cut into siblings, where anchors stand and what is held in a span without a format
leave no trace on the page. The events of a tree have a form that tells words letter by letter and
neither anchors nor such spans (`Event.pieces`), and cutting keeps it (`Node.Recut.pieces`). A
session that takes this form walks abreast of one that takes the events themselves
(`Session.exists_abreast`): the two differ in their notes and in what was completed last. Only the
lines of a quotation ask for that, to leave out the empty line before the first of them, and there
an empty line would be dropped anyway (`Session.emptyLine_of_suppressed`).
-/

namespace Markwright

open Node (eventsAll)

/-! ## Cuts -/

/-- A text is cut in two, but not between the halves of a line break, an anchor comes in, or a span
without a format gives way to its content. -/
inductive Node.Cut : List Node → List Node → Prop where
  | text (front back : List Node) {a b : String}
      (h : ¬ (a.toList.getLast? = some '\r' ∧ b.toList.head? = some '\n')) :
      Cut (front ++ .text (a ++ b) :: back) (front ++ .text a :: .text b :: back)
  | anchor (front back : List Node) (name : String) :
      Cut (front ++ back) (front ++ .anchor name :: back)
  | span (front back content : List Node) (p : Parameters) :
      Cut (front ++ .span .none content p :: back) (front ++ content ++ back)

/-- Two trees that differ in a cut among the children of one node, which has room for content. -/
inductive Node.Recut : Node → Node → Prop where
  | here {n m : Node} {c : Container} (hn : n.wrap? = some c) (hm : m.wrap? = some c)
      (hroom : c.room = .content) (h : Cut n.children m.children) : Recut n m
  | inside {n m k l : Node} {c : Container} {front back : List Node} (hn : n.wrap? = some c)
      (hm : m.wrap? = some c) (hk : n.children = front ++ k :: back)
      (hl : m.children = front ++ l :: back) (h : Recut k l) : Recut n m

namespace Node

variable {style : Style} {n m : Node} {c : Container} {a b : List Node} {P : Node → Prop}

theorem Recut.exists_wrap (h : Recut n m) : ∃ c, n.wrap? = some c ∧ m.wrap? = some c := by
  cases h with
  | here hn hm _ _ => exact ⟨_, hn, hm⟩
  | inside hn hm _ _ _ => exact ⟨_, hn, hm⟩

theorem Recut.place_eq (h : Recut n m) : n.place = m.place := by
  obtain ⟨c, hn, hm⟩ := h.exists_wrap
  rw [place_of_wrap hn, place_of_wrap hm]

/-- What a span without a format has from its content, and texts and anchors have at any rate, is
not touched by a cut. -/
theorem Cut.forall_iff (htext : ∀ s, P (.text s)) (hanchor : ∀ name, P (.anchor name))
    (hspan : ∀ content p, P (.span .none content p) ↔ ∀ k ∈ content, P k) (h : Cut a b) :
    (∀ k ∈ a, P k) ↔ ∀ k ∈ b, P k := by
  cases h with
  | text front back _ => simp only [List.forall_mem_append, List.forall_mem_cons, htext, true_and]
  | anchor front back name =>
    simp only [List.forall_mem_append, List.forall_mem_cons, hanchor, true_and]
  | span front back content p =>
    simp only [List.forall_mem_append, List.forall_mem_cons, hspan, and_assoc]

/-! ### What is asked of a tree -/

theorem spanValid_iff_of_wrap (h : n.wrap? = some c) :
    n.SpanValid ↔ ∀ q, c = .tableCell q ∨ c = .tableHeadCell q →
      ∃ span, Table.spanOf (lookupIn q "colspan") = .ok span := by
  refine ⟨fun hs q hq => Session.span_of_wrap hs ?_, fun hc => ?_⟩
  · rcases hq with rfl | rfl
    · exact Or.inl h
    · exact Or.inr h
  cases n <;> first | trivial | skip
  rename_i header q
  cases header <;> cases h
  · exact hc _ (Or.inl rfl)
  · exact hc _ (Or.inr rfl)

theorem regular_iff_of_wrap (h : n.wrap? = some c) : n.Regular style ↔
    (∀ q, c = .tableCell q ∨ c = .tableHeadCell q →
      ∃ span, Table.spanOf (lookupIn q "colspan") = .ok span) ∧
    (∀ k ∈ n.children, k.place = c.room ∧ k.Regular style) ∧
    (c.place = .tableRow → ∀ k ∈ n.children, k.TableFree) := by
  have hlabelled : n.Labelled style := by
    cases n <;> trivial
  rw [Regular.regular_iff, spanValid_iff_of_wrap h, cellsPlain_iff_of_wrap h, Fits, room_of_wrap h]
  simp only [forall_and]
  tauto

theorem regular_span_none (content : List Node) (p : Parameters) :
    (span .none content p).place = .content ∧ (span .none content p).Regular style ↔
      ∀ k ∈ content, k.place = .content ∧ k.Regular style := by
  rw [regular_iff_of_wrap rfl]
  simp [place, wrap?, Container.place, Container.room, children]

/-- A cut changes nothing of what is asked of a tree. -/
theorem Recut.regular_iff (h : Recut n m) : (n.TableFree ↔ m.TableFree) ∧
    (n.Regular style ↔ m.Regular style) := by
  induction h with
  | @here n m c hn hm hroom h =>
    have hfree : (∀ k ∈ n.children, k.TableFree) ↔ ∀ k ∈ m.children, k.TableFree :=
      h.forall_iff (fun s => tableFree_of_wrap_none rfl) (fun name => tableFree_of_wrap_none rfl)
        fun content p => (tableFree_iff_of_wrap rfl).trans (and_iff_right nofun)
    have hregular : (∀ k ∈ n.children, k.place = c.room ∧ k.Regular style) ↔
        ∀ k ∈ m.children, k.place = c.room ∧ k.Regular style := by
      rw [hroom]
      refine h.forall_iff (fun s => ⟨rfl, regular_text style s⟩) (fun name => ⟨rfl, ?_⟩)
        regular_span_none
      exact Regular.regular_iff.2 ⟨⟨nofun, trivial, trivial, nofun⟩, nofun⟩
    rw [tableFree_iff_of_wrap hn, tableFree_iff_of_wrap hm, regular_iff_of_wrap hn,
      regular_iff_of_wrap hm, hfree, hregular]
    exact ⟨Iff.rfl, Iff.rfl⟩
  | @inside n m k l c front back hn hm hk hl h ih =>
    obtain ⟨hfree, hregular⟩ := ih
    rw [tableFree_iff_of_wrap hn, tableFree_iff_of_wrap hm, regular_iff_of_wrap hn,
      regular_iff_of_wrap hm, hk, hl]
    simp only [List.forall_mem_append, List.forall_mem_cons, hfree, hregular, h.place_eq]
    exact ⟨trivial, trivial⟩

end Node

/-! ## Events -/

/-- An event as it is told when words are told letter by letter, and anchors and spans without a
format not at all. -/
def Event.pieces : Event → List Event
  | .leaf (.word s) => s.toList.map fun c => .leaf (.word (String.ofList [c]))
  | .leaf (.anchor _) | .enter (.format .none _) | .leave (.format .none _) => []
  | e => [e]

theorem flatMap_pieces_around {c : Container} (hc : ∀ p, c ≠ .format .none p)
    (inner : List Event) : (Event.around c inner).flatMap Event.pieces =
      Event.around c (inner.flatMap Event.pieces) := by
  have henter : (Event.enter c).pieces = [.enter c] := by
    unfold Event.pieces
    split <;> first | rfl | (rename_i h; cases h <;> exact absurd rfl (hc _))
  have hleave : (Event.leave c).pieces = [.leave c] := by
    unfold Event.pieces
    split <;> first | rfl | (rename_i h; cases h <;> exact absurd rfl (hc _))
  simp [Event.around, henter, hleave]

theorem flatMap_pieces_around_none (p : Option Parameters) (inner : List Event) :
    (Event.around (.format .none p) inner).flatMap Event.pieces = inner.flatMap Event.pieces := by
  simp [Event.around, Event.pieces]

theorem flatMap_pieces_consWord (c : Char) : ∀ ts : List Text.Token,
    (Text.Token.consWord c ts).flatMap (fun t => Event.pieces (.leaf (.ofToken t))) =
      .leaf (.word (String.ofList [c])) ::
        ts.flatMap fun t => Event.pieces (.leaf (.ofToken t))
  | [] | .lineBreak _ :: _ | .space :: _ | .symbol _ :: _ | .word _ :: _ => by
    simp [Text.Token.consWord, Leaf.ofToken, Event.pieces]

theorem ofChars_cons {c : Char} {cs : List Char} (h : ¬ (c = '\r' ∧ cs.head? = some '\n')) :
    Text.Token.ofChars (c :: cs) =
      if c = '\r' ∨ c = '\n' then .lineBreak [c] :: Text.Token.ofChars cs
      else if c = ' ' then .space :: Text.Token.ofChars cs
      else if Text.isSymbol c then .symbol c :: Text.Token.ofChars cs
      else Text.Token.consWord c (Text.Token.ofChars cs) := by
  rw [Text.Token.ofChars]
  rintro cs rfl rfl
  exact h ⟨rfl, rfl⟩

/-- A text that is not cut inside of a line break has the tokens of its two parts, but for words. -/
theorem flatMap_pieces_ofChars_append (a b : List Char)
    (h : ¬ (a.getLast? = some '\r' ∧ b.head? = some '\n')) :
    (Text.Token.ofChars (a ++ b)).flatMap (fun t => Event.pieces (.leaf (.ofToken t))) =
      (Text.Token.ofChars a).flatMap (fun t => Event.pieces (.leaf (.ofToken t))) ++
        (Text.Token.ofChars b).flatMap fun t => Event.pieces (.leaf (.ofToken t)) := by
  have htail : ∀ {c : Char} {cs : List Char}, ¬ ((c :: cs).getLast? = some '\r' ∧
      b.head? = some '\n') → ¬ (cs.getLast? = some '\r' ∧ b.head? = some '\n') := by
    rintro c cs h ⟨hlast, hhead⟩
    exact h ⟨by rw [List.getLast?_cons, hlast]; rfl, hhead⟩
  have hcons : ∀ {c : Char} {cs : List Char}, ¬ ((c :: cs).getLast? = some '\r' ∧
      b.head? = some '\n') → (∀ rest, c = '\r' → cs = '\n' :: rest → False) →
      ¬ (c = '\r' ∧ (cs ++ b).head? = some '\n') := by
    rintro c cs h hbreak ⟨rfl, hhead⟩
    rcases cs with _ | ⟨d, cs⟩
    · exact h ⟨rfl, hhead⟩
    · exact hbreak cs rfl (by rw [Option.some.inj hhead])
  fun_induction Text.Token.ofChars a with
  | case1 => rfl
  | case2 cs ih =>
    rw [List.cons_append, List.cons_append, Text.Token.ofChars, List.flatMap_cons,
      List.flatMap_cons, ih (htail (htail h)), List.append_assoc]
  | case3 c cs hbreak hc ih =>
    rw [List.cons_append, ofChars_cons (hcons h hbreak), if_pos hc, List.flatMap_cons,
      List.flatMap_cons, ih (htail h), List.append_assoc]
  | case4 cs hbreak hc ih =>
    rw [List.cons_append, ofChars_cons (hcons h hbreak), if_neg hc, if_pos rfl, List.flatMap_cons,
      List.flatMap_cons, ih (htail h), List.append_assoc]
  | case5 c cs hbreak hc hspace hsymbol ih =>
    rw [List.cons_append, ofChars_cons (hcons h hbreak), if_neg hc, if_neg hspace, if_pos hsymbol,
      List.flatMap_cons, List.flatMap_cons, ih (htail h), List.append_assoc]
  | case6 c cs hbreak hc hspace hsymbol ih =>
    rw [List.cons_append, ofChars_cons (hcons h hbreak), if_neg hc, if_neg hspace, if_neg hsymbol,
      flatMap_pieces_consWord, flatMap_pieces_consWord, ih (htail h), List.cons_append]

theorem flatMap_pieces_textEvents (s : String) : (textEvents s).flatMap Event.pieces =
    (Text.Token.ofChars s.toList).flatMap fun t => Event.pieces (.leaf (.ofToken t)) := by
  rw [textEvents, List.flatMap_map, Text.tokens]

namespace Node

variable {n m : Node} {a b : List Node}

theorem Cut.pieces (h : Cut a b) :
    (eventsAll a).flatMap Event.pieces = (eventsAll b).flatMap Event.pieces := by
  cases h with
  | text front back hbreak =>
    simp only [eventsAll_append, eventsAll, events, List.flatMap_append, flatMap_pieces_textEvents,
      String.toList_append, flatMap_pieces_ofChars_append _ _ hbreak, List.append_assoc]
  | anchor front back name =>
    simp [eventsAll_append, eventsAll, events, Event.pieces]
  | span front back content p =>
    simp only [eventsAll_append, eventsAll, events, List.flatMap_append,
      flatMap_pieces_around_none, List.append_assoc]

/-- A cut keeps the form of the events. -/
theorem Recut.pieces (h : Recut n m) :
    n.events.flatMap Event.pieces = m.events.flatMap Event.pieces := by
  have haround : ∀ {c : Container} {a b : List Event}, a.flatMap Event.pieces =
      b.flatMap Event.pieces → (Event.around c a).flatMap Event.pieces =
        (Event.around c b).flatMap Event.pieces := by
    intro c a b hab
    simp only [Event.around, List.flatMap_append, List.flatMap_cons, hab]
  induction h with
  | here hn hm _ h =>
    rw [events_of_wrap hn, events_of_wrap hm, haround h.pieces]
  | inside hn hm hk hl h ih =>
    rw [events_of_wrap hn, events_of_wrap hm, hk, hl]
    refine haround ?_
    simp only [eventsAll_append, eventsAll, List.flatMap_append, ih]

end Node

/-! ## Sessions abreast -/

theorem word_nil_not_mem_ofChars (cs : List Char) :
    Text.Token.word [] ∉ Text.Token.ofChars cs := by
  have hcons : ∀ (c : Char) {ts : List Text.Token}, .word [] ∉ ts →
      .word [] ∉ Text.Token.consWord c ts := by
    intro c ts hts
    cases ts with
    | nil => simp [Text.Token.consWord]
    | cons t ts =>
      cases t <;> simp_all [Text.Token.consWord]
  fun_induction Text.Token.ofChars cs with
  | case1 => exact List.not_mem_nil
  | case2 cs ih | case3 c cs _ _ ih | case4 cs _ _ ih | case5 c cs _ _ _ _ ih =>
    simpa using ih
  | case6 c cs _ _ _ _ ih => exact hcons c ih

/-- A word is not empty. -/
theorem Node.word_empty_not_mem_leaves (n : Node) : Leaf.word "" ∉ n.leaves := by
  cases n <;> simp only [leaves, List.not_mem_nil, not_false_eq_true, List.mem_singleton,
    reduceCtorEq]
  rename_i s
  rintro hmem
  obtain ⟨t, ht, heq⟩ := List.mem_map.1 hmem
  cases t <;> simp only [Leaf.ofToken, reduceCtorEq, Leaf.word.injEq] at heq
  rename_i cs
  obtain rfl : cs = [] := by simpa using congrArg String.toList heq
  exact word_nil_not_mem_ofChars _ ht

namespace Session

variable {style : Style} {s t u : Session} {c : Container} {p : Place} {previous : Completed}
  {notes : List Note}

/-- The session with something else completed last and other notes. -/
def aside (s : Session) (previous : Completed) (notes : List Note) : Session :=
  { s with nesting := { s.nesting with previous }, notes }

theorem separateItem_aside (s : Session) (previous : Completed) (notes : List Note) :
    (s.aside previous notes).separateItem = s.separateItem.aside previous notes := by
  have hindex : (s.aside previous notes).nesting.itemIndex = s.nesting.itemIndex := rfl
  unfold separateItem
  rw [hindex]
  split
  · have hparagraph : (s.aside previous notes).breakLine.afterParagraph =
        s.breakLine.afterParagraph := rfl
    dsimp only
    rw [hparagraph]
    split <;> rfl
  · rfl

theorem writeEnter_aside (hc : c ≠ .quotationLine) (s : Session) (previous : Completed)
    (notes : List Note) : writeEnter style (s.aside previous notes) c =
      (writeEnter style s c).aside previous notes := by
  have hlists : (s.aside previous notes).nesting.lists = s.nesting.lists := rfl
  have hlinks : (s.aside previous notes).flush.nesting.links = s.flush.nesting.links := rfl
  cases c
  case quotationLine => exact absurd rfl hc
  case header level _ _ =>
    unfold writeEnter
    dsimp only
    split <;> rfl
  case list =>
    unfold writeEnter
    dsimp only
    rw [hlists]
    split <;> rfl
  case format f _ =>
    unfold writeEnter markFormat
    dsimp only
    split
    · rfl
    · split <;> rfl
  case listItem =>
    unfold writeEnter
    dsimp only
    rw [separateItem_aside]
    rfl
  case link r freeStanding _ =>
    unfold writeEnter
    dsimp only
    rw [hlinks]
    split <;> rfl
  all_goals rfl

theorem entered_aside (hc : c ≠ .quotationLine) (s : Session) (previous : Completed)
    (notes : List Note) :
    (s.aside previous notes).entered style c = (s.entered style c).aside previous notes := by
  have henter : { s.aside previous notes with
        nesting := (s.aside previous notes).nesting.enter c } =
      { s with nesting := s.nesting.enter c }.aside previous notes := by
    cases c <;> rfl
  rw [entered, henter, writeEnter_aside hc]
  rfl

theorem popPrefix_aside (h : s.popPrefix = .ok t) (previous : Completed) (notes : List Note) :
    (s.aside previous notes).popPrefix = .ok (t.aside previous notes) := by
  unfold popPrefix at h ⊢
  rcases hp : s.printers.active.popPrefix? with _ | ⟨x, q⟩
  · simp [hp] at h
  · simp only [hp, Except.ok.injEq] at h
    simp only [aside, hp, ← h]

theorem popCapture_aside {text : String} (h : s.popCapture = .ok (text, t))
    (previous : Completed) (notes : List Note) :
    (s.aside previous notes).popCapture = .ok (text, t.aside previous notes) := by
  unfold popCapture at h ⊢
  have haround : (s.aside previous notes).nesting.around = s.nesting.around := rfl
  rcases hp : s.printers.pop? s.nesting.around with _ | ⟨q, printers⟩
  · simp [hp] at h
  · simp only [hp, Except.ok.injEq, Prod.mk.injEq] at h
    obtain ⟨rfl, rfl⟩ := h
    rw [haround]
    simp only [aside, hp]

theorem leaveCell_aside {isHeader : Bool} {q : Option Parameters}
    (h : s.leaveCell isHeader q = .ok t) (previous : Completed) (notes : List Note) :
    (s.aside previous notes).leaveCell isHeader q = .ok (t.aside previous notes) := by
  unfold leaveCell at h ⊢
  rcases hp : s.popCapture with failure | ⟨text, v⟩
  · simp [hp] at h
  · rw [popCapture_aside hp]
    have htable : (v.aside previous notes).table = v.table := rfl
    rcases ha : v.table.addCell text isHeader q with fault | table
    · simp [hp, ha] at h
    · simp only [hp, ha, Except.ok.injEq] at h
      simp only [htable, ha, ← h]
      rfl

theorem writeLeave_aside (h : writeLeave style s c = .ok t) (previous : Completed)
    (notes : List Note) :
    ∃ notes', writeLeave style (s.aside previous notes) c = .ok (t.aside previous notes') := by
  cases c
  case listItem | quotation => exact ⟨notes, popPrefix_aside h previous notes⟩
  case definitionDescription =>
    exact ⟨notes, popPrefix_aside (s := s.flush) h previous notes⟩
  case tableCell | tableHeadCell => exact ⟨notes, leaveCell_aside h previous notes⟩
  case format f _ =>
    cases h
    refine ⟨notes, congrArg Except.ok ?_⟩
    unfold markFormat
    split
    · rfl
    · dsimp only
      split <;> rfl
  case link r freeStanding q =>
    have hlinks : (s.aside previous notes).nesting.links = s.nesting.links := rfl
    unfold writeLeave at h ⊢
    dsimp only at h ⊢
    rw [hlinks]
    split at h
    · cases h
      rename_i hfree
      exact ⟨notes, by rw [if_pos hfree]; rfl⟩
    · rename_i hfree
      rw [if_neg hfree]
      split at h
      · rename_i hone
        rw [if_pos hone]
        rcases hp : s.popCapture with failure | ⟨label, v⟩
        · simp [hp] at h
        · simp only [hp, Except.ok.injEq] at h
          refine ⟨notes, ?_⟩
          simp only [popCapture_aside hp, ← h]
          rfl
      · cases h
        rename_i hone
        exact ⟨notes, by rw [if_neg hone]⟩
  case table =>
    cases h
    exact ⟨_, rfl⟩
  all_goals
    cases h
    exact ⟨notes, rfl⟩

theorem step_leave_aside (h : step style s (.leave c) = .ok t) (previous : Completed)
    (notes : List Note) : ∃ notes', step style (s.aside previous notes) (.leave c) =
      .ok (t.aside t.nesting.previous notes') := by
  obtain ⟨u, n, hwrite, hleave, rfl⟩ := exists_of_step_leave h
  obtain ⟨notes', haside⟩ := writeLeave_aside hwrite previous notes
  refine ⟨notes', step_leave haside ?_⟩
  cases c
  case list =>
    simp only [Nesting.leave, aside] at hleave ⊢
    split at hleave
    · cases hleave
    · rename_i hlists
      cases hleave
      simp
  all_goals
    cases hleave
    rfl

theorem step_leaf_aside {l : Leaf} (h : step style s (.leaf l) = .ok t) (previous : Completed)
    (notes : List Note) : ∃ notes', step style (s.aside previous notes) (.leaf l) =
      .ok (t.aside t.nesting.previous notes') := by
  obtain ⟨u, hwrite, rfl⟩ := exists_of_step_leaf h
  have haside : ∃ notes', writeLeaf style (s.aside previous notes) l =
      .ok (u.aside previous notes') := by
    cases l
    case image r f q =>
      unfold writeLeaf at hwrite ⊢
      dsimp only at hwrite ⊢
      unfold imageLabel at hwrite ⊢
      rcases halt : (lookupIn q "alt").filter (Text.strip · ≠ "") with _ | alt
      · rcases hlabel : style.labels.label r with ⟨scheme, text⟩ | label | ⟨scheme, text⟩
        all_goals simp only [halt, hlabel, Except.ok.injEq, reduceCtorEq] at hwrite ⊢
        · exact ⟨notes ++ [.rawLabel scheme], by rw [← hwrite]; rfl⟩
        · exact ⟨notes, by rw [← hwrite]; rfl⟩
      · simp only [halt, Except.ok.injEq] at hwrite ⊢
        exact ⟨notes, by rw [← hwrite]; rfl⟩
    case verbatim content inLine q =>
      cases inLine <;> cases hwrite <;> exact ⟨notes, rfl⟩
    case call id q content inLine =>
      cases inLine <;> cases hwrite <;> exact ⟨notes, rfl⟩
    case rawText | newLine =>
      cases hwrite
      refine ⟨notes, congrArg Except.ok ?_⟩
      have hinLine : (s.aside previous notes).nesting.isInLine = s.nesting.isInLine := rfl
      rw [hinLine]
      split <;> rfl
    all_goals
      cases hwrite
      exact ⟨_, rfl⟩
  obtain ⟨notes', haside⟩ := haside
  exact ⟨notes', step_leaf haside⟩

/-- Two sessions that differ in nothing that an event below the place looks at. -/
structure Abreast (p : Place) (s t : Session) : Prop where
  aside : ∃ previous notes, t = s.aside previous notes
  line : p = .quotation → t.nesting.previous = s.nesting.previous ∨
    (s.printers.active.suppressBreaks = true ∧ s.Settled)

theorem abreast_entered (h : s.Abreast c.place t) :
    (s.entered style c).Abreast c.room (t.entered style c) := by
  obtain ⟨⟨previous, notes, rfl⟩, hline⟩ := h
  by_cases hc : c = .quotationLine
  · subst hc
    refine ⟨⟨previous, notes, ?_⟩, nofun⟩
    have henter : ∀ s : Session, s.entered style .quotationLine =
        if s.nesting.previous = .quotation then
          { s with nesting := s.nesting.enter .quotationLine }
        else emptyLine { s with nesting := s.nesting.enter .quotationLine } := fun _ => rfl
    rw [henter, henter]
    rcases hline rfl with hsame | ⟨hsuppressed, hsettled⟩
    · rw [hsame]
      split <;> rfl
    · have hs := emptyLine_of_suppressed
        (s := { s with nesting := s.nesting.enter .quotationLine }) hsuppressed hsettled
      have ht := emptyLine_of_suppressed (s := { s.aside previous notes with
        nesting := (s.aside previous notes).nesting.enter .quotationLine }) hsuppressed hsettled
      rw [hs, ht, ite_self, ite_self]
      rfl
  · rw [entered_aside hc]
    refine ⟨⟨previous, notes, rfl⟩, fun hroom => Or.inr ?_⟩
    cases c <;> cases hroom
    refine ⟨?_, ?_⟩
    · simp [entered, writeEnter, suppressBreaks, modifyPrinter, PrinterStack.modify]
    · simp only [Settled, entered, writeEnter, suppressBreaks, modifyPrinter, PrinterStack.modify,
        PrinterStack.active_setActive]
      exact settled_print _ _

theorem exists_abreast_leave (h : s.Abreast c.room t) (hu : step style s (.leave c) = .ok u) :
    ∃ v, step style t (.leave c) = .ok v ∧ u.Abreast c.place v := by
  obtain ⟨⟨previous, notes, rfl⟩, -⟩ := h
  obtain ⟨notes', hv⟩ := step_leave_aside hu previous notes
  exact ⟨_, hv, ⟨_, _, rfl⟩, fun _ => Or.inl rfl⟩

theorem exists_abreast_leaf {l : Leaf} (hl : l ≠ .word "") (h : s.Abreast .content t)
    (hu : step style s (.leaf l) = .ok u) :
    ∃ v, steps style t (Event.pieces (.leaf l)) = .ok v ∧ u.Abreast .content v := by
  obtain ⟨⟨previous, notes, rfl⟩, -⟩ := h
  obtain ⟨notes', hv⟩ := step_leaf_aside hu previous notes
  cases l
  case word text =>
    have hne : (text.toList.map fun c => Text.Token.word [c]) ≠ [] := by
      simpa using fun h => hl (congrArg Leaf.word h)
    obtain ⟨last, hsteps⟩ := steps_tokens style (text.toList.map fun c => Text.Token.word [c])
      (s.aside previous notes) hne (by simp)
    have hchars : (text.toList.map fun c => Text.Token.word [c]).flatMap Text.Token.chars =
        text.toList := by
      rw [List.flatMap_map]
      exact List.flatMap_singleton' _
    rw [hchars, String.ofList_toList, List.map_map] at hsteps
    cases hu
    exact ⟨_, hsteps, ⟨last, notes, rfl⟩, nofun⟩
  case anchor name =>
    cases hu
    exact ⟨_, rfl, ⟨_, _, rfl⟩, nofun⟩
  all_goals exact ⟨_, steps_singleton hv, ⟨_, _, rfl⟩, nofun⟩

theorem exists_abreast_leaves : ∀ {leaves : List Leaf} {s t u : Session}, .word "" ∉ leaves →
    s.Abreast .content t → steps style s (leaves.map .leaf) = .ok u →
    ∃ v, steps style t ((leaves.map .leaf).flatMap Event.pieces) = .ok v ∧ u.Abreast .content v
  | [], _, t, _, _, h, hu => by
    cases hu
    exact ⟨t, rfl, h⟩
  | l :: rest, s, t, u, hword, h, hu => by
    rw [List.mem_cons, not_or] at hword
    obtain ⟨x, hx, hrest⟩ := exists_of_steps_cons hu
    obtain ⟨y, hy, hxy⟩ := exists_abreast_leaf (Ne.symm hword.1) h hx
    obtain ⟨v, hv, huv⟩ := exists_abreast_leaves hword.2 hxy hrest
    exact ⟨v, by rw [List.map_cons, List.flatMap_cons, steps_append hy, hv], huv⟩

theorem exists_abreast_eventsAll : ∀ {kids : List Node} {s t u : Session},
    (∀ k ∈ kids, k.place = p ∧ ∀ s t u, s.Abreast k.place t → steps style s k.events = .ok u →
      ∃ v, steps style t (k.events.flatMap Event.pieces) = .ok v ∧ u.Abreast k.place v) →
    s.Abreast p t → steps style s (eventsAll kids) = .ok u →
    ∃ v, steps style t ((eventsAll kids).flatMap Event.pieces) = .ok v ∧ u.Abreast p v
  | [], _, t, _, _, h, hu => by
    cases hu
    exact ⟨t, rfl, h⟩
  | k :: rest, s, t, u, hkids, h, hu => by
    obtain ⟨hp, hk⟩ := hkids k (by simp)
    rw [hp] at hk
    obtain ⟨x, hx, hrest⟩ := exists_of_steps_append hu
    obtain ⟨y, hy, hxy⟩ := hk s t x h hx
    obtain ⟨v, hv, huv⟩ :=
      exists_abreast_eventsAll (fun l hl => hkids l (List.mem_cons_of_mem _ hl)) hxy hrest
    exact ⟨v, by rw [eventsAll, List.flatMap_append, steps_append hy, hv], huv⟩

/-- A session that takes the form of a tree's events stays abreast of one that takes them all. -/
theorem exists_abreast (n : Node) : n.Everywhere Node.Fits → ∀ s t u : Session,
    s.Abreast n.place t → steps style s n.events = .ok u →
    ∃ v, steps style t (n.events.flatMap Event.pieces) = .ok v ∧ u.Abreast n.place v := by
  induction n using Node.childrenInduction with
  | step n ih =>
  intro hfits s t u h hu
  rcases hw : n.wrap? with _ | c
  · have hplace := Node.place_of_wrap_none hw
    rw [hplace] at h ⊢
    rw [Node.events_of_leaves hw] at hu ⊢
    exact exists_abreast_leaves n.word_empty_not_mem_leaves h hu
  rw [Node.place_of_wrap hw] at h ⊢
  rw [Node.events_of_wrap hw] at hu ⊢
  have hkids : ∀ k ∈ n.children, k.place = c.room ∧ ∀ s t u : Session, s.Abreast k.place t →
      steps style s k.events = .ok u →
      ∃ v, steps style t (k.events.flatMap Event.pieces) = .ok v ∧ u.Abreast k.place v :=
    fun k hk => ⟨(hfits.here k hk).trans (Node.room_of_wrap hw), ih k hk (hfits.child hk)⟩
  obtain ⟨x, hx, hleave⟩ := exists_of_steps_around hu
  by_cases hc : ∃ q, c = .format .none q
  · -- The session abreast is not told of the span, so it stays inside all along.
    obtain ⟨q, rfl⟩ := hc
    obtain ⟨v, hv, hxv⟩ := exists_abreast_eventsAll (s := s) hkids h hx
    obtain ⟨⟨previous, notes, rfl⟩, -⟩ := hxv
    rw [flatMap_pieces_around_none]
    cases hleave
    exact ⟨_, hv, ⟨previous, notes, rfl⟩, nofun⟩
  · rw [flatMap_pieces_around fun q hq => hc ⟨q, hq⟩]
    obtain ⟨y, hy, hxy⟩ := exists_abreast_eventsAll hkids (abreast_entered h) hx
    obtain ⟨v, hv, huv⟩ := exists_abreast_leave hxy hleave
    exact ⟨v, steps_around hy hv, huv⟩

end Session

/-! ## Documents -/

namespace Node

variable {style : Style} {n m : Node} {kids : List Node} {p : Parameters}

/-- What is written of a tree is told by the form of its events. -/
theorem exists_written_pieces (h : n.Regular style) (hp : n.place = .content) : ∃ u v : Session,
    n.session style = .ok u ∧
      Session.steps style (.start style) (n.events.flatMap Event.pieces) = .ok v ∧
      u.written = v.written := by
  have hready : Session.Ready n (.start style) :=
    ⟨Int.le_refl 0, fun hrow => (nomatch hp.symm.trans hrow), Or.inr rfl⟩
  obtain ⟨u, hu, -⟩ := Session.steps_events style n h hready
  have hstart : (Session.start style).Abreast n.place (.start style) :=
    ⟨⟨_, _, rfl⟩, fun _ => Or.inl rfl⟩
  obtain ⟨v, hv, ⟨_, _, rfl⟩, -⟩ := Session.exists_abreast n h.fits _ _ u hstart hu
  exact ⟨u, _, hu, hv, rfl⟩

theorem Recut.spec (style : Style) (h : Relation.EqvGen Recut n m) : n.place = m.place ∧
    (n.Regular style ↔ m.Regular style) ∧
    n.events.flatMap Event.pieces = m.events.flatMap Event.pieces := by
  induction h with
  | rel n m h => exact ⟨h.place_eq, h.regular_iff.2, h.pieces⟩
  | refl n => exact ⟨rfl, Iff.rfl, rfl⟩
  | symm n m _ ih => exact ⟨ih.1.symm, ih.2.1.symm, ih.2.2.symm⟩
  | trans n m l _ _ ih ih' =>
    exact ⟨ih.1.trans ih'.1, ih.2.1.trans ih'.2.1, ih.2.2.trans ih'.2.2⟩

/-- However the inline text of a document is cut up, its page is the same. -/
theorem render_recut (h : (document kids p).Regular style)
    (hm : Relation.EqvGen Recut (document kids p) m) :
    ∃ markdown, (document kids p).render style = .ok markdown ∧ m.render style = .ok markdown := by
  obtain ⟨hplace, hregular, hpieces⟩ := Recut.spec style hm
  obtain ⟨u, v, hu, hv, huv⟩ := exists_written_pieces h rfl
  obtain ⟨u', v', hu', hv', huv'⟩ := exists_written_pieces (hregular.1 h) hplace.symm
  rw [hpieces, hv', Except.ok.injEq] at hv
  refine ⟨_, render_of_session hu, ?_⟩
  rw [render_of_session hu', huv', huv, hv]

end Node

/-- A quoted line of which the text comes as a whole or in pieces. -/
def quotedLine (content : List Node) : Node :=
  .document [.quotation [.quotationLine content] .empty] .empty

theorem recut_quotedLine {a b : List Node} (h : Node.Cut a b) :
    Node.Recut (quotedLine a) (quotedLine b) :=
  have hline : Node.Recut (.quotationLine a) (.quotationLine b) := .here rfl rfl rfl h
  have hquotation : Node.Recut (.quotation [.quotationLine a] .empty)
      (.quotation [.quotationLine b] .empty) :=
    @Node.Recut.inside _ _ _ _ _ [] [] rfl rfl rfl rfl hline
  @Node.Recut.inside _ _ _ _ _ [] [] rfl rfl rfl rfl hquotation

theorem Node.render_recut_quotedLine :
    (quotedLine [.text "ab"]).Regular (.standard {}) ∧
      Relation.EqvGen Recut (quotedLine [.text "ab"])
        (quotedLine [.text "a", .anchor "x", .span .none [.text "b"] .empty]) ∧
      ∃ markdown, (quotedLine [.text "ab"]).render (.standard {}) = .ok markdown ∧
        (quotedLine [.text "a", .anchor "x", .span .none [.text "b"] .empty]).render
          (.standard {}) = .ok markdown := by
  have hregular : (quotedLine [.text "ab"]).Regular (.standard {}) := by
    constructor <;> simp [Everywhere, quotedLine, descendants, descendantsAll, Fits, SpanValid,
      Labelled, CellsPlain, IsCell, children, place, room, wrap?, Container.place, Container.room]
  have hcut : Cut [.text "ab"] [.text "a", .text "b"] :=
    .text [] [] (a := "a") (b := "b") (by decide)
  have hanchor : Cut [.text "a", .text "b"] [.text "a", .anchor "x", .text "b"] :=
    .anchor [.text "a"] [.text "b"] "x"
  have hspan : Cut [.text "a", .anchor "x", .span .none [.text "b"] .empty]
      [.text "a", .anchor "x", .text "b"] :=
    .span [.text "a", .anchor "x"] [] [.text "b"] .empty
  have hrecut : Relation.EqvGen Recut (quotedLine [.text "ab"])
      (quotedLine [.text "a", .anchor "x", .span .none [.text "b"] .empty]) :=
    ((Relation.EqvGen.rel _ _ (recut_quotedLine hcut)).trans _ _ _
      (.rel _ _ (recut_quotedLine hanchor))).trans _ _ _
        (.symm _ _ (.rel _ _ (recut_quotedLine hspan)))
  exact ⟨hregular, hrecut, render_recut hregular hrecut⟩

end Markwright
