import Markwright.Proofs.Tree

/-!
# Streams that nest

A reader that keeps the open containers on a stack can take the events of every tree: what is left
is what was entered last, with the same arguments, and in the end nothing is open
(`Node.wellNested_events`). In a stream of this kind only one event leaves what was entered at some
place, the first with a well nested stream in between (`WellNested.eq_of_enter`).

With the nodes that are complete kept beside each open container the reader builds the tree again
(`Node.ofEvents?`). What a text was is not told, for it may be cut into several; all else is.
-/

namespace Markwright

/-- With the containers of the first list open, the innermost first, each event leaves what was
entered last, and those of the second list are open in the end. -/
inductive Opens : List Container → List Event → List Container → Prop
  | nil (stack : List Container) : Opens stack [] stack
  | enter {stack stack' : List Container} {rest : List Event} (c : Container)
    (h : Opens (c :: stack) rest stack') : Opens stack (.enter c :: rest) stack'
  | leave {stack stack' : List Container} {rest : List Event} (c : Container)
    (h : Opens stack rest stack') : Opens (c :: stack) (.leave c :: rest) stack'
  | leaf {stack stack' : List Container} {rest : List Event} (l : Leaf)
    (h : Opens stack rest stack') : Opens stack (.leaf l :: rest) stack'

/-- Each container that is entered is left by the matching event, and no other is left. -/
def WellNested (events : List Event) : Prop := Opens [] events []

section Opens

variable {s t u : List Container} {a b x y : List Event} {c d : Container}

theorem Opens.append (h : Opens s a t) (k : Opens t b u) : Opens s (a ++ b) u := by
  induction h with
  | nil => exact k
  | enter c _ ih => exact .enter c (ih k)
  | leave c _ ih => exact .leave c (ih k)
  | leaf l _ ih => exact .leaf l (ih k)

theorem Opens.split : ∀ {a : List Event} {s : List Container}, Opens s (a ++ b) u →
    ∃ t, Opens s a t ∧ Opens t b u
  | [], s, h => ⟨s, .nil s, h⟩
  | _ :: _, _, .enter c h => by
    obtain ⟨t, ha, hb⟩ := h.split
    exact ⟨t, .enter c ha, hb⟩
  | _ :: _, _, .leave c h => by
    obtain ⟨t, ha, hb⟩ := h.split
    exact ⟨t, .leave c ha, hb⟩
  | _ :: _, _, .leaf l h => by
    obtain ⟨t, ha, hb⟩ := h.split
    exact ⟨t, .leaf l ha, hb⟩

/-- What is open further out is not touched. -/
theorem Opens.under (h : Opens s a t) (outer : List Container) :
    Opens (s ++ outer) a (t ++ outer) := by
  induction h with
  | nil s => exact .nil _
  | enter c _ ih => exact .enter c ih
  | leave c _ ih => exact .leave c ih
  | leaf l _ ih => exact .leaf l ih

theorem Opens.unique (h : Opens s a t) (k : Opens s a u) : t = u := by
  induction h with
  | nil => cases k; rfl
  | enter c _ ih => cases k with | enter _ k => exact ih k
  | leave c _ ih => cases k with | leave _ k => exact ih k
  | leaf l _ ih => cases k with | leaf _ k => exact ih k

theorem WellNested.under (h : WellNested a) (stack : List Container) : Opens stack a stack := by
  simpa using Opens.under h stack

theorem WellNested.append (h : WellNested a) (k : WellNested b) : WellNested (a ++ b) :=
  Opens.append h k

theorem WellNested.around (h : WellNested a) (c : Container) : WellNested (Event.around c a) :=
  .enter c ((h.under [c]).append (.leave c (.nil [])))

theorem wellNested_leaves : ∀ leaves : List Leaf, WellNested (leaves.map .leaf)
  | [] => .nil []
  | l :: rest => .leaf l (wellNested_leaves rest)

/-- A container that is entered in a well nested stream is left in it. -/
theorem WellNested.not_enter (h : WellNested y) : ¬ WellNested (x ++ .enter d :: y) := by
  intro hx
  obtain ⟨stack, -, hd⟩ := hx.split
  cases hd with
  | enter _ hd => exact absurd (hd.unique (h.under _)) nofun

/-- What is entered before a well nested stream and left behind it is found from its end. -/
theorem WellNested.eq_of_enter (hx : WellNested x) (hy : WellNested y)
    (h : a ++ .enter c :: x = b ++ .enter d :: y) : a = b ∧ c = d ∧ x = y := by
  rcases List.append_eq_append_iff.1 h with ⟨mid, rfl, hmid⟩ | ⟨mid, rfl, hmid⟩
  · rcases mid with _ | ⟨e, mid⟩
    · simpa using hmid
    · obtain ⟨rfl, rfl⟩ := List.cons.inj hmid
      exact absurd hx hy.not_enter
  · rcases mid with _ | ⟨e, mid⟩
    · simpa [eq_comm] using hmid
    · obtain ⟨rfl, rfl⟩ := List.cons.inj hmid
      exact absurd hy hx.not_enter

end Opens

namespace Node

theorem wellNested_eventsAll : ∀ {kids : List Node}, (∀ k ∈ kids, WellNested k.events) →
    WellNested (eventsAll kids)
  | [], _ => .nil []
  | k :: rest, h => by
    rw [eventsAll]
    exact (h k (by simp)).append (wellNested_eventsAll fun l hl => h l (by simp [hl]))

theorem wellNested_events (n : Node) : WellNested n.events := by
  induction n using childrenInduction with
  | step n ih =>
  rcases hw : n.wrap? with _ | c
  · rw [events_of_leaves hw]
    exact wellNested_leaves n.leaves
  · rw [events_of_wrap hw]
    exact (wellNested_eventsAll ih).around c

end Node

/-! ## Building a tree from its events -/

theorem one_le_toNat {n : Int} (h : 1 ≤ n) : 1 ≤ n.toNat := by omega

theorem toNat_le_six {n : Int} (h : n ≤ 6) : n.toNat ≤ 6 := by omega

/-- The node that is told as a container around its children. -/
def Container.node? (kids : List Node) : Container → Option Node
  | .document (some p) => some (.document kids p)
  | .header level id (some p) =>
    if hpos : 1 ≤ level then
      if hle : level ≤ 6 then
        some (.heading ⟨level.toNat, one_le_toNat hpos, toNat_le_six hle⟩ kids id p)
      else none
    else none
  | .paragraph (some p) => some (.paragraph kids p)
  | .format f (some p) => some (.span f kids p)
  | .list kind (some p) => some (.list kind kids p)
  | .listItem (some p) => some (.listItem kids p)
  | .definitionList (some p) => some (.definitionList kids p)
  | .definitionTerm => some (.definitionTerm kids)
  | .definitionDescription => some (.definitionDescription kids)
  | .table (some p) => some (.table kids p)
  | .tableRow (some p) => some (.tableRow kids p)
  | .tableCell (some p) => some (.tableCell kids false p)
  | .tableHeadCell (some p) => some (.tableCell kids true p)
  | .quotation (some p) => some (.quotation kids p)
  | .quotationLine => some (.quotationLine kids)
  | .link r freeStanding (some p) => some (.link r kids freeStanding p)
  | _ => none

/-- The node that is told as one leaf. Words, spaces and symbols are no nodes. -/
def Leaf.node? : Leaf → Option Node
  | .image r freeStanding (some p) => some (.image r freeStanding p)
  | .call id (some p) content inLine => some (.call id p content inLine)
  | .verbatim content inLine (some p) => some (.verbatim content inLine p)
  | .rawText text dialect => some (.rawText text dialect)
  | .horizontalLine (some p) => some (.horizontalRule p)
  | .emptyLines count =>
    if hpos : 1 ≤ count then some (.emptyLines ⟨count.toNat, one_le_toNat hpos⟩) else none
  | .newLine => some .newLine
  | .anchor name => some (.anchor name)
  | _ => none

namespace Node

/-- Builds nodes from events. On the stack are the open containers, each with the nodes before it;
`nodes` are those since the innermost was entered. -/
def build (stack : List (Container × List Node)) (nodes : List Node) :
    List Event → Option (List Node)
  | [] => if stack.isEmpty then some nodes else none
  | .enter c :: rest => build ((c, nodes) :: stack) [] rest
  | .leave _ :: rest =>
    match stack with
    | [] => none
    | (c, before) :: stack => (c.node? nodes).bind fun n => build stack (before ++ [n]) rest
  | .leaf l :: rest => l.node?.bind fun n => build stack (nodes ++ [n]) rest

/-- The tree that the events tell. -/
def ofEvents? (events : List Event) : Option Node :=
  match build [] [] events with
  | some [n] => some n
  | _ => none

/-- The node is text. -/
def IsText : Node → Prop
  | .text _ => True
  | _ => False

/-- Nothing in the tree is a text. -/
abbrev TextFree (n : Node) : Prop := n.Everywhere fun m => ¬ m.IsText

section Build

variable {n : Node} {c : Container}

theorem node?_of_wrap (h : n.wrap? = some c) : c.node? n.children = some n := by
  cases n <;> cases h
  case heading level _ _ _ =>
    have hlevel : (1 : Int) ≤ level.val ∧ (level.val : Int) ≤ 6 := by
      have hpos := level.pos
      have hle := level.le_six
      omega
    simp [Container.node?, children, hlevel]
  case tableCell header _ => cases header <;> rfl
  all_goals rfl

theorem exists_leaf_of_wrap_none : ∀ {n : Node}, n.wrap? = none → ¬ n.IsText →
    ∃ l, n.leaves = [l] ∧ l.node? = some n
  | .text _, _, ht => absurd trivial ht
  | .emptyLines count, _, _ => by
    have hcount : (1 : Int) ≤ count.val := by
      have hpos := count.pos
      omega
    exact ⟨_, rfl, by simp [Leaf.node?, hcount]⟩
  | .horizontalRule _, _, _ | .call .., _, _ | .verbatim .., _, _ | .rawText .., _, _
  | .image .., _, _ | .newLine, _, _ | .anchor _, _, _ => ⟨_, rfl, rfl⟩

theorem build_eventsAll : ∀ {kids : List Node}, (∀ k ∈ kids, ∀ stack nodes rest,
      build stack nodes (k.events ++ rest) = build stack (nodes ++ [k]) rest) →
    ∀ stack nodes rest,
      build stack nodes (eventsAll kids ++ rest) = build stack (nodes ++ kids) rest
  | [], _, stack, nodes, rest => by simp [eventsAll]
  | k :: kids, h, stack, nodes, rest => by
    rw [eventsAll, List.append_assoc, h k (by simp), build_eventsAll fun l hl => h l (by simp [hl])]
    simp

/-- The events of a tree add it to the nodes before it, whatever is open and whatever follows. -/
theorem build_events (n : Node) : n.TextFree → ∀ stack nodes rest,
    build stack nodes (n.events ++ rest) = build stack (nodes ++ [n]) rest := by
  induction n using childrenInduction with
  | step n ih =>
  intro hn stack nodes rest
  rcases hw : n.wrap? with _ | c
  · obtain ⟨l, hl, hnode⟩ := exists_leaf_of_wrap_none hw hn.here
    rw [events_of_leaves hw, hl, List.map_singleton, List.singleton_append, build, hnode]
    rfl
  · have hkids := build_eventsAll fun k hk => ih k hk (hn.child hk)
    rw [events_of_wrap hw, Event.around, List.append_assoc, List.cons_append, build, hkids,
      List.nil_append, List.singleton_append, build, node?_of_wrap hw]
    rfl

end Build

theorem ofEvents?_of_textFree {n : Node} (h : n.TextFree) : ofEvents? n.events = some n := by
  have hbuild := build_events n h [] [] []
  rw [List.append_nil] at hbuild
  rw [ofEvents?, hbuild]
  rfl

/-- The events of every tree are well nested, and a tree without texts is built again from them. So
no two of these trees have the same events. -/
theorem nested_and_rebuilt :
    (∀ n : Node, WellNested n.events) ∧
      (∀ n : Node, n.TextFree → ofEvents? n.events = some n) ∧
      ∀ m n : Node, m.TextFree → n.TextFree → m.events = n.events → m = n := by
  refine ⟨wellNested_events, fun n hn => ofEvents?_of_textFree hn, fun m n hm hn h => ?_⟩
  have hsame := ofEvents?_of_textFree hm
  rw [h, ofEvents?_of_textFree hn] at hsame
  exact (Option.some.inj hsame).symm

end Node

/-- A list in a list of the same kind, and a cell that stands where no cell belongs. -/
def listInList : Node :=
  .list .bulleted [
    .listItem [.list .bulleted [.listItem [] .empty] .empty, .newLine] .empty,
    .tableCell [.emptyLines ⟨3, by decide⟩] true .empty] .empty

theorem textFree_listInList : listInList.TextFree := by
  have hnodes : listInList.descendants = Node.descendantsAll listInList.children := rfl
  rw [Node.TextFree, Node.Everywhere, hnodes]
  simp [listInList, Node.children, Node.descendants, Node.descendantsAll, Node.IsText]

theorem Node.nested_and_rebuilt_listInList :
    WellNested listInList.events ∧ listInList.TextFree ∧
      ofEvents? listInList.events = some listInList ∧
      ∀ n : Node, n.TextFree → n ≠ listInList → n.events ≠ listInList.events := by
  obtain ⟨hnested, hrebuilt, hsame⟩ := nested_and_rebuilt
  refine ⟨hnested _, textFree_listInList, hrebuilt _ textFree_listInList, fun n hn hne h => ?_⟩
  exact hne (hsame n _ hn textFree_listInList h)

end Markwright
