import Markwright.Render

/-!
# Trees and the events that tell them

A node is told either by leaves or as a container around the events of its children
(`events_of_wrap`, `events_of_leaves`), so a statement about the events of all trees follows by
`Node.childrenInduction` from one step for each container and one for each leaf.

What is asked of a tree is asked of each of its nodes (`Node.Everywhere`): that its children are of
the kind it has room for, that a cell asks for a span that is one, that an image can be labelled,
and that there is no table below a cell.
-/

namespace Markwright

/-- Where a node may stand: among content, or in a container that holds nothing but its own
pieces. -/
inductive Place where
  | content
  | list
  | definitionList
  | table
  | tableRow
  | quotation
deriving DecidableEq

/-- Where what is told as a container belongs. -/
def Container.place : Container → Place
  | .listItem _ => .list
  | .definitionTerm | .definitionDescription => .definitionList
  | .tableRow _ => .table
  | .tableCell _ | .tableHeadCell _ => .tableRow
  | .quotationLine => .quotation
  | _ => .content

/-- What a container has room for. -/
def Container.room : Container → Place
  | .list .. => .list
  | .definitionList _ => .definitionList
  | .table _ => .table
  | .tableRow _ => .tableRow
  | .quotation _ => .quotation
  | _ => .content

namespace Node

/-- The container that a node is told as. -/
def wrap? : Node → Option Container
  | .document _ p => some (.document p)
  | .heading level _ id p => some (.header level.val id p)
  | .paragraph _ p => some (.paragraph p)
  | .list kind _ p => some (.list kind p)
  | .listItem _ p => some (.listItem p)
  | .definitionList _ p => some (.definitionList p)
  | .definitionTerm _ => some .definitionTerm
  | .definitionDescription _ => some .definitionDescription
  | .table _ p => some (.table p)
  | .tableRow _ p => some (.tableRow p)
  | .tableCell _ header p => some (if header then .tableHeadCell p else .tableCell p)
  | .quotation _ p => some (.quotation p)
  | .quotationLine _ => some .quotationLine
  | .span format _ p => some (.format format p)
  | .link r _ freeStanding p => some (.link r freeStanding p)
  | _ => none

/-- The nodes right below a node. -/
def children : Node → List Node
  | .document kids _ | .heading _ kids _ _ | .paragraph kids _ | .list _ kids _ | .listItem kids _
  | .definitionList kids _ | .definitionTerm kids | .definitionDescription kids | .table kids _
  | .tableRow kids _ | .tableCell kids _ _ | .quotation kids _ | .quotationLine kids
  | .span _ kids _ | .link _ kids _ _ => kids
  | _ => []

/-- The leaves that tell a node which is no container. -/
def leaves : Node → List Leaf
  | .horizontalRule p => [.horizontalLine p]
  | .emptyLines count => [.emptyLines count.val]
  | .call id p content inLine => [.call id p content inLine]
  | .verbatim content inLine p => [.verbatim content inLine p]
  | .rawText content dialect => [.rawText content dialect]
  | .text content => (Text.tokens content).map .ofToken
  | .image r freeStanding p => [.image r freeStanding p]
  | .newLine => [.newLine]
  | .anchor name => [.anchor name]
  | _ => []

/-- Where a node belongs. -/
def place (n : Node) : Place := (n.wrap?.map Container.place).getD .content

/-- What a node has room for. -/
def room (n : Node) : Place := (n.wrap?.map Container.room).getD .content

mutual

/-- The nodes below a node, in document order. -/
def descendants : Node → List Node
  | .document kids _ | .heading _ kids _ _ | .paragraph kids _ | .list _ kids _ | .listItem kids _
  | .definitionList kids _ | .definitionTerm kids | .definitionDescription kids | .table kids _
  | .tableRow kids _ | .tableCell kids _ _ | .quotation kids _ | .quotationLine kids
  | .span _ kids _ | .link _ kids _ _ => descendantsAll kids
  | _ => []

/-- Some nodes and all that stand below them, in the order of the events. -/
def descendantsAll : List Node → List Node
  | [] => []
  | n :: rest => n :: (n.descendants ++ descendantsAll rest)

end

theorem place_of_wrap {n : Node} {c : Container} (h : n.wrap? = some c) : n.place = c.place := by
  simp [place, h]

theorem place_of_wrap_none {n : Node} (h : n.wrap? = none) : n.place = .content := by
  simp [place, h]

theorem exists_wrap_of_place {n : Node} {p : Place} (h : n.place = p) (hp : p ≠ .content) :
    ∃ c, n.wrap? = some c ∧ c.place = p := by
  rcases hw : n.wrap? with _ | c
  · exact absurd (h.symm.trans (place_of_wrap_none hw)) hp
  · exact ⟨c, rfl, (place_of_wrap hw).symm.trans h⟩

theorem room_of_wrap {n : Node} {c : Container} (h : n.wrap? = some c) : n.room = c.room := by
  simp [room, h]

theorem events_of_wrap {n : Node} {c : Container} (h : n.wrap? = some c) :
    n.events = Event.around c (eventsAll n.children) := by
  cases n <;> cases h <;> rfl

theorem events_of_leaves : ∀ {n : Node}, n.wrap? = none → n.events = n.leaves.map .leaf
  | .text content, _ => by simp [events, textEvents, leaves]
  | .horizontalRule _, _ | .emptyLines _, _ | .call .., _ | .verbatim .., _ | .rawText .., _
  | .image .., _ | .newLine, _ | .anchor _, _ => rfl

theorem descendants_eq (n : Node) : n.descendants = descendantsAll n.children := by
  cases n <;> rfl

theorem sizeOf_lt_of_mem_children {n k : Node} (h : k ∈ n.children) : sizeOf k < sizeOf n := by
  have key : ∀ kids : List Node, k ∈ kids → sizeOf k < sizeOf kids :=
    fun _ => List.sizeOf_lt_of_mem
  cases n <;> simp only [children, List.not_mem_nil] at h
  all_goals
    have := key _ h
    simp only [document.sizeOf_spec, heading.sizeOf_spec, paragraph.sizeOf_spec, list.sizeOf_spec,
      listItem.sizeOf_spec, definitionList.sizeOf_spec, definitionTerm.sizeOf_spec,
      definitionDescription.sizeOf_spec, table.sizeOf_spec, tableRow.sizeOf_spec,
      tableCell.sizeOf_spec, quotation.sizeOf_spec, quotationLine.sizeOf_spec, span.sizeOf_spec,
      link.sizeOf_spec]
    omega

/-- What holds of a node when it holds of its children holds of every tree. -/
theorem childrenInduction {P : Node → Prop} (step : ∀ n, (∀ k ∈ n.children, P k) → P n)
    (n : Node) : P n :=
  step n fun k hk =>
    have := sizeOf_lt_of_mem_children hk
    childrenInduction step k
termination_by sizeOf n

/-! ## What is asked of every node -/

/-- The node and all those below it satisfy `p`. -/
def Everywhere (p : Node → Prop) (n : Node) : Prop := ∀ m ∈ n :: n.descendants, p m

section Everywhere

variable {p q : Node → Prop} {n k : Node}

theorem mem_descendantsAll {kids : List Node} {m : Node} :
    m ∈ descendantsAll kids ↔ ∃ k ∈ kids, m ∈ k :: k.descendants := by
  induction kids with
  | nil => simp [descendantsAll]
  | cons k rest ih =>
    simp only [descendantsAll, List.mem_cons, List.mem_append, ih, exists_eq_or_imp, or_assoc]

theorem mem_eventsAll {kids : List Node} {e : Event} :
    e ∈ eventsAll kids ↔ ∃ k ∈ kids, e ∈ k.events := by
  induction kids with
  | nil => simp [eventsAll]
  | cons k rest ih => simp only [eventsAll, List.mem_append, List.mem_cons, ih, exists_eq_or_imp]

theorem Everywhere.here (h : n.Everywhere p) : p n := h n (by simp)

theorem Everywhere.child (h : n.Everywhere p) (hk : k ∈ n.children) : k.Everywhere p := by
  intro m hm
  refine h m (List.mem_cons_of_mem _ ?_)
  rw [descendants_eq, mem_descendantsAll]
  exact ⟨k, hk, hm⟩

theorem everywhere_iff : n.Everywhere p ↔ p n ∧ ∀ k ∈ n.children, k.Everywhere p := by
  refine ⟨fun h => ⟨h.here, fun k hk => h.child hk⟩, fun ⟨hn, hkids⟩ m hm => ?_⟩
  rcases List.mem_cons.1 hm with rfl | hm
  · exact hn
  · rw [descendants_eq, mem_descendantsAll] at hm
    obtain ⟨k, hk, hm⟩ := hm
    exact hkids k hk m hm

theorem Everywhere.imp (h : n.Everywhere p) (hpq : ∀ m, p m → q m) : n.Everywhere q :=
  fun m hm => hpq m (h m hm)

end Everywhere

/-- The children are pieces that the node has room for. -/
def Fits (n : Node) : Prop := ∀ k ∈ n.children, k.place = n.room

/-- A cell asks for a span that is one, or for none. -/
def SpanValid : Node → Prop
  | .tableCell _ _ p => ∃ span, Table.spanOf (p.get? "colspan") = .ok span
  | _ => True

/-- The generator for an image's reference does not fail. -/
def Labelled (style : Style) : Node → Prop
  | .image r _ _ => ∀ scheme target, style.labels.label r ≠ .failed scheme target
  | _ => True

/-- The node is a table. -/
def IsTable : Node → Prop
  | .table .. => True
  | _ => False

/-- The node is a cell, of a header or not. -/
def IsCell : Node → Prop
  | .tableCell .. => True
  | _ => False

theorem isTable_of_wrap : ∀ {n : Node} {q : Option Parameters}, n.wrap? = some (.table q) →
    n.IsTable
  | .table .., _, _ => trivial
  | .tableCell _ header _, _, h => by cases header <;> cases h

/-- Nothing below a cell is a table. -/
def CellsPlain (n : Node) : Prop := n.IsCell → ∀ m ∈ n.descendants, ¬ m.IsTable

/-- A tree whose pieces stand where they belong, with spans that are valid, images that can be
labelled, and no table below a cell. -/
structure Regular (style : Style) (n : Node) : Prop where
  fits : n.Everywhere Fits
  spans : n.Everywhere SpanValid
  labels : n.Everywhere (Labelled style)
  plain : n.Everywhere CellsPlain

/-- Nothing in the tree is a table. -/
abbrev TableFree (n : Node) : Prop := n.Everywhere fun m => ¬ m.IsTable

section Containers

variable {n : Node} {c : Container}

theorem children_of_wrap_none (h : n.wrap? = none) : n.children = [] := by
  cases n <;> first | rfl | cases h

theorem tableFree_of_wrap_none (h : n.wrap? = none) : n.TableFree := by
  refine everywhere_iff.2 ⟨fun ht => ?_, fun k hk => ?_⟩
  · cases n <;> first | exact ht | cases h
  · rw [children_of_wrap_none h] at hk
    cases hk

theorem tableFree_iff_of_wrap (h : n.wrap? = some c) :
    n.TableFree ↔ c.room ≠ .table ∧ ∀ k ∈ n.children, k.TableFree := by
  have htable : n.IsTable ↔ c.room = .table := by
    refine ⟨fun ht => ?_, fun hr => ?_⟩
    · cases n <;> cases h <;> first | rfl | exact ht.elim
    · cases c <;> cases hr
      exact isTable_of_wrap h
  rw [TableFree, everywhere_iff, htable]

theorem cellsPlain_iff_of_wrap (h : n.wrap? = some c) :
    n.CellsPlain ↔ (c.place = .tableRow → ∀ k ∈ n.children, k.TableFree) := by
  have hcell : n.IsCell ↔ c.place = .tableRow := by
    refine ⟨fun hc => ?_, fun hp => ?_⟩
    · rw [← place_of_wrap h]
      cases n <;> first | exact hc.elim | (rename_i header _; cases header <;> rfl)
    · rw [← place_of_wrap h] at hp
      cases n <;> trivial
  rw [CellsPlain, hcell]
  refine forall_congr' fun _ => ⟨fun hd k hk m hm => hd m ?_, fun hkids m hm => ?_⟩
  · rw [descendants_eq, mem_descendantsAll]
    exact ⟨k, hk, hm⟩
  · rw [descendants_eq, mem_descendantsAll] at hm
    obtain ⟨k, hk, hm⟩ := hm
    exact hkids k hk m hm

end Containers

namespace Regular

variable {style : Style} {n k : Node}

theorem child (h : n.Regular style) (hk : k ∈ n.children) : k.Regular style :=
  ⟨h.fits.child hk, h.spans.child hk, h.labels.child hk, h.plain.child hk⟩

theorem regular_iff : n.Regular style ↔
    (n.Fits ∧ n.SpanValid ∧ n.Labelled style ∧ n.CellsPlain) ∧
      ∀ k ∈ n.children, k.Regular style := by
  refine ⟨fun h => ⟨⟨h.fits.here, h.spans.here, h.labels.here, h.plain.here⟩, fun k => h.child⟩, ?_⟩
  rintro ⟨⟨hf, hs, hl, hp⟩, hkids⟩
  exact ⟨everywhere_iff.2 ⟨hf, fun k hk => (hkids k hk).fits⟩,
    everywhere_iff.2 ⟨hs, fun k hk => (hkids k hk).spans⟩,
    everywhere_iff.2 ⟨hl, fun k hk => (hkids k hk).labels⟩,
    everywhere_iff.2 ⟨hp, fun k hk => (hkids k hk).plain⟩⟩

theorem place_child (h : n.Regular style) (hk : k ∈ n.children) : k.place = n.room :=
  h.fits.here k hk

theorem isCell_of_place : ∀ {n : Node}, n.place = .tableRow → n.IsCell
  | .tableCell .., _ => trivial

theorem not_isTable_of_place {n : Node} (h : n.place = .table ∨ n.place = .tableRow) :
    ¬ n.IsTable := by
  intro ht
  cases n <;> first | exact ht | simp [place, wrap?, Container.place] at h

theorem room_of_place_table : ∀ {n : Node}, n.place = .table → n.room = .tableRow
  | .tableRow .., _ => rfl

theorem tableFree_of_place (h : n.Regular style) (hp : n.place = .table ∨ n.place = .tableRow) :
    n.TableFree := by
  have hcell : ∀ {m : Node}, m.Regular style → m.place = .tableRow → m.TableFree := by
    intro m hm hmp x hx
    rcases List.mem_cons.1 hx with rfl | hx
    · exact not_isTable_of_place (Or.inr hmp)
    · exact hm.plain.here (isCell_of_place hmp) x hx
  rcases hp with hp | hp
  · refine everywhere_iff.2 ⟨not_isTable_of_place (Or.inl hp), fun k hk => ?_⟩
    exact hcell (h.child hk) ((h.place_child hk).trans (room_of_place_table hp))
  · exact hcell h hp

end Regular

end Node

end Markwright
