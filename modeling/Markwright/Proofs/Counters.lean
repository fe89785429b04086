import Markwright.Proofs.Balance

/-!
# The counters of the nesting

The nesting counts the open links, tables, quotations and definition lists, and the containers that
hold lines of content. What an event changes of a counter depends on the event alone, so along a
stream a counter moves by the sum of these changes. A tree counts down only what it counted up
(`Node.balanced`): after any front of its events the sum is not negative, and after all of them it
is zero. So in a session that takes them no counter falls below where it began.
-/

namespace Markwright

/-- What is counted of the containers around a place. -/
inductive Counter where
  | links
  | tables
  | quotations
  | inLine
  | definitionLists
deriving DecidableEq

/-- How many containers of a kind are counted. -/
def Nesting.count (n : Nesting) : Counter → Int
  | .links => n.links
  | .tables => n.tables
  | .quotations => n.quotations
  | .inLine => n.inLine
  | .definitionLists => n.definitionLists

/-- The counter that counts a container. -/
def Container.counter? : Container → Option Counter
  | .header .. | .paragraph _ | .listItem _ | .definitionTerm | .definitionDescription
  | .tableCell _ | .tableHeadCell _ | .quotationLine => some .inLine
  | .definitionList _ => some .definitionLists
  | .table _ => some .tables
  | .quotation _ => some .quotations
  | .link .. => some .links
  | .document _ | .format .. | .list .. | .tableRow _ => none

/-- What a container counts for while it is open. -/
def Container.weight (k : Counter) (c : Container) : Int :=
  if c.counter? = some k then 1 else 0

/-- What an event adds to a count. -/
def Event.change (k : Counter) : Event → Int
  | .enter c => c.weight k
  | .leave c => -c.weight k
  | .leaf _ => 0

/-- By how much a stream of events moves a counter. -/
def netChange (k : Counter) : List Event → Int
  | [] => 0
  | e :: rest => e.change k + netChange k rest

/-- The counter is never below where it began, and ends where it began. -/
structure Balanced (k : Counter) (events : List Event) : Prop where
  nonneg : ∀ front back, events = front ++ back → 0 ≤ netChange k front
  net : netChange k events = 0

section Counting

variable {k : Counter}

theorem netChange_cons (k : Counter) (e : Event) (rest : List Event) :
    netChange k (e :: rest) = e.change k + netChange k rest := rfl

theorem netChange_append (k : Counter) (a b : List Event) :
    netChange k (a ++ b) = netChange k a + netChange k b := by
  induction a with
  | nil => rw [List.nil_append, netChange, Int.zero_add]
  | cons e rest ih => rw [List.cons_append, netChange_cons, netChange_cons, ih, Int.add_assoc]

theorem weight_nonneg (k : Counter) (c : Container) : 0 ≤ c.weight k := by
  unfold Container.weight
  split <;> omega

/-! ## Balanced streams -/

theorem balanced_nil (k : Counter) : Balanced k [] := by
  refine ⟨fun front back hf => ?_, rfl⟩
  obtain ⟨rfl, rfl⟩ := List.nil_eq_append_iff.1 hf
  exact Int.le_refl 0

theorem Balanced.append {a b : List Event} (ha : Balanced k a) (hb : Balanced k b) :
    Balanced k (a ++ b) := by
  refine ⟨fun front back hf => ?_, ?_⟩
  · rcases List.append_eq_append_iff.1 hf with ⟨rest, rfl, hb'⟩ | ⟨rest, ha', -⟩
    · rw [netChange_append, ha.net, Int.zero_add]
      exact hb.nonneg rest back hb'
    · exact ha.nonneg front rest ha'
  · rw [netChange_append, ha.net, hb.net]
    rfl

theorem balanced_leaf (l : Leaf) : Balanced k [.leaf l] := by
  refine ⟨fun front back hf => ?_, by simp [netChange, Event.change]⟩
  rcases List.singleton_eq_append_iff.1 hf with ⟨rfl, -⟩ | ⟨rfl, -⟩ <;>
    simp [netChange, Event.change]

theorem Balanced.around {inner : List Event} (h : Balanced k inner) (c : Container) :
    Balanced k (Event.around c inner) := by
  have hw := weight_nonneg k c
  have hleave : netChange k [.leave c] = -c.weight k := by simp [netChange, Event.change]
  unfold Event.around
  refine ⟨fun front back hf => ?_, ?_⟩
  · rcases List.cons_eq_append_iff.1 hf with ⟨rfl, -⟩ | ⟨front, rfl, hfront⟩
    · exact Int.le_refl 0
    · rw [netChange_cons, Event.change]
      rcases List.append_eq_append_iff.1 hfront with ⟨last, rfl, hl⟩ | ⟨rest, hi, -⟩
      · rw [netChange_append, h.net]
        rcases List.singleton_eq_append_iff.1 hl with ⟨rfl, -⟩ | ⟨rfl, -⟩
        · rw [show netChange k [] = 0 from rfl]
          omega
        · rw [hleave]
          omega
      · have := h.nonneg front rest hi
        omega
  · rw [List.cons_append, netChange_cons, netChange_append, h.net, hleave, Event.change]
    omega

theorem balanced_eventsAll : ∀ kids : List Node, (∀ n ∈ kids, Balanced k n.events) →
    Balanced k (Node.eventsAll kids)
  | [], _ => balanced_nil k
  | n :: rest, h => by
    rw [Node.eventsAll]
    exact (h n (by simp)).append (balanced_eventsAll rest fun m hm => h m (by simp [hm]))

theorem balanced_leaves : ∀ leaves : List Leaf, Balanced k (leaves.map .leaf)
  | [] => balanced_nil k
  | l :: rest => (balanced_leaf l).append (balanced_leaves rest)

/-- Every tree is balanced, wherever its nodes stand. -/
theorem Node.balanced (k : Counter) (n : Node) : Balanced k n.events := by
  induction n using Node.childrenInduction with
  | step n ih =>
  rcases hw : n.wrap? with _ | c
  · rw [events_of_leaves hw]
    exact balanced_leaves n.leaves
  · rw [events_of_wrap hw]
    exact (balanced_eventsAll n.children ih).around c

end Counting

/-! ## Counting in a session -/

theorem Nesting.count_step {m n : Nesting} {e : Event} (h : m.step e = .ok n) (k : Counter) :
    n.count k = m.count k + e.change k := by
  cases e with
  | enter c =>
    cases h
    cases c <;> cases k <;> simp [enter, count, Event.change, Container.weight, Container.counter?]
  | leave c =>
    cases c
    case list =>
      unfold step leave at h
      dsimp only at h
      split at h <;> cases h
      cases k <;> simp [count, Event.change, Container.weight, Container.counter?]
    all_goals
      cases h
      cases k <;>
        simp [leaveInLine, count, Event.change, Container.weight, Container.counter?] <;> omega
  | leaf l =>
    cases h
    cases k <;> simp [count, Event.change]

namespace Session

variable {style : Style} {s t u : Session}

theorem nesting_popPrefix (h : s.popPrefix = .ok t) : t.nesting = s.nesting := by
  unfold popPrefix at h
  split at h <;> cases h
  rfl

theorem nesting_popCapture {text : String} (h : s.popCapture = .ok (text, t)) :
    t.nesting = s.nesting := by
  unfold popCapture at h
  split at h <;> cases h
  rfl

theorem nesting_leaveCell {isHeader : Bool} {p : Option Parameters}
    (h : s.leaveCell isHeader p = .ok t) : t.nesting = s.nesting := by
  unfold leaveCell at h
  split at h
  · cases h
  · rename_i hv
    have hn := nesting_popCapture hv
    split at h <;> cases h
    exact hn

theorem nesting_markFormat (s : Session) (f : Format) (markup : String) (entered : Bool) :
    (s.markFormat f markup entered).nesting = s.nesting := by
  unfold markFormat
  split
  · rfl
  · dsimp only
    split <;> rfl

theorem nesting_writeLeave {c : Container} (h : writeLeave style s c = .ok t) :
    t.nesting = s.nesting := by
  cases c
  case listItem | quotation => exact nesting_popPrefix h
  case definitionDescription => exact nesting_popPrefix (s := s.flush) h
  case tableCell | tableHeadCell => exact nesting_leaveCell h
  case format f _ =>
    cases h
    exact nesting_markFormat s f _ _
  case link r freeStanding _ =>
    unfold writeLeave at h
    dsimp only at h
    split at h
    · cases h
      rfl
    · split at h
      · split at h <;> cases h
        rename_i hv
        have hn := nesting_popCapture hv
        exact hn
      · cases h
        rfl
  all_goals
    cases h
    rfl

theorem nesting_writeLeaf {l : Leaf} (h : writeLeaf style s l = .ok t) :
    t.nesting = s.nesting := by
  cases l
  case image r _ _ =>
    unfold writeLeaf at h
    dsimp only at h
    split at h <;> cases h
    rename_i hv
    unfold imageLabel at hv
    split at hv
    · cases hv
      rfl
    · split at hv <;> cases hv <;> rfl
  case verbatim content inLine _ => cases inLine <;> cases h <;> rfl
  case call id p content inLine => cases inLine <;> cases h <;> rfl
  case rawText =>
    cases h
    split <;> rfl
  case newLine =>
    cases h
    split <;> rfl
  all_goals
    cases h
    rfl

/-- A step of a session is a step of its nesting. -/
theorem nesting_step {e : Event} (h : step style s e = .ok t) :
    s.nesting.step e = .ok t.nesting := by
  cases e with
  | enter c =>
    rw [step_enter] at h
    cases h
    exact congrArg Except.ok (entered_spec style s c).1.symm
  | leave c =>
    obtain ⟨u, n, hw, hn, rfl⟩ := exists_of_step_leave h
    rw [nesting_writeLeave hw] at hn
    exact hn
  | leaf l =>
    obtain ⟨u, hw, rfl⟩ := exists_of_step_leaf h
    rw [← nesting_writeLeaf hw]
    rfl

theorem count_steps (k : Counter) : ∀ (events : List Event) {s : Session},
    steps style s events = .ok t → t.nesting.count k = s.nesting.count k + netChange k events
  | [], s, h => by
    cases h
    simp [netChange]
  | e :: rest, s, h => by
    obtain ⟨u, hu, hrest⟩ := exists_of_steps_cons h
    rw [count_steps k rest hrest, Nesting.count_step (nesting_step hu), netChange_cons]
    omega

end Session

end Markwright
