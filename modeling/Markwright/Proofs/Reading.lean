import Mathlib.Data.List.Forall2
import Markwright.Escape.Text

/-!
# Reading escaped text

An escaped text is read from left to right: an escape character protects the character after it
and stands for nothing itself. `reading` gives the characters that a text stands for, each with
whether it was protected, and `opensAfter` tells whether the text ends in an escape character that
protects nothing yet. Both take the state in which the text begins, since a rule may stop looking
in the middle of a protected pair.

A rule that puts an escape character before characters that are not protected changes no character
of the reading, and protects those it was put before (`Refines`).
-/

namespace Markwright.Escape

/-- Whether the character after `c` is protected, told whether `c` is. -/
def opens (protected' : Bool) (c : Char) : Bool := !protected' && c == escapeChar

/-- Whether the character behind a text is protected, told whether the first one of the text is. -/
def opensAfter : Bool → List Char → Bool
  | p, [] => p
  | p, c :: cs => opensAfter (opens p c) cs

/-- The characters that a text stands for, each with whether it is protected. -/
def reading : Bool → List Char → List (Char × Bool)
  | _, [] => []
  | p, c :: cs => if opens p c then reading true cs else (c, p) :: reading false cs

/-- The text that protects what is marked. -/
def spell (marked : List (Char × Bool)) : List Char :=
  marked.flatMap fun m => if m.2 then [escapeChar, m.1] else [m.1]

/-- No character is protected any less. -/
def ProtectsMore (a b : List (Char × Bool)) : Prop :=
  List.Forall₂ (fun m n => n.1 = m.1 ∧ (m.2 = true → n.2 = true)) a b

/-! ## Reading piece by piece -/

section Pieces

variable {p : Bool} {c : Char}

theorem opens_of_ne (h : c ≠ escapeChar) : opens p c = false := by simp [opens, h]

theorem reading_of_ne (h : c ≠ escapeChar) (cs : List Char) :
    reading p (c :: cs) = (c, p) :: reading false cs := by
  rw [reading, opens_of_ne h]
  rfl

theorem opensAfter_of_ne (h : c ≠ escapeChar) (cs : List Char) :
    opensAfter p (c :: cs) = opensAfter false cs := by
  rw [opensAfter, opens_of_ne h]

@[simp] theorem opens_true : opens true c = false := rfl

@[simp] theorem opens_escapeChar : opens false escapeChar = true := rfl

theorem opensAfter_append : ∀ (p : Bool) (a b : List Char),
    opensAfter p (a ++ b) = opensAfter (opensAfter p a) b
  | _, [], _ => rfl
  | p, c :: a, b => opensAfter_append (opens p c) a b

theorem opensAfter_concat (p : Bool) (a : List Char) (h : c ≠ escapeChar) :
    opensAfter p (a ++ [c]) = false := by
  rw [opensAfter_append]
  exact opens_of_ne h

theorem opensAfter_of_forall_ne : ∀ {a : List Char}, (∀ c ∈ a, c ≠ escapeChar) →
    opensAfter false a = false
  | [], _ => rfl
  | c :: a, h => by
    rw [opensAfter_of_ne (h c (by simp))]
    exact opensAfter_of_forall_ne fun d hd => h d (by simp [hd])

theorem reading_append : ∀ (p : Bool) (a b : List Char),
    reading p (a ++ b) = reading p a ++ reading (opensAfter p a) b
  | _, [], _ => rfl
  | p, c :: a, b => by
    rw [List.cons_append, reading, reading, opensAfter]
    cases h : opens p c <;> simp [reading_append]

/-- A text is dropped and kept as its reading says, unless it ends in an escape character. -/
theorem unescape?_eq : ∀ cs : List Char,
    unescape? cs =
      if opensAfter false cs then none else some ((reading false cs).map Prod.fst)
  | [] => rfl
  | [c] => by by_cases h : c = escapeChar <;> simp [unescape?, opensAfter, reading, opens, h]
  | c :: d :: cs => by
    by_cases h : c = escapeChar
    · have ih := unescape?_eq cs
      simp only [unescape?, h, if_true, ih, opensAfter, reading, opens_escapeChar, opens_true]
      split <;> simp
    · have ih := unescape?_eq (d :: cs)
      rw [unescape?, if_neg h, ih, opensAfter_of_ne h, reading_of_ne h]
      split <;> simp

/-- A text that ends at rest is what its reading spells: each protected character has one escape
character of its own. -/
theorem spell_reading : ∀ cs : List Char, opensAfter false cs = false →
    spell (reading false cs) = cs
  | [], _ => rfl
  | [c], h => by
    have hc : c ≠ escapeChar := by rintro rfl; simp [opensAfter] at h
    rw [reading_of_ne hc]
    rfl
  | c :: d :: cs, h => by
    by_cases hc : c = escapeChar
    · subst hc
      have ih := spell_reading cs (by simpa [opensAfter] using h)
      simpa [reading, spell] using ih
    · rw [opensAfter_of_ne hc] at h
      have ih := spell_reading (d :: cs) h
      rw [reading_of_ne hc]
      simpa [spell] using ih

end Pieces

/-! ## Escaping what is not protected -/

/-- In `b` some characters of `a` that are in `K` are protected besides those that were. -/
structure Refines (K : List Char) (p : Bool) (a b : List Char) : Prop where
  marks : List.Forall₂ (fun m n => n.1 = m.1 ∧ (n.2 = m.2 ∨ n.2 = true ∧ m.1 ∈ K))
    (reading p a) (reading p b)
  rest : opensAfter p b = opensAfter p a

/-- Only characters of `E` are protected. -/
def Within (E : List Char) (p : Bool) (cs : List Char) : Prop :=
  ∀ m ∈ reading p cs, m.2 = true → m.1 ∈ E

/-- The character at a place is in `K`, and no escape character stands before it. -/
def IsBare (K : List Char) : Bool → List Char → Nat → Prop
  | _, [], _ => False
  | p, c :: _, 0 => p = false ∧ c ≠ escapeChar ∧ c ∈ K
  | p, c :: cs, i + 1 => IsBare K (opens p c) cs i

section Refines

variable {K E : List Char} {p : Bool} {a b c d cs : List Char}

theorem Refines.refl (K : List Char) (p : Bool) (cs : List Char) : Refines K p cs cs :=
  ⟨List.forall₂_same.2 fun _ _ => ⟨rfl, Or.inl rfl⟩, rfl⟩

theorem Refines.append (h : Refines K p a b) (k : Refines K (opensAfter p a) c d) :
    Refines K p (a ++ c) (b ++ d) := by
  constructor
  · rw [reading_append, reading_append, h.rest]
    exact List.rel_append h.marks k.marks
  · rw [opensAfter_append, opensAfter_append, h.rest, k.rest]

theorem Refines.cons {x : Char} (k : Refines K (opens p x) a b) :
    Refines K p (x :: a) (x :: b) := by
  have h := Refines.refl K p [x]
  exact h.append (by simpa [opensAfter] using k)

theorem Refines.escape {x : Char} (hx : x ≠ escapeChar) (hK : x ∈ K) (k : Refines K false a b) :
    Refines K false (x :: a) (escapeChar :: x :: b) := by
  constructor
  · rw [reading_of_ne hx, reading, opens_escapeChar, if_pos rfl, reading_of_ne hx]
    exact List.Forall₂.cons ⟨rfl, Or.inr ⟨rfl, hK⟩⟩ k.marks
  · rw [opensAfter, opensAfter_of_ne hx, opensAfter_of_ne hx]
    exact k.rest

theorem Refines.protectsMore (h : Refines K p a b) :
    ProtectsMore (reading p a) (reading p b) := by
  refine h.marks.imp ?_
  rintro m n ⟨h1, h2 | ⟨h2, -⟩⟩
  · exact ⟨h1, fun h => h2.trans h⟩
  · exact ⟨h1, fun _ => h2⟩

theorem Refines.within (h : Refines K p a b) (hE : Within E p a) : Within (E ++ K) p b := by
  intro n hn ht
  obtain ⟨m, hm, h1, h2⟩ : ∃ m ∈ reading p a,
      n.1 = m.1 ∧ (n.2 = m.2 ∨ n.2 = true ∧ m.1 ∈ K) := by
    obtain ⟨i, hi, rfl⟩ := List.getElem_of_mem hn
    have hi' : i < (reading p a).length := by rw [h.marks.length_eq]; exact hi
    exact ⟨_, List.getElem_mem hi', h.marks.get hi' hi⟩
  rw [h1, List.mem_append]
  rcases h2 with h2 | ⟨-, h2⟩
  · exact Or.inl (hE m hm (h2 ▸ ht))
  · exact Or.inr h2

theorem Refines.mono (h : Refines K p a b) (hK : ∀ x ∈ K, x ∈ E) : Refines E p a b :=
  ⟨h.marks.imp fun _ _ ⟨h1, h2⟩ => ⟨h1, h2.imp_right fun h => ⟨h.1, hK _ h.2⟩⟩, h.rest⟩

theorem Refines.trans (h : Refines K p a b) (k : Refines K p b c) : Refines K p a c := by
  refine ⟨?_, k.rest.trans h.rest⟩
  have hcomp : List.Forall₂ (fun m n => n.1 = m.1 ∧ (n.2 = m.2 ∨ n.2 = true ∧ m.1 ∈ K))
      (reading p a) (reading p c) := by
    have hk := k.marks
    have hh := h.marks
    revert hh hk
    generalize reading p a = u
    generalize reading p b = v
    generalize reading p c = w
    intro hk hh
    induction hh generalizing w with
    | nil => exact hk
    | cons h1 _ ih =>
      obtain ⟨z, w, h2, hw, rfl⟩ := List.forall₂_cons_left_iff.1 hk
      refine List.Forall₂.cons ⟨h2.1.trans h1.1, ?_⟩ (ih _ hw)
      rcases h2.2 with e | ⟨e, hz⟩
      · rw [e]; exact h1.2
      · exact Or.inr ⟨e, h1.1 ▸ hz⟩
  exact hcomp

theorem Within.right (h : Within E p (a ++ b)) : Within E (opensAfter p a) b := by
  intro m hm
  exact h m (by rw [reading_append]; exact List.mem_append_right _ hm)

/-- A character that no escape character was put before so far stands bare. -/
theorem Within.isBare {x : Char} (h : Within E p (x :: a)) (hE : x ∉ E) (hx : x ≠ escapeChar)
    (hK : x ∈ K) : IsBare K p (x :: a) 0 := by
  refine ⟨?_, hx, hK⟩
  by_contra hp
  rw [Bool.not_eq_false] at hp
  exact hE (h (x, p) (by simp [reading, hp]) hp)

theorem isBare_append : ∀ {a : List Char} {p : Bool},
    (IsBare K p (a ++ b) a.length ↔ IsBare K (opensAfter p a) b 0)
  | [], _ => Iff.rfl
  | x :: a, p => isBare_append (a := a) (p := opens p x)

theorem IsBare.left : ∀ {a : List Char} {p : Bool} {i : Nat}, IsBare K p (a ++ b) i →
    i < a.length → IsBare K p a i
  | [], _, _, _, hi => absurd hi (Nat.not_lt_zero _)
  | _ :: _, _, 0, h, _ => h
  | x :: a, p, i + 1, h, hi =>
    IsBare.left (a := a) (p := opens p x) (i := i) h (Nat.lt_of_succ_lt_succ hi)

theorem refines_insertEscapes : ∀ {cs : List Char} {p : Bool} {ps : List Nat} {i : Nat},
    ps.Pairwise (· < ·) → (∀ j ∈ ps, i ≤ j ∧ IsBare K p cs (j - i)) →
    Refines K p cs (insertEscapes ps i cs)
  | cs, p, [], _, _, _ => by
    rw [insertEscapes.eq_def]
    exact Refines.refl K p cs
  | [], p, _ :: _, _, _, _ => Refines.refl K p []
  | c :: cs, p, j :: ps, i, hs, h => by
    rw [List.pairwise_cons] at hs
    obtain ⟨hij, hj⟩ := h j (by simp)
    have hrest : ∀ k ∈ ps, i + 1 ≤ k ∧ IsBare K (opens p c) cs (k - (i + 1)) := by
      intro k hk
      obtain ⟨-, hb⟩ := h k (by simp [hk])
      have hjk := hs.1 k hk
      obtain ⟨m, rfl⟩ : ∃ m, k = i + 1 + m := ⟨k - (i + 1), by omega⟩
      refine ⟨by omega, ?_⟩
      rw [show i + 1 + m - i = m + 1 by omega] at hb
      rw [show i + 1 + m - (i + 1) = m by omega]
      exact hb
    rw [insertEscapes]
    split
    · rename_i hji
      rw [hji, Nat.sub_self] at hj
      obtain ⟨rfl, hc, hK⟩ := hj
      rw [opens_of_ne hc] at hrest
      exact Refines.escape hc hK (refines_insertEscapes hs.2 hrest)
    · refine Refines.cons (refines_insertEscapes (List.pairwise_cons.2 hs) ?_)
      intro k hk
      rcases List.mem_cons.1 hk with rfl | hk
      · obtain ⟨m, rfl⟩ : ∃ m, k = i + 1 + m := ⟨k - (i + 1), by omega⟩
        refine ⟨by omega, ?_⟩
        rw [show i + 1 + m - i = m + 1 by omega] at hj
        rw [show i + 1 + m - (i + 1) = m by omega]
        exact hj
      · exact hrest k hk

end Refines

/-! ## Markers whose parts are bare -/

/-- The parts of every hit are bare characters of `K`, as long as only characters of `E` are
protected. -/
structure Marker.Safe (m : Marker) (E K : List Char) : Prop where
  parts : ∀ {whole p : Bool} {cs : List Char} {h : Hit}, (whole = true → p = false) →
    Within E p cs → m.hit? whole cs = some h → (h.parts.filterMap id).Pairwise (· < ·) ∧
      ∀ i ∈ h.parts.filterMap id, i < h.length ∧ IsBare K p cs i

/-- A hit at the front of a whole text has one part, a bare character of `K`. -/
structure Marker.SafeFront (m : Marker) (K : List Char) : Prop where
  part : ∀ {cs : List Char} {length : Nat} {parts : List (Option Nat)},
    m.hit? true cs = some ⟨length, parts⟩ → ∃ i, parts = [some i] ∧ IsBare K false cs i

section Safe

variable {m : Marker} {E K : List Char}

/-- Escaping all hits. A hit may end between an escape character and what it protects, so what is
left of the text is read in the state that the hit leaves. -/
theorem Marker.Safe.refines_escapeAll (hm : m.Safe E K) : ∀ (whole p : Bool) (cs : List Char),
    (whole = true → p = false) → Within E p cs → Refines K p cs (m.escapeAll whole cs)
  | _, p, [], _, _ => by
    rw [Marker.escapeAll]
    exact Refines.refl K p []
  | whole, p, c :: cs, hw, hE => by
    rw [Marker.escapeAll]
    split
    · rename_i h hh
      obtain ⟨hs, hb⟩ := hm.parts hw hE hh
      have hsplit : c :: cs = (c :: cs.take (h.length - 1)) ++ cs.drop (h.length - 1) := by simp
      have hlen : ∀ i ∈ h.parts.filterMap id, IsBare K p (c :: cs.take (h.length - 1)) i := by
        intro i hi
        obtain ⟨hil, hbare⟩ := hb i hi
        by_cases hshort : h.length - 1 ≤ cs.length
        · rw [hsplit] at hbare
          refine hbare.left ?_
          simp only [List.length_cons, List.length_take]
          omega
        · rwa [List.take_of_length_le (by omega)]
      have hfront : Refines K p (c :: cs.take (h.length - 1))
          (h.escape (c :: cs.take (h.length - 1))) :=
        refines_insertEscapes hs fun i hi => ⟨Nat.zero_le i, hlen i hi⟩
      rw [hsplit] at hE
      have hrest := refines_escapeAll hm false _ (cs.drop (h.length - 1)) (by simp) hE.right
      have := hfront.append hrest
      rwa [← hsplit] at this
    · have hE' : Within E (opens p c) cs := hE.right (a := [c])
      exact Refines.cons (refines_escapeAll hm false _ cs (by simp) hE')
termination_by _ _ cs => cs.length
decreasing_by all_goals simp only [List.length_cons, List.length_drop]; omega

theorem Marker.SafeFront.refines_escapeFront (hm : m.SafeFront K) (cs : List Char) :
    Refines K false cs (m.escapeFront cs) := by
  rw [Marker.escapeFront]
  rcases hh : m.hit? true cs with _ | ⟨length, parts⟩
  · exact Refines.refl K false cs
  · obtain ⟨i, rfl, hi⟩ := hm.part hh
    refine refines_insertEscapes (by simp) fun j hj => ?_
    obtain rfl := List.mem_singleton.1 hj
    exact ⟨Nat.zero_le j, hi⟩

end Safe

theorem escapeEach_cons (p : Char → Bool) (c : Char) (cs : List Char) : escapeEach p (c :: cs) =
    (if p c = true then [escapeChar, c] else [c]) ++ escapeEach p cs := List.flatMap_cons

theorem refines_escapeEach {E K : List Char} {f : Char → Bool} (hK : ∀ c, f c → c ∈ K)
    (hE : ∀ c, f c → c ∉ E) (hne : ∀ c, f c → c ≠ escapeChar) :
    ∀ (p : Bool) (cs : List Char), Within E p cs → Refines K p cs (escapeEach f cs)
  | p, [], _ => Refines.refl K p []
  | p, c :: cs, h => by
    have ih := refines_escapeEach hK hE hne (opens p c) cs (h.right (a := [c]))
    rw [escapeEach_cons]
    split
    · rename_i hc
      obtain ⟨rfl, -, -⟩ := h.isBare (hE c hc) (hne c hc) (hK c hc)
      rw [opens_of_ne (hne c hc)] at ih
      exact Refines.escape (hne c hc) (hK c hc) ih
    · exact Refines.cons ih

end Markwright.Escape
