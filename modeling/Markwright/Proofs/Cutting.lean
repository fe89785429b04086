import Mathlib.Data.List.TakeDrop
import Mathlib.Data.List.TakeWhile

/-!
# Cutting lists

Readers take from the front of a list what passes a test and leave the rest. What they leave begins
with something that does not pass, so a list is cut where it was put together (`span_append`). A
list that is told piece by piece is cut at any one of its elements (`exists_of_flatMap_eq`).
-/

namespace Markwright

section Span

variable {α : Type} {lead rest : List α} {c : α} {p : α → Bool}

theorem span_append (hlead : ∀ c ∈ lead, p c = true) (hrest : ∀ c ∈ rest.head?, p c = false) :
    (lead ++ rest).span p = (lead, rest) := by
  have hstop : rest.takeWhile p = [] ∧ rest.dropWhile p = rest := by
    rcases rest with _ | ⟨c, rest⟩
    · exact ⟨rfl, rfl⟩
    · have hc : ¬ p c = true := by simp [hrest c rfl]
      exact ⟨List.takeWhile_cons_of_neg hc, List.dropWhile_cons_of_neg hc⟩
  rw [List.span_eq_takeWhile_dropWhile, List.takeWhile_append_of_pos hlead,
    List.dropWhile_append_of_pos hlead, hstop.1, hstop.2, List.append_nil]

theorem span_of_forall (hlead : ∀ c ∈ lead, p c = true) (hc : p c = false) :
    (lead ++ c :: rest).span p = (lead, c :: rest) :=
  span_append hlead (by simpa using hc)

end Span

/-- What stands among pieces stands in one of them. -/
theorem exists_of_flatMap_eq {α β : Type} {f : α → List β} {b : β} {front back : List β} :
    ∀ {l : List α}, l.flatMap f = front ++ b :: back → ∃ xs x ys inner rest,
      l = xs ++ x :: ys ∧ f x = inner ++ b :: rest ∧ front = xs.flatMap f ++ inner
  | [], h => by simp at h
  | x :: l, h => by
    rw [List.flatMap_cons] at h
    rcases List.append_eq_append_iff.1 h with ⟨inner, rfl, hrest⟩ | ⟨rest, hx, hrest⟩
    · obtain ⟨xs, y, ys, inner, rest, rfl, hy, rfl⟩ := exists_of_flatMap_eq hrest
      exact ⟨x :: xs, y, ys, inner, rest, rfl, hy, by simp⟩
    · rcases rest with _ | ⟨c, rest⟩
      · have hlater : l.flatMap f = [] ++ b :: back := hrest.symm
        obtain ⟨xs, y, ys, inner, rest, rfl, hy, hfront⟩ := exists_of_flatMap_eq hlater
        refine ⟨x :: xs, y, ys, inner, rest, rfl, hy, ?_⟩
        rw [List.append_nil] at hx
        rw [List.flatMap_cons, List.append_assoc, ← hfront, hx, List.append_nil]
      · obtain ⟨rfl, -⟩ := List.cons.inj hrest
        exact ⟨[], x, l, front, rest, rfl, hx, rfl⟩

end Markwright
