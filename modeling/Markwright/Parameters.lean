import Markwright.Value

/-!
# Parameters

The settings that a piece of a document carries: texts under names, each name once, in the order in
which they were given.
-/

namespace Markwright

theorem keys_upsert {α : Type} (key : String) (a : α) (l : List (String × α)) :
    (upsert key a l).map Prod.fst =
      if key ∈ l.map Prod.fst then l.map Prod.fst else l.map Prod.fst ++ [key] := by
  induction l with
  | nil => simp [upsert]
  | cons p rest ih =>
    obtain ⟨k, b⟩ := p
    by_cases h : k = key
    · simp [upsert, h]
    · have h' : ¬ key = k := fun e => h e.symm
      by_cases hm : key ∈ rest.map Prod.fst
      · simp only [upsert, beq_iff_eq, h, if_false, List.map_cons, ih, hm, if_true,
          List.mem_cons, or_true]
      · simp only [upsert, beq_iff_eq, h, if_false, List.map_cons, ih, hm, List.mem_cons, h',
          or_self, List.cons_append]

theorem nodup_upsert {α : Type} {key : String} {a : α} {l : List (String × α)}
    (h : (l.map Prod.fst).Nodup) : ((upsert key a l).map Prod.fst).Nodup := by
  rw [keys_upsert]
  split
  · exact h
  · rename_i hk
    rw [List.nodup_append]
    refine ⟨h, by simp, ?_⟩
    intro x hx y hy e
    simp only [List.mem_cons, List.not_mem_nil, or_false] at hy
    exact hk (hy ▸ e ▸ hx)

theorem nodup_mergePairs {α : Type} (pairs : List (String × α)) :
    ((mergePairs pairs).map Prod.fst).Nodup := by
  suffices h : ∀ acc : List (String × α), (acc.map Prod.fst).Nodup →
      ((pairs.foldl (fun acc p => upsert p.1 p.2 acc) acc).map Prod.fst).Nodup from
    h [] (by simp)
  induction pairs with
  | nil => exact fun _ h => h
  | cons p rest ih => exact fun acc h => ih _ (nodup_upsert h)

/-- Texts under names, each name once. -/
structure Parameters where
  entries : List (String × String)
  nodup : (entries.map Prod.fst).Nodup
deriving DecidableEq

namespace Parameters

/-- No parameters. -/
def empty : Parameters := ⟨[], by simp⟩

instance : Inhabited Parameters := ⟨empty⟩

/-- The parameters of a list of pairs. A name given again takes its new text in its old place. -/
def ofList (pairs : List (String × String)) : Parameters :=
  ⟨mergePairs pairs, nodup_mergePairs pairs⟩

/-- The value of a parameter. -/
def get? (p : Parameters) (name : String) : Option String :=
  p.entries.lookup name

end Parameters

/-- A value given for a name, parameters that are not there holding none. -/
def lookupIn (p : Option Parameters) (name : String) : Option String :=
  p.bind (·.get? name)

end Markwright
