import Mathlib.Algebra.BigOperators.Group.List.Basic
import Mathlib.Algebra.Order.BigOperators.Group.List
import Mathlib.Data.List.Forall2
import Mathlib.Logic.Relation
import Mathlib.Tactic.NormNum
import Markwright.Proofs.Tallies

/-!
# How far tables are narrowed

A step of the choice of widths drops the largest length of one column, never the last one. So each
column is left with its lengths below some bound (`Histogram.Cut`), and as each step drops a length
the steps come to an end: the columns that have lengths fit, or each is left with one length, its
smallest (`narrow_spec`). A column that is only covered by the cells of others has no length, and
its padding is not counted by the steps. By as much a table may be too wide that could still be
narrowed (`Layout.sum_columnWidths_le_or`).
-/

namespace Markwright.Table

/-- The greatest of a number and what the entries of a list count for. -/
theorem foldl_max {α : Type} (f : α → Nat) (l : List α) : ∀ m : Nat,
    m ≤ l.foldl (fun m a => max m (f a)) m ∧ (∀ a ∈ l, f a ≤ l.foldl (fun m a => max m (f a)) m) ∧
      (l.foldl (fun m a => max m (f a)) m = m ∨
        ∃ a ∈ l, l.foldl (fun m a => max m (f a)) m = f a) := by
  induction l with
  | nil => exact fun m => ⟨Nat.le_refl m, nofun, Or.inl rfl⟩
  | cons b rest ih =>
    intro m
    obtain ⟨hm, hrest, heq⟩ := ih (max m (f b))
    rw [List.foldl_cons]
    refine ⟨by omega, List.forall_mem_cons.2 ⟨by omega, hrest⟩, ?_⟩
    rcases heq with heq | ⟨a, ha, heq⟩
    · rcases Nat.le_total (f b) m with hle | hle
      · exact Or.inl (by omega)
      · exact Or.inr ⟨b, by simp, by omega⟩
    · exact Or.inr ⟨a, List.mem_cons_of_mem b ha, heq⟩

/-! ## One column -/

namespace Histogram

variable {ω : Type} {h g k : Histogram ω} {p q : Nat × ω}

theorem le_largest (hp : p ∈ h) : p.1 ≤ h.largest := (foldl_max Prod.fst h 0).2.1 p hp

theorem exists_largest (hne : h ≠ []) : ∃ p ∈ h, h.largest = p.1 := by
  rcases (foldl_max Prod.fst h 0).2.2 with hzero | hsome
  · obtain ⟨p, hp⟩ := List.exists_mem_of_ne_nil h hne
    have hle := le_largest hp
    exact ⟨p, hp, by rw [largest] at hle ⊢; omega⟩
  · exact hsome

/-- What is left of a histogram once lengths are dropped from its top. -/
def Cut (h g : Histogram ω) : Prop := g ≠ [] ∧ ∃ bound, g = h.filter (·.1 < bound)

theorem Cut.refl (hne : h ≠ []) : Cut h h := by
  refine ⟨hne, h.largest + 1, (List.filter_eq_self.2 fun p hp => ?_).symm⟩
  exact decide_eq_true (Nat.lt_succ_of_le (le_largest hp))

theorem Cut.trans (hg : Cut h g) (hk : Cut g k) : Cut h k := by
  obtain ⟨-, m, rfl⟩ := hg
  obtain ⟨hne, n, rfl⟩ := hk
  refine ⟨hne, min m n, ?_⟩
  rw [List.filter_filter]
  refine List.filter_congr fun p _ => ?_
  rw [← Bool.decide_and, decide_eq_decide]
  omega

/-- Where there are two lengths, one of them is not the largest. -/
theorem exists_lt_largest (hnodup : (h.map Prod.fst).Nodup) (htwo : 2 ≤ h.length) :
    ∃ p ∈ h, p.1 < h.largest := by
  match h, htwo with
  | p :: q :: rest, _ =>
    have hne : p.1 ≠ q.1 := fun e => (List.nodup_cons.1 hnodup).1 (by simp [e])
    have hp : p.1 ≤ largest (p :: q :: rest) := le_largest (by simp)
    have hq : q.1 ≤ largest (p :: q :: rest) := le_largest (by simp)
    rcases Nat.lt_or_gt_of_ne hne with hlt | hlt
    · exact ⟨p, by simp, by omega⟩
    · exact ⟨q, by simp, by omega⟩

theorem cut_drop (hnodup : (h.map Prod.fst).Nodup) (htwo : 2 ≤ h.length) :
    Cut h (drop h.largest h) := by
  have hdrop : drop h.largest h = h.filter (·.1 < h.largest) := by
    refine List.filter_congr fun p hp => ?_
    have hle := le_largest hp
    rw [Bool.eq_iff_iff, bne_iff_ne, decide_eq_true_iff]
    omega
  obtain ⟨p, hp, hlt⟩ := exists_lt_largest hnodup htwo
  refine ⟨List.ne_nil_of_mem (a := p) ?_, h.largest, hdrop⟩
  rw [hdrop]
  exact List.mem_filter.2 ⟨hp, decide_eq_true hlt⟩

theorem length_drop_lt (hne : h ≠ []) : (drop h.largest h).length < h.length := by
  obtain ⟨p, hp, heq⟩ := exists_largest hne
  refine List.length_filter_lt_length_iff_exists.2 ⟨p, hp, ?_⟩
  simp [heq]

theorem Weighed.cut {h g : Histogram ℚ} (hh : h.Weighed) (hg : Cut h g) : g.Weighed := by
  obtain ⟨hne, bound, rfl⟩ := hg
  have hsub : (h.filter (·.1 < bound)).Sublist h := List.filter_sublist
  exact ⟨hne, hh.nodup.sublist (hsub.map _), fun p hp => hh.pos p (hsub.subset hp)⟩

/-- A length that is left alone is the smallest. -/
theorem min_of_cut {lengths : List Nat} {h g : Histogram ℚ}
    (htallies : Tallies (some h) lengths) (hg : Cut h g) (hone : g.length < 2) :
    lengths.min? = some g.largest := by
  obtain ⟨hne, bound, hbound⟩ := hg
  obtain ⟨p, hp, heq⟩ := exists_largest hne
  have hp' : p ∈ h ∧ p.1 < bound := by simpa [hbound] using hp
  rw [List.min?_eq_some_iff, heq]
  refine ⟨(htallies.2 p.1).1 (List.mem_map_of_mem hp'.1), fun l hl => ?_⟩
  obtain ⟨q, hq, rfl⟩ := List.mem_map.1 ((htallies.2 l).2 hl)
  -- A length that was dropped is not below the bound, and what is left is.
  by_cases hlt : q.1 < bound
  · have hqg : q ∈ g := by
      rw [hbound]
      exact List.mem_filter.2 ⟨hq, decide_eq_true hlt⟩
    match g, hone, hp, hqg with
    | [r], _, hp, hqg => rw [List.mem_singleton.1 hp, List.mem_singleton.1 hqg]
  · omega

/-- The largest of several lengths has a weight. -/
theorem exists_droppable {h : Histogram ℚ} (hh : h.Weighed) (htwo : 2 ≤ h.length) :
    ∃ w, droppable? h = some w ∧ 0 < w := by
  obtain ⟨p, hp, heq⟩ := exists_largest hh.ne_nil
  obtain ⟨q, -, hlt⟩ := exists_lt_largest hh.nodup htwo
  refine ⟨p.2, ?_, hh.pos p hp (by omega)⟩
  rw [droppable?, if_neg (by omega), heq]
  exact Columns.lookup_of_mem hh.nodup hp

end Histogram

open Histogram (Cut)

/-! ## The heaviest length -/

section Heaviest

variable {ω : Type} [Weight ω] {cs : Columns (Histogram ω)} {col : Nat}

/-- The column to drop a length from and its weight, after one more column. -/
def heavier (best : Option Nat × ω) (p : Nat × Histogram ω) : Option Nat × ω :=
  match droppable? p.2 with
  | some w => if Weight.exceeds w best.2 then (some p.1, w) else best
  | none => best

theorem heaviest?_eq (cs : Columns (Histogram ω)) :
    heaviest? cs = (cs.foldl heavier (none, Weight.ofLength 0)).1 := rfl

/-- A column is taken only if it has another length. -/
theorem heavier_cases (best : Option Nat × ω) (p : Nat × Histogram ω) :
    heavier best p = best ∨ (2 ≤ p.2.length ∧ (heavier best p).1 = some p.1) := by
  unfold heavier droppable?
  split_ifs
  · exact Or.inl rfl
  · split
    · split
      · exact Or.inr ⟨by omega, rfl⟩
      · exact Or.inl rfl
    · exact Or.inl rfl

theorem foldl_heavier : ∀ (cs : Columns (Histogram ω)) (best : Option Nat × ω),
    (cs.foldl heavier best).1 = best.1 ∨
      ∃ p ∈ cs, 2 ≤ p.2.length ∧ (cs.foldl heavier best).1 = some p.1
  | [], _ => Or.inl rfl
  | p :: rest, best => by
    rw [List.foldl_cons]
    rcases foldl_heavier rest (heavier best p) with hsame | ⟨q, hq, htwo, heq⟩
    · rcases heavier_cases best p with hp | ⟨htwo, heq⟩
      · exact Or.inl (by rw [hsame, hp])
      · exact Or.inr ⟨p, by simp, htwo, hsame.trans heq⟩
    · exact Or.inr ⟨q, List.mem_cons_of_mem p hq, htwo, heq⟩

theorem exists_of_heaviest? (h : heaviest? cs = some col) :
    ∃ p ∈ cs, p.1 = col ∧ 2 ≤ p.2.length := by
  rw [heaviest?_eq] at h
  rcases foldl_heavier cs (none, Weight.ofLength 0) with hnone | ⟨p, hp, htwo, heq⟩
  · rw [h] at hnone
    cases hnone
  · rw [h] at heq
    exact ⟨p, hp, (Option.some.inj heq).symm, htwo⟩

end Heaviest

/-- No column is taken only if none has another length. -/
theorem length_lt_of_heaviest? : ∀ {cs : Columns (Histogram ℚ)}, (∀ p ∈ cs, p.2.Weighed) →
    heaviest? cs = none → ∀ p ∈ cs, p.2.length < 2
  | [], _, _ => nofun
  | p :: rest, hweighed, h => by
    obtain ⟨hp, hrest⟩ := List.forall_mem_cons.1 hweighed
    rw [heaviest?_eq, List.foldl_cons] at h
    have hone : p.2.length < 2 := by
      by_contra htwo
      obtain ⟨w, hw, hpos⟩ := Histogram.exists_droppable hp (Nat.le_of_not_lt htwo)
      have htaken : heavier (none, (Weight.ofLength 0 : ℚ)) p = (some p.1, w) := by
        have hexceeds : Weight.exceeds w (Weight.ofLength 0 : ℚ) = true :=
          decide_eq_true (by exact_mod_cast hpos)
        rw [heavier, hw]
        exact if_pos hexceeds
      rw [htaken] at h
      rcases foldl_heavier rest (some p.1, w) with hsame | ⟨q, -, -, heq⟩
      · exact nomatch h.symm.trans hsame
      · exact nomatch h.symm.trans heq
    have hsame : heavier (none, (Weight.ofLength 0 : ℚ)) p = (none, Weight.ofLength 0) := by
      rw [heavier, droppable?, if_pos hone]
    rw [hsame] at h
    exact List.forall_mem_cons.2 ⟨hone, length_lt_of_heaviest? hrest h⟩

/-! ## All columns -/

namespace Columns

variable {ω : Type} {a b c : Columns (Histogram ω)} {col : Nat}

/-- Each column is left with its lengths below some bound. -/
def Cuts (a b : Columns (Histogram ω)) : Prop :=
  List.Forall₂ (fun p q => p.1 = q.1 ∧ Cut p.2 q.2) a b

theorem Cuts.refl (h : ∀ p ∈ a, p.2 ≠ []) : Cuts a a :=
  List.forall₂_same.2 fun p hp => ⟨rfl, Cut.refl (h p hp)⟩

theorem Cuts.trans (hb : Cuts a b) (hc : Cuts b c) : Cuts a c := by
  induction hb generalizing c with
  | nil => exact hc
  | cons h _ ih =>
    cases hc with
    | cons h' hc => exact .cons ⟨h.1.trans h'.1, h.2.trans h'.2⟩ (ih hc)

/-- Columns that are related one by one are related when they are looked up. -/
theorem lookup_rel {α : Type} {R : α → α → Prop} {a b : Columns α}
    (h : List.Forall₂ (fun p q => p.1 = q.1 ∧ R p.2 q.2) a b) (col : Nat) :
    Option.Rel R (a.lookup col) (b.lookup col) := by
  induction h with
  | nil => exact .none
  | @cons p q _ _ h _ ih =>
    obtain ⟨c, k⟩ := p
    obtain ⟨d, l⟩ := q
    obtain ⟨rfl, hrel⟩ := h
    rw [lookup_cons_eq, lookup_cons_eq]
    split
    · exact .some hrel
    · exact ih

theorem Cuts.keys (h : Cuts a b) : a.map Prod.fst = b.map Prod.fst := by
  induction h with
  | nil => rfl
  | cons h _ ih => rw [List.map_cons, List.map_cons, h.1, ih]

theorem Cuts.exists_of_mem {q : Nat × Histogram ω} (h : Cuts a b) (hq : q ∈ b) :
    ∃ p ∈ a, p.1 = q.1 ∧ Cut p.2 q.2 := by
  induction h with
  | nil => cases hq
  | @cons p r _ _ h _ ih =>
    rcases List.mem_cons.1 hq with rfl | hq
    · exact ⟨p, by simp, h⟩
    · obtain ⟨p', hp', hcut⟩ := ih hq
      exact ⟨p', List.mem_cons_of_mem p hp', hcut⟩

/-- Columns that each have lengths, all of them different. -/
structure Sound (cs : Columns (Histogram ω)) : Prop where
  nodup : (cs.map Prod.fst).Nodup
  ne_nil : ∀ p ∈ cs, p.2 ≠ []
  lengths : ∀ p ∈ cs, (p.2.map Prod.fst).Nodup

theorem Sound.cuts (ha : Sound a) (h : Cuts a b) : Sound b := by
  refine ⟨h.keys ▸ ha.nodup, fun q hq => ?_, fun q hq => ?_⟩ <;>
    obtain ⟨p, hp, -, hne, bound, hbound⟩ := h.exists_of_mem hq
  · exact hne
  · rw [hbound]
    exact (ha.lengths p hp).sublist (List.filter_sublist.map _)

/-- The columns once the largest length of one of them is dropped. -/
def dropAt (col : Nat) (cs : Columns (Histogram ω)) : Columns (Histogram ω) :=
  cs.map fun p =>
    if p.1 = col then (p.1, Histogram.drop (Histogram.largest ((cs.lookup col).getD [])) p.2) else p

/-- One step leaves something of each column and drops a length. -/
theorem Sound.dropAt (hsound : Sound a) {p : Nat × Histogram ω} (hp : p ∈ a)
    (htwo : 2 ≤ p.2.length) : Cuts a (a.dropAt p.1) ∧
      ((a.dropAt p.1).flatMap Prod.snd).length < (a.flatMap Prod.snd).length := by
  have hlookup := lookup_of_mem hsound.nodup hp
  -- No two columns have one number, so the length that is dropped is the column's own.
  have hsame : ∀ q ∈ a, q.1 = p.1 → q.2 = p.2 := by
    intro q hq heq
    have hq' := lookup_of_mem hsound.nodup hq
    rw [heq, hlookup] at hq'
    exact (Option.some.inj hq').symm
  have hdrop : a.dropAt p.1 = a.map fun q =>
      if q.1 = p.1 then (q.1, Histogram.drop q.2.largest q.2) else q := by
    refine List.map_congr_left fun q hq => ?_
    split
    · rename_i heq
      rw [hlookup, Option.getD_some, hsame q hq heq]
    · rfl
  rw [hdrop]
  refine ⟨List.forall₂_map_right_iff.2 (List.forall₂_same.2 fun q hq => ?_), ?_⟩
  · split
    · rename_i heq
      rw [hsame q hq heq]
      exact ⟨rfl, Histogram.cut_drop (hsound.lengths p hp) htwo⟩
    · exact ⟨rfl, Cut.refl (hsound.ne_nil q hq)⟩
  · rw [List.length_flatMap, List.length_flatMap, List.map_map]
    refine List.sum_lt_sum _ _ (fun q hq => ?_) ⟨p, hp, ?_⟩
    · rw [Function.comp]
      split
      · exact List.length_filter_le _ _
      · exact Nat.le_refl _
    · rw [Function.comp, if_pos rfl]
      exact Histogram.length_drop_lt (hsound.ne_nil p hp)

/-- Columns that can be narrowed. -/
structure Fit (cs : Columns (Histogram ℚ)) : Prop where
  nodup : (cs.map Prod.fst).Nodup
  weighed : ∀ p ∈ cs, p.2.Weighed

theorem Fit.sound {cs : Columns (Histogram ℚ)} (h : Fit cs) : Sound cs :=
  ⟨h.nodup, fun p hp => (h.weighed p hp).ne_nil, fun p hp => (h.weighed p hp).nodup⟩

theorem Fit.cuts {a b : Columns (Histogram ℚ)} (ha : Fit a) (h : Cuts a b) : Fit b := by
  refine ⟨h.keys ▸ ha.nodup, fun q hq => ?_⟩
  obtain ⟨p, hp, -, hcut⟩ := h.exists_of_mem hq
  exact (ha.weighed p hp).cut hcut

end Columns

/-! ## Rounds -/

section Rounds

variable {ω : Type} [Weight ω] {s : Settings ω} {cs next : Columns (Histogram ω)}

/-- The columns after one more round, if they are still too wide and a length can go. -/
def round? (s : Settings ω) (cs : Columns (Histogram ω)) : Option (Columns (Histogram ω)) :=
  if totalWidth (2 * s.minPadding) cs ≤ s.widthStop then none
  else (heaviest? cs).map fun col => cs.dropAt col

/-- The columns that some rounds lead to. -/
def Rounds (s : Settings ω) : Columns (Histogram ω) → Columns (Histogram ω) → Prop :=
  Relation.ReflTransGen fun a b => round? s a = some b

theorem exists_of_round? (h : round? s cs = some next) : ¬ totalWidth (2 * s.minPadding) cs ≤
    s.widthStop ∧ ∃ p ∈ cs, heaviest? cs = some p.1 ∧ 2 ≤ p.2.length ∧ next = cs.dropAt p.1 := by
  unfold round? at h
  split at h
  · cases h
  · rename_i hwide
    obtain ⟨col, hcol, rfl⟩ := Option.map_eq_some_iff.1 h
    obtain ⟨p, hp, rfl, htwo⟩ := exists_of_heaviest? hcol
    exact ⟨hwide, p, hp, hcol, htwo, rfl⟩

theorem round?_eq_none_iff : round? s cs = none ↔
    totalWidth (2 * s.minPadding) cs ≤ s.widthStop ∨ heaviest? cs = none := by
  unfold round?
  split <;> simp [*]

/-- A round leaves something of each column and drops a length. -/
theorem Columns.Sound.round (hsound : cs.Sound) (h : round? s cs = some next) :
    cs.Cuts next ∧ (next.flatMap Prod.snd).length < (cs.flatMap Prod.snd).length := by
  obtain ⟨-, p, hp, -, htwo, rfl⟩ := exists_of_round? h
  exact hsound.dropAt hp htwo

theorem Columns.Sound.rounds (hsound : cs.Sound) (h : Rounds s cs next) : cs.Cuts next := by
  induction h with
  | refl => exact Cuts.refl hsound.ne_nil
  | tail _ hround ih => exact ih.trans ((hsound.cuts ih).round hround).1

theorem narrow_succ (s : Settings ω) (fuel : Nat) (cs : Columns (Histogram ω)) :
    (narrow s (fuel + 1) cs).1 = (round? s cs).elim cs fun next => (narrow s fuel next).1 := by
  rw [narrow, round?]
  split
  · rfl
  · rcases heaviest? cs with _ | col <;> rfl

/-- Narrowing goes on as long as there is another round. -/
theorem narrow_rounds (s : Settings ω) : ∀ (fuel : Nat) {cs : Columns (Histogram ω)}, cs.Sound →
    (cs.flatMap Prod.snd).length < fuel →
    Rounds s cs (narrow s fuel cs).1 ∧ round? s (narrow s fuel cs).1 = none
  | 0, _, _, hfuel => absurd hfuel (Nat.not_lt_zero _)
  | fuel + 1, cs, hsound, hfuel => by
    rw [narrow_succ]
    rcases hround : round? s cs with _ | next
    · exact ⟨.refl, hround⟩
    · obtain ⟨hcuts, hlength⟩ := hsound.round hround
      -- The fuel stays above the number of lengths, so it lasts until there is no more round.
      obtain ⟨hrest, hend⟩ := narrow_rounds s fuel (hsound.cuts hcuts) (by omega)
      exact ⟨.head hround hrest, hend⟩

end Rounds

/-- Narrowing leaves something of each column, and ends with columns that fit or cannot be narrowed
any more. -/
theorem narrow_spec (s : Settings ℚ) (fuel : Nat) {cs : Columns (Histogram ℚ)} (hfit : cs.Fit)
    (hfuel : (cs.flatMap Prod.snd).length < fuel) : cs.Cuts (narrow s fuel cs).1 ∧
      (totalWidth (2 * s.minPadding) (narrow s fuel cs).1 ≤ s.widthStop ∨
        ∀ q ∈ (narrow s fuel cs).1, q.2.length < 2) := by
  obtain ⟨hrounds, hend⟩ := narrow_rounds s fuel hfit.sound hfuel
  have hcuts := hfit.sound.rounds hrounds
  exact ⟨hcuts, (round?_eq_none_iff.1 hend).imp_right
    (length_lt_of_heaviest? (hfit.cuts hcuts).weighed)⟩

/-! ## The widths of a table -/

theorem sum_map_ite_const {α : Type} (q : α → Bool) (k : Int) (l : List α) :
    (l.map fun a => if q a then k else 0).sum = (l.filter q).length * k := by
  induction l with
  | nil => simp
  | cons a rest ih =>
    rw [List.map_cons, List.sum_cons, ih, List.filter_cons]
    split
    · rw [List.length_cons, Nat.cast_succ, Int.add_mul, Int.one_mul, Int.add_comm]
    · rw [Int.zero_add]

theorem totalWidth_eq {ω : Type} (padding : Int) (cs : Columns (Histogram ω)) :
    totalWidth padding cs = (cs.map fun p => (p.2.largest : Int) + padding).sum := by
  induction cs with
  | nil => rfl
  | cons p rest ih => rw [totalWidth, ih, List.map_cons, List.sum_cons]

namespace Columns

variable {α : Type} {n : Nat}

theorem sum_lookup (f : α → Int) : ∀ {cs : Columns α}, (cs.map Prod.fst).Nodup →
    (∀ p ∈ cs, p.1 < n) →
    ((List.range n).map fun col => (cs.lookup col).elim 0 f).sum = (cs.map fun p => f p.2).sum
  | [], _, _ => by simp
  | (c, a) :: rest, hnodup, hlt => by
    obtain ⟨hc, hnodup⟩ := List.nodup_cons.1 hnodup
    obtain ⟨hcn, hlt⟩ := List.forall_mem_cons.1 hlt
    have hnone : rest.lookup c = none := List.lookup_eq_none_iff.2 fun p hp =>
      bne_iff_ne.2 fun e => hc (List.mem_map.2 ⟨p, hp, e.symm⟩)
    have hcol : ∀ col, (List.lookup col ((c, a) :: rest)).elim 0 f =
        if col = c then f a else (rest.lookup col).elim 0 f := by
      intro col
      rw [lookup_cons_eq]
      split <;> rfl
    have hone : (List.range n).count c = 1 :=
      List.count_eq_one_of_mem List.nodup_range (List.mem_range.2 hcn)
    rw [List.map_congr_left fun col _ => hcol col, List.sum_map_ite_eq, hone, hnone,
      sum_lookup f hnodup hlt, List.map_cons, List.sum_cons]
    simp

end Columns

namespace Layout

variable {settings : Settings ℚ} {fs : List Filling} {t : Layout ℚ} {col : Nat}
  {kept : Columns (Histogram ℚ)}

/-- The columns that no cell begins in. -/
def bareColumns {ω : Type} (t : Layout ω) : List Nat :=
  (List.range t.columnCount).filter fun col => (lengthsAt t.rows col).isEmpty

theorem width_le_columnCount {ω : Type} {t : Layout ω} {row : Row} (hrow : row ∈ t.rows) :
    row.width ≤ t.columnCount := (foldl_max Row.width t.rows 0).2.1 row hrow

theorem length_columnWidths {ω : Type} [Weight ω] (t : Layout ω) :
    t.columnWidths.length = t.columnCount := by
  rw [columnWidths, List.length_map, List.length_range]

theorem getElem?_columnWidths {ω : Type} [Weight ω] {t : Layout ω} (hcol : col < t.columnCount) :
    t.columnWidths[col]? = some ((Histogram.largest ((t.retained.1.lookup col).getD []) : Int) +
      2 * t.settings.minPadding) := by
  rw [columnWidths, List.getElem?_map, List.getElem?_range hcol]
  rfl

theorem lt_columnCount (hspans : ∀ row ∈ t.rows, ∀ c ∈ row, 0 < c.span)
    (h : lengthsAt t.rows col ≠ []) : col < t.columnCount := by
  obtain ⟨l, hl⟩ := List.exists_mem_of_ne_nil _ h
  obtain ⟨row, hrow, hlength⟩ := List.mem_filterMap.1 hl
  have hwidth := width_le_columnCount hrow
  by_contra hcol
  rw [Row.lengthAt_eq_none (hspans row hrow) (by omega)] at hlength
  cases hlength

theorem Tallied.fit (h : t.Tallied) : t.histograms.Fit := by
  refine ⟨h.ascending.nodup, fun p hp => ?_⟩
  have htallies := h.tallies p.1
  rw [Columns.lookup_of_mem h.ascending.nodup hp] at htallies
  exact htallies.1

/-- What is left to a column of the lengths of its cells. -/
theorem Tallied.left (h : t.Tallied) (hcuts : t.histograms.Cuts kept) (col : Nat) :
    (lengthsAt t.rows col = [] ∧ kept.lookup col = none) ∨
      ∃ k g, Histogram.Tallies (some k) (lengthsAt t.rows col) ∧ kept.lookup col = some g ∧
        Cut k g := by
  have htallies := h.tallies col
  have hrel := Columns.lookup_rel hcuts col
  revert htallies hrel
  rcases t.histograms.lookup col with _ | k <;> rcases hkept : kept.lookup col with _ | g
  · exact fun hnone _ => Or.inl ⟨hnone, rfl⟩
  · exact fun _ hrel => nomatch hrel
  · exact fun _ hrel => nomatch hrel
  · rintro htallies ⟨hcut⟩
    exact Or.inr ⟨k, g, htallies, rfl, hcut⟩

theorem Tallied.lt_columnCount (h : t.Tallied) (hspans : ∀ row ∈ t.rows, ∀ c ∈ row, 0 < c.span)
    (hcuts : t.histograms.Cuts kept) : ∀ q ∈ kept, q.1 < t.columnCount := by
  intro q hq
  refine Layout.lt_columnCount hspans fun hnil => ?_
  have hlookup := Columns.lookup_of_mem (h.fit.cuts hcuts).nodup hq
  rcases h.left hcuts q.1 with ⟨-, hnone⟩ | ⟨k, -, htallies, -, -⟩
  · rw [hlookup] at hnone
    cases hnone
  · exact htallies.ne_nil hnil

/-- A column that no cell begins in is as wide as its padding. -/
theorem Tallied.sum_columnWidths (h : t.Tallied) (hspans : ∀ row ∈ t.rows, ∀ c ∈ row, 0 < c.span)
    (hcuts : t.histograms.Cuts t.retained.1) : t.columnWidths.sum =
      totalWidth (2 * t.settings.minPadding) t.retained.1 +
        t.bareColumns.length * (2 * t.settings.minPadding) := by
  let padding := 2 * t.settings.minPadding
  let f : Histogram ℚ → Int := fun g => g.largest + padding
  have hcol : ∀ col ∈ List.range t.columnCount,
      (Histogram.largest ((t.retained.1.lookup col).getD []) : Int) + padding =
        (t.retained.1.lookup col).elim 0 f +
          if (lengthsAt t.rows col).isEmpty then padding else 0 := by
    intro col _
    rcases h.left hcuts col with ⟨hlengths, hnone⟩ | ⟨k, g, htallies, hsome, -⟩
    · rw [hlengths, hnone]
      rfl
    · rw [hsome, if_neg (by simpa using htallies.ne_nil), Int.add_zero]
      rfl
  rw [columnWidths, List.map_congr_left hcol, List.sum_map_add,
    Columns.sum_lookup f (h.fit.cuts hcuts).nodup (h.lt_columnCount hspans hcuts), totalWidth_eq,
    bareColumns, sum_map_ite_const]

/-- Tables are narrowed until they fit but for the padding of columns that no cell begins in, or
until each column is as narrow as the smallest length in it. -/
theorem sum_columnWidths_le_or (h : ofCalls settings fs = .ok t) (hbonus : 0 < settings.bonus) :
    t.columnWidths.sum ≤
        settings.widthStop + t.bareColumns.length * (2 * settings.minPadding) ∨
      t.columnWidths = (List.range t.columnCount).map fun col =>
        (((lengthsAt (filledRows fs) col).min?.getD 0 : Nat) : Int) + 2 * settings.minPadding := by
  have hfilled := filled_of_ofCalls h
  have htallied := tallied_of_ofCalls h hbonus
  have hspans : ∀ row ∈ t.rows, ∀ c ∈ row, 0 < c.span :=
    fun row hrow c hc => (hfilled.cells row hrow c hc).1
  obtain ⟨hcuts, hend⟩ := narrow_spec t.settings _ htallied.fit (Nat.lt_succ_self _)
  rw [← hfilled.settings, ← hfilled.rows]
  rcases hend with hfits | hone
  · refine Or.inl ?_
    rw [htallied.sum_columnWidths hspans hcuts]
    exact Int.add_le_add_right hfits _
  · refine Or.inr (List.map_congr_left fun col _ => ?_)
    rcases htallied.left hcuts col with ⟨hlengths, hnone⟩ | ⟨k, g, htallies, hsome, hcut⟩
    · have hnone' : t.retained.1.lookup col = none := hnone
      rw [hnone', hlengths]
      rfl
    · have hsome' : t.retained.1.lookup col = some g := hsome
      have hmin := Histogram.min_of_cut htallies hcut (hone (col, g) (Columns.mem_of_lookup hsome))
      rw [hsome', hmin, Option.getD_some, Option.getD_some]

/-- A cell over two columns, and a shorter one below it that leaves the second column bare. -/
def bareColumn : List Filling :=
  [.beginRow, .addCell "aaaaaaaa" false (some (.ofList [("colspan", "2")])),
    .beginRow, .addCell "b" false none]

theorem sum_columnWidths_le_or_bareColumn : ∃ t : Layout ℚ,
    ofCalls ⟨8, 1, 4 / 5⟩ bareColumn = .ok t ∧ (0 : ℚ) < 4 / 5 ∧
      (t.columnWidths.sum ≤ 10 ∨ t.columnWidths = [3, 2]) := by
  obtain ⟨t, ht, hbare, hcount⟩ : ∃ t : Layout ℚ, ofCalls ⟨8, 1, 4 / 5⟩ bareColumn = .ok t ∧
      t.bareColumns = [1] ∧ t.columnCount = 2 := ⟨_, rfl, by decide, by decide⟩
  have hbonus : (0 : ℚ) < 4 / 5 := by norm_num
  have hwidths := sum_columnWidths_le_or ht hbonus
  rw [hbare, hcount] at hwidths
  exact ⟨t, ht, hbonus, hwidths⟩

/-- The columns do not fit into the width at which narrowing stops, and the first is not as narrow
as its smallest length, since the padding of the second is not counted. -/
theorem bareColumn_too_wide : ∃ t : Layout ℚ, ofCalls ⟨10, 1, 4 / 5⟩ bareColumn = .ok t ∧
    ¬ (t.columnWidths.sum ≤ 10 ∨ t.columnWidths = (List.range t.columnCount).map fun col =>
      (((lengthsAt (filledRows bareColumn) col).min?.getD 0 : Nat) : Int) + 2 * 1) :=
  ⟨_, rfl, by decide⟩

end Layout

end Markwright.Table
