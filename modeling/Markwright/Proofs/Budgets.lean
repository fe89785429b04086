import Markwright.Proofs.Narrowing

/-!
# Column widths by budget and by the order of rows

The rounds of the choice of widths are the same whatever the width is at which they stop: with a
smaller one they only go on for longer (`narrow_of_le`). Which length goes next hangs on nothing but
the lengths of each column and what they weigh, and not on the order in which they came
(`Columns.Alike`). So columns become no narrower when there is more width, and a table is as wide
whatever the order of its rows (`Layout.columnWidths_by_budget_and_order`). Weights are only ever
compared, so all this holds of any numbers that lengths are weighed in.
-/

namespace Markwright.Table

open Histogram (Cut)

variable {ω : Type}

/-! ## Budgets -/

section Budgets

variable [Weight ω] {s : Settings ω} {cs next : Columns (Histogram ω)} {w₁ w₂ : Int}

theorem round?_of_le (hle : w₁ ≤ w₂) (h : round? { s with widthStop := w₂ } cs = some next) :
    round? { s with widthStop := w₁ } cs = some next := by
  obtain ⟨hwide, p, hp, hcol, htwo, rfl⟩ := exists_of_round? h
  have hwide' : ¬ totalWidth (2 * s.minPadding) cs ≤ w₁ := fun hfits => hwide (hfits.trans hle)
  rw [round?, if_neg hwide', hcol]
  rfl

/-- With less width, narrowing goes on from where it stops with more. -/
theorem narrow_of_le (s : Settings ω) (hle : w₁ ≤ w₂) : ∀ (fuel : Nat)
    {cs : Columns (Histogram ω)}, cs.Sound → (cs.flatMap Prod.snd).length < fuel →
    Rounds { s with widthStop := w₁ } (narrow { s with widthStop := w₂ } fuel cs).1
      (narrow { s with widthStop := w₁ } fuel cs).1
  | 0, _, _, hfuel => absurd hfuel (Nat.not_lt_zero _)
  | fuel + 1, cs, hsound, hfuel => by
    have hall := (narrow_rounds { s with widthStop := w₁ } (fuel + 1) hsound hfuel).1
    rw [narrow_succ { s with widthStop := w₂ }]
    rcases hround : round? { s with widthStop := w₂ } cs with _ | next
    · exact hall
    · obtain ⟨hcuts, hlength⟩ := hsound.round hround
      rw [narrow_succ, round?_of_le hle hround]
      exact narrow_of_le s hle fuel (hsound.cuts hcuts) (by omega)

end Budgets

theorem Histogram.Cut.largest_le {h g : Histogram ω} (hcut : Cut h g) : g.largest ≤ h.largest := by
  obtain ⟨hne, bound, rfl⟩ := hcut
  obtain ⟨p, hp, heq⟩ := exists_largest hne
  rw [heq]
  exact le_largest (List.mem_of_mem_filter hp)

/-! ## Orders -/

namespace Histogram

variable {h g : Histogram ω}

theorem largest_perm (hperm : h.Perm g) : h.largest = g.largest :=
  hperm.foldl_eq' (fun p _ q _ m => by omega) 0

theorem droppable?_perm [Weight ω] (hnodup : (h.map Prod.fst).Nodup) (hperm : h.Perm g) :
    droppable? h = droppable? g := by
  have hnodup' : (g.map Prod.fst).Nodup := (hperm.map Prod.fst).nodup hnodup
  have hlookup : ∀ l, h.lookup l = g.lookup l := by
    intro l
    refine Option.ext fun w => ?_
    have hmem := hperm.mem_iff (a := (l, w))
    rwa [Columns.mem_iff_lookup hnodup, Columns.mem_iff_lookup hnodup'] at hmem
  rw [droppable?, droppable?, hperm.length_eq, largest_perm hperm, hlookup]

end Histogram

namespace Columns

/-- Ascending columns are related one by one if they are related when they are looked up. -/
theorem forall₂_of_lookup {α : Type} {R : α → α → Prop} : ∀ {a b : Columns α}, a.Ascending →
    b.Ascending → (∀ col, Option.Rel R (a.lookup col) (b.lookup col)) →
    List.Forall₂ (fun p q => p.1 = q.1 ∧ R p.2 q.2) a b
  | [], [], _, _, _ => .nil
  | [], (d, l) :: b, _, _, h => by
    have hd := h d
    rw [lookup_cons_eq, if_pos rfl] at hd
    cases hd
  | (c, k) :: a, [], _, _, h => by
    have hc := h c
    rw [lookup_cons_eq, if_pos rfl] at hc
    cases hc
  | (c, k) :: a, (d, l) :: b, ha, hb, h => by
    obtain ⟨hfirst, hrest⟩ := List.pairwise_cons.1 ha
    obtain ⟨hfirst', hrest'⟩ := List.pairwise_cons.1 hb
    have hc := h c
    have hd := h d
    rw [lookup_cons_eq, lookup_cons_eq, if_pos rfl] at hc hd
    rcases Nat.lt_trichotomy c d with hlt | rfl | hlt
    · rw [if_neg (Nat.ne_of_lt hlt),
        lookup_eq_none_of_lt fun p hp => Nat.lt_trans hlt (hfirst' p hp)] at hc
      cases hc
    · rw [if_pos rfl] at hc
      cases hc with | some hrel =>
      refine .cons ⟨rfl, hrel⟩ (forall₂_of_lookup hrest hrest' fun col => ?_)
      have hcol := h col
      rw [lookup_cons_eq, lookup_cons_eq] at hcol
      split at hcol
      · rename_i heq
        subst heq
        rw [lookup_eq_none_of_lt hfirst, lookup_eq_none_of_lt hfirst']
        exact .none
      · exact hcol
    · rw [if_neg (Nat.ne_of_lt hlt),
        lookup_eq_none_of_lt fun p hp => Nat.lt_trans hlt (hfirst p hp)] at hd
      cases hd

variable {a b : Columns (Histogram ω)}

theorem lookup_getD_rel {R : Histogram ω → Histogram ω → Prop}
    (h : List.Forall₂ (fun p q => p.1 = q.1 ∧ R p.2 q.2) a b) (hnil : R [] []) (col : Nat) :
    R ((a.lookup col).getD []) ((b.lookup col).getD []) := by
  have hrel := lookup_rel h col
  revert hrel
  generalize a.lookup col = k
  generalize b.lookup col = l
  rintro (hrel | _)
  · exact hrel
  · exact hnil

theorem Cuts.largest_le (h : Cuts a b) (col : Nat) :
    Histogram.largest ((b.lookup col).getD []) ≤ Histogram.largest ((a.lookup col).getD []) :=
  lookup_getD_rel (R := fun k l => Histogram.largest l ≤ Histogram.largest k)
    (h.imp fun _ _ hcut => ⟨hcut.1, hcut.2.largest_le⟩) (Nat.le_refl _) col

/-- Two histograms for each column, with the same lengths and weights in some order. -/
def Alike (a b : Columns (Histogram ω)) : Prop :=
  List.Forall₂ (fun p q => p.1 = q.1 ∧ p.2.Perm q.2) a b

theorem Alike.largest (h : Alike a b) (col : Nat) :
    Histogram.largest ((a.lookup col).getD []) = Histogram.largest ((b.lookup col).getD []) :=
  Histogram.largest_perm (lookup_getD_rel h (.refl []) col)

theorem Alike.length_flatMap (h : Alike a b) :
    (a.flatMap Prod.snd).length = (b.flatMap Prod.snd).length := by
  induction h with
  | nil => rfl
  | cons h _ ih => rw [List.flatMap_cons, List.flatMap_cons, List.length_append, List.length_append,
      h.2.length_eq, ih]

theorem Alike.totalWidth (h : Alike a b) (padding : Int) :
    totalWidth padding a = totalWidth padding b := by
  induction h with
  | nil => rfl
  | cons h _ ih => rw [Table.totalWidth, Table.totalWidth, Histogram.largest_perm h.2, ih]

theorem Alike.dropAt (h : Alike a b) (col : Nat) : Alike (a.dropAt col) (b.dropAt col) := by
  rw [Columns.dropAt, Columns.dropAt, h.largest col]
  refine List.forall₂_map_left_iff.2 (List.forall₂_map_right_iff.2 (h.imp fun p q hpq => ?_))
  rw [hpq.1]
  split
  · exact ⟨rfl, hpq.2.filter _⟩
  · exact hpq

variable [Weight ω] {s : Settings ω}

theorem Alike.heaviest? (h : Alike a b) (hsound : a.Sound) : heaviest? a = heaviest? b := by
  have hfold : ∀ best : Option Nat × ω, a.foldl heavier best = b.foldl heavier best := by
    have hlengths := hsound.lengths
    clear hsound
    induction h with
    | nil => exact fun _ => rfl
    | @cons p q _ _ h _ ih =>
      obtain ⟨hp, hrest⟩ := List.forall_mem_cons.1 hlengths
      intro best
      have hsame : heavier best p = heavier best q := by
        rw [heavier, heavier, Histogram.droppable?_perm hp h.2, h.1]
      rw [List.foldl_cons, List.foldl_cons, hsame, ih hrest]
  rw [heaviest?_eq, heaviest?_eq, hfold]

theorem Alike.round? (h : Alike a b) (hsound : a.Sound) :
    Option.Rel Alike (round? s a) (round? s b) := by
  rw [Table.round?, Table.round?, h.totalWidth, h.heaviest? hsound]
  split
  · exact .none
  · rcases Table.heaviest? b with _ | col
    · exact .none
    · exact .some (h.dropAt col)

theorem Alike.narrow (s : Settings ω) : ∀ (fuel : Nat) {a b : Columns (Histogram ω)}, Alike a b →
    a.Sound → Alike (narrow s fuel a).1 (narrow s fuel b).1
  | 0, _, _, h, _ => h
  | fuel + 1, a, b, h, hsound => by
    rw [narrow_succ, narrow_succ]
    have hround := h.round? (s := s) hsound
    revert hround
    rcases hnext : Table.round? s a with _ | next <;> rcases Table.round? s b with _ | other
    · exact fun _ => h
    · exact fun hround => nomatch hround
    · exact fun hround => nomatch hround
    · rintro ⟨halike⟩
      exact Alike.narrow s fuel halike (hsound.cuts (hsound.round hnext).1)

end Columns

namespace Layout

variable [Weight ω] {settings : Settings ω} {fs : List Filling} {t u : Layout ω}

theorem Recorded.sound (h : t.Recorded) : t.histograms.Sound := by
  refine ⟨h.ascending.nodup, h.ne_nil, fun p hp => ?_⟩
  have hcounts := h.counts p.1
  rw [Columns.lookup_of_mem h.ascending.nodup hp] at hcounts
  exact hcounts.nodup

/-! ## Widths by budget -/

/-- The layout with another width at which narrowing stops. -/
def withStop (t : Layout ω) (w : Int) : Layout ω :=
  { t with settings := { t.settings with widthStop := w } }

theorem fill_withStop (t : Layout ω) (w : Int) (f : Filling) :
    (t.withStop w).fill f = (t.fill f).map (·.withStop w) := by
  cases f with
  | beginRow => rfl
  | addCell content isHeader q =>
    have hrows : (t.withStop w).rows = t.rows := rfl
    rw [fill, fill, addCell, addCell, takeCell_eq, takeCell_eq, hrows]
    rcases t.rows.getLast? with _ | row
    · rfl
    · rcases spanOf (lookupIn q "colspan") with fault | span <;> rfl

theorem ofCalls_withStop (h : ofCalls settings fs = .ok t) (w : Int) :
    ofCalls { settings with widthStop := w } fs = .ok (t.withStop w) := by
  refine ofCalls_induction
    (P := fun fs t => ofCalls { settings with widthStop := w } fs = .ok (t.withStop w)) rfl ?_ h
  intro fs t f u _ ht hu
  refine ofCalls_concat ht ?_
  rw [fill_withStop, hu]
  rfl

theorem Recorded.columnWidths_le (h : t.Recorded) {w₁ w₂ : Int} (hle : w₁ ≤ w₂) :
    List.Forall₂ (· ≤ ·) (t.withStop w₁).columnWidths (t.withStop w₂).columnWidths := by
  have hrounds := narrow_of_le t.settings hle _ h.sound (Nat.lt_succ_self _)
  have hmore := (narrow_rounds { t.settings with widthStop := w₂ } _ h.sound
    (Nat.lt_succ_self _)).1
  have hcuts := (h.sound.cuts (h.sound.rounds hmore)).rounds hrounds
  refine List.forall₂_map_left_iff.2 (List.forall₂_map_right_iff.2
    (List.forall₂_same.2 fun col _ => ?_))
  have hcol := hcuts.largest_le col
  exact Int.add_le_add_right (Int.ofNat_le.2 hcol) _

/-- Each column is as wide as one of its lengths. -/
theorem Recorded.width_mem (h : t.Recorded) (col : Nat) :
    let width := Histogram.largest ((t.retained.1.lookup col).getD [])
    if lengthsAt t.rows col = [] then width = 0 else width ∈ lengthsAt t.rows col := by
  have hcuts := h.sound.rounds (narrow_rounds t.settings _ h.sound (Nat.lt_succ_self _)).1
  have hcounts := h.counts col
  have hrel := Columns.lookup_rel hcuts col
  change Option.Rel Cut _ (t.retained.1.lookup col) at hrel
  revert hcounts hrel
  rcases t.histograms.lookup col with _ | k <;> rcases t.retained.1.lookup col with _ | g
  · intro hcounts _
    rw [if_pos (hcounts.eq_nil_iff.1 rfl)]
    rfl
  · exact fun _ hrel => nomatch hrel
  · exact fun _ hrel => nomatch hrel
  · rintro hcounts ⟨hne, bound, rfl⟩
    obtain ⟨p, hp, heq⟩ := Histogram.exists_largest hne
    have hmem : p.1 ∈ lengthsAt t.rows col :=
      (hcounts.mem_keys p.1).1 (List.mem_map_of_mem (List.mem_of_mem_filter hp))
    rw [if_neg (List.ne_nil_of_mem hmem)]
    exact heq ▸ hmem

/-! ## Widths by the order of rows -/

theorem Recorded.alike (ht : t.Recorded) (hu : u.Recorded)
    (hbonus : u.settings.bonus = t.settings.bonus) (hperm : u.rows.Perm t.rows) :
    Columns.Alike u.histograms t.histograms := by
  refine Columns.forall₂_of_lookup hu.ascending ht.ascending fun col => ?_
  have hlengths : (lengthsAt u.rows col).Perm (lengthsAt t.rows col) := hperm.filterMap _
  have hcounts := ht.counts col
  have hcounts' := hu.counts col
  rw [hbonus] at hcounts'
  rcases hk : u.histograms.lookup col with _ | k <;>
    rcases hl : t.histograms.lookup col with _ | l <;>
    rw [hk] at hcounts' <;> rw [hl] at hcounts <;> have hsame := hcounts'.perm hcounts hlengths
  · exact .none
  · exact absurd hsame.nil_eq.symm (ht.ne_nil _ (Columns.mem_of_lookup hl))
  · exact absurd hsame.eq_nil (hu.ne_nil _ (Columns.mem_of_lookup hk))
  · exact .some hsame

theorem Recorded.columnWidths_eq (ht : t.Recorded) (hu : u.Recorded)
    (hsettings : u.settings = t.settings) (hperm : u.rows.Perm t.rows) :
    u.columnWidths = t.columnWidths := by
  have halike := ht.alike hu (by rw [hsettings]) hperm
  have hcount : u.columnCount = t.columnCount :=
    hperm.foldl_eq' (fun p _ q _ m => by omega) 0
  rw [columnWidths, columnWidths, hcount, retained, retained, hsettings, halike.length_flatMap]
  refine List.map_congr_left fun col _ => ?_
  rw [(halike.narrow t.settings _ hu.sound).largest col]

/-- Columns are no narrower when there is more width, and each is as wide as one of its lengths. The
rows may have come in any order. Rounds leave some length of each column, and they come to an
end. -/
theorem columnWidths_by_budget_and_order (h : ofCalls settings fs = .ok t) :
    (∀ w₁ w₂ : Int, w₁ ≤ w₂ → ∃ t₁ t₂, ofCalls { settings with widthStop := w₁ } fs = .ok t₁ ∧
      ofCalls { settings with widthStop := w₂ } fs = .ok t₂ ∧
      List.Forall₂ (· ≤ ·) t₁.columnWidths t₂.columnWidths) ∧
    (t.columnWidths.length = t.columnCount ∧ ∀ col < t.columnCount, ∃ width : Nat,
      t.columnWidths[col]? = some (width + 2 * settings.minPadding) ∧
      if lengthsAt (filledRows fs) col = [] then width = 0
      else width ∈ lengthsAt (filledRows fs) col) ∧
    (∃ rows, fs = rowCalls rows ∧ ∀ others, others.Perm rows →
      ∃ u, ofCalls settings (rowCalls others) = .ok u ∧ u.columnWidths = t.columnWidths) ∧
    (∀ kept, Rounds settings t.histograms kept → ∀ p ∈ kept, p.2 ≠ []) ∧
    Rounds settings t.histograms t.retained.1 ∧ round? settings t.retained.1 = none := by
  have hrecorded := recorded_of_ofCalls h
  have hfilled := filled_of_ofCalls h
  have hend := narrow_rounds t.settings _ hrecorded.sound (Nat.lt_succ_self _)
  rw [hfilled.settings] at hend
  refine ⟨fun w₁ w₂ hle => ?_, ⟨?_, fun col hcol => ?_⟩, ?_, fun kept hkept => ?_, ?_⟩
  · exact ⟨_, _, ofCalls_withStop h w₁, ofCalls_withStop h w₂, hrecorded.columnWidths_le hle⟩
  · exact length_columnWidths t
  · refine ⟨_, ?_, hfilled.rows ▸ hrecorded.width_mem col⟩
    rw [getElem?_columnWidths hcol, hfilled.settings]
  · obtain ⟨rows, rfl, htook, hvalid⟩ := exists_rowCalls h
    refine ⟨rows, rfl, fun others hperm => ?_⟩
    obtain ⟨u, hu, hutook⟩ := exists_ofCalls_rowCalls settings fun row hrow =>
      hvalid row (hperm.mem_iff.1 hrow)
    refine ⟨u, hu, hrecorded.columnWidths_eq (recorded_of_ofCalls hu) ?_ ?_⟩
    · rw [(filled_of_ofCalls hu).settings, hfilled.settings]
    · rw [htook, hutook]
      exact hperm.map _
  · exact (hrecorded.sound.cuts (hrecorded.sound.rounds hkept)).ne_nil
  · rw [retained, hfilled.settings]
    exact hend

/-- Two columns, of which the second has a length that comes twice and one that comes once. -/
def threeRows : List (List NewCell) :=
  dataRows [["aaaaa", "bbb"], ["aaaaa", "cccccccccc"], ["aaaaa", "ddd"]]

theorem columnWidths_by_budget_and_order_threeRows : ∃ t : Layout ℚ,
    ofCalls ⟨18, 1, 4 / 5⟩ (rowCalls threeRows) = .ok t ∧ t.columnWidths = [7, 5] ∧
      (∃ t₁ t₂ : Layout ℚ, ofCalls ⟨18, 1, 4 / 5⟩ (rowCalls threeRows) = .ok t₁ ∧
        ofCalls ⟨100, 1, 4 / 5⟩ (rowCalls threeRows) = .ok t₂ ∧
        List.Forall₂ (· ≤ ·) t₁.columnWidths t₂.columnWidths) ∧
      round? (⟨18, 1, 4 / 5⟩ : Settings ℚ) t.retained.1 = none := by
  obtain ⟨t, ht, hwidths⟩ : ∃ t : Layout ℚ, ofCalls ⟨18, 1, 4 / 5⟩ (rowCalls threeRows) = .ok t ∧
      t.columnWidths = [7, 5] := ⟨_, rfl, by decide⟩
  obtain ⟨hbudgets, -, -, -, -, hend⟩ := columnWidths_by_budget_and_order ht
  exact ⟨t, ht, hwidths, hbudgets 18 100 (by decide), hend⟩

end Layout

end Markwright.Table
