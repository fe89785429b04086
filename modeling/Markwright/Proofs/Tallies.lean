import Mathlib.Data.List.Nodup
import Mathlib.Data.Rat.Cast.Order
import Mathlib.Logic.Function.Iterate
import Markwright.Proofs.Filling

/-!
# Tallies

Each column keeps a histogram of the lengths of the cells that begin in it, and a column that is
only covered by a cell of a column before it keeps none. So the lengths that are kept are those of
the cells that were added, and what a length weighs hangs on how often it was added and not on when
(`Layout.recorded_of_ofCalls`). Weighed in rational numbers, all of them but zero have some weight
(`Layout.tallied_of_ofCalls`).
-/

namespace Markwright.Table

/-- Rational numbers weigh exactly. -/
instance : Weight ℚ where
  ofLength n := n
  scale := (· * ·)
  exceeds a b := decide (b < a)

/-! ## Columns -/

namespace Columns

variable {α : Type} {cs : Columns α} {col : Nat} {f : Option α → α}

/-- Columns by ascending number. -/
def Ascending (cs : Columns α) : Prop := cs.Pairwise fun p q => p.1 < q.1

theorem Ascending.nodup (h : cs.Ascending) : (cs.map Prod.fst).Nodup :=
  List.pairwise_map.2 (h.imp Nat.ne_of_lt)

theorem mem_alter {p : Nat × α} (h : p ∈ cs.alter col f) : p.1 = col ∨ p ∈ cs := by
  induction cs with
  | nil =>
    obtain rfl := List.mem_singleton.1 h
    exact Or.inl rfl
  | cons q rest ih =>
    obtain ⟨c, a⟩ := q
    rw [alter] at h
    split at h
    · rename_i hc
      rcases List.mem_cons.1 h with rfl | h
      · exact Or.inl hc
      · exact Or.inr (List.mem_cons_of_mem _ h)
    · split at h
      · rcases List.mem_cons.1 h with rfl | h
        · exact Or.inl rfl
        · exact Or.inr h
      · rcases List.mem_cons.1 h with rfl | h
        · exact Or.inr (by simp)
        · exact (ih h).imp_right (List.mem_cons_of_mem _)

theorem Ascending.alter (h : cs.Ascending) : Ascending (cs.alter col f) := by
  induction cs with
  | nil => exact List.pairwise_singleton _ _
  | cons q rest ih =>
    obtain ⟨c, a⟩ := q
    obtain ⟨hfirst, hrest⟩ := List.pairwise_cons.1 h
    rw [Columns.alter]
    split
    · exact List.pairwise_cons.2 ⟨hfirst, hrest⟩
    · rename_i hne
      split
      · rename_i hlt
        refine List.pairwise_cons.2 ⟨fun p hp => ?_, h⟩
        rcases List.mem_cons.1 hp with rfl | hp
        · exact hlt
        · exact Nat.lt_trans hlt (hfirst p hp)
      · rename_i hle
        refine List.pairwise_cons.2 ⟨fun p hp => ?_, ih hrest⟩
        rcases mem_alter hp with hp | hp
        · have hlt : c < col := by omega
          exact hp ▸ hlt
        · exact hfirst p hp

theorem lookup_cons_eq (c col : Nat) (a : α) (cs : Columns α) :
    List.lookup c ((col, a) :: cs) = if c = col then some a else cs.lookup c := by
  rw [List.lookup_cons]
  by_cases hc : c = col
  · simp [hc]
  · simp [hc, beq_false_of_ne hc]

theorem lookup_eq_none_of_lt (h : ∀ p ∈ cs, col < p.1) : cs.lookup col = none := by
  rw [List.lookup_eq_none_iff]
  exact fun p hp => bne_iff_ne.2 (Nat.ne_of_lt (h p hp))

theorem lookup_of_mem {p : Nat × α} (hnodup : (cs.map Prod.fst).Nodup) (hp : p ∈ cs) :
    cs.lookup p.1 = some p.2 := by
  obtain ⟨front, back, rfl⟩ := List.append_of_mem hp
  refine List.lookup_eq_some_iff.2 ⟨front, back, rfl, fun q hq => bne_iff_ne.2 fun e => ?_⟩
  rw [List.map_append, List.nodup_append] at hnodup
  exact hnodup.2.2 q.1 (List.mem_map_of_mem hq) p.1 (by simp) e.symm

theorem mem_of_lookup {a : α} (h : cs.lookup col = some a) : (col, a) ∈ cs := by
  obtain ⟨front, back, rfl, -⟩ := List.lookup_eq_some_iff.1 h
  simp

theorem mem_iff_lookup (hnodup : (cs.map Prod.fst).Nodup) (p : Nat × α) :
    p ∈ cs ↔ cs.lookup p.1 = some p.2 := ⟨lookup_of_mem hnodup, mem_of_lookup⟩

theorem mem_keys_iff_lookup : col ∈ cs.map Prod.fst ↔ cs.lookup col ≠ none := by
  rw [Ne, List.lookup_eq_none_iff, List.mem_map]
  push Not
  simp only [bne_iff_ne, ne_eq, not_not]
  exact exists_congr fun p => and_congr_right fun _ => eq_comm

theorem Ascending.lookup_alter (h : cs.Ascending) (c : Nat) : (cs.alter col f).lookup c =
    if c = col then some (f (cs.lookup col)) else cs.lookup c := by
  induction cs with
  | nil => rw [Columns.alter, lookup_cons_eq, List.lookup_nil, List.lookup_nil]
  | cons q rest ih =>
    obtain ⟨d, a⟩ := q
    obtain ⟨hfirst, hrest⟩ := List.pairwise_cons.1 h
    rw [Columns.alter, lookup_cons_eq col, lookup_cons_eq c]
    rcases Nat.lt_trichotomy d col with hd | rfl | hd
    · rw [if_neg (Nat.ne_of_lt hd), if_neg (Nat.not_lt_of_gt hd), if_neg (Nat.ne_of_gt hd),
        lookup_cons_eq, ih hrest]
      split_ifs <;> first | rfl | omega
    · rw [if_pos rfl, if_pos rfl, lookup_cons_eq]
      split_ifs <;> rfl
    · have hnone : rest.lookup col = none :=
        lookup_eq_none_of_lt fun p hp => Nat.lt_trans hd (hfirst p hp)
      rw [if_neg (Nat.ne_of_gt hd), if_pos hd, if_neg (Nat.ne_of_lt hd), hnone, lookup_cons_eq,
        lookup_cons_eq]

end Columns

/-! ## Histograms -/

namespace Histogram

section Counts

variable {ω : Type} [Weight ω] {h g : Histogram ω} {lengths : List Nat} {bonus : ω}

/-- What a length weighs that was seen so many times. -/
def weight (bonus : ω) (length times : Nat) : ω :=
  (Weight.scale · bonus)^[times - 1] (Weight.ofLength length)

/-- The histogram holds each of the lengths once, weighed by how often it is among them. -/
structure Counts (bonus : ω) (h : Histogram ω) (lengths : List Nat) : Prop where
  nodup : (h.map Prod.fst).Nodup
  lookup : ∀ l, h.lookup l =
    if l ∈ lengths then some (weight bonus l (lengths.count l)) else none

theorem counts_nil (bonus : ω) : Counts bonus [] [] := ⟨List.nodup_nil, fun _ => rfl⟩

theorem keys_record (bonus : ω) (length : Nat) (h : Histogram ω) :
    (h.record bonus length).map Prod.fst =
      if length ∈ h.map Prod.fst then h.map Prod.fst else h.map Prod.fst ++ [length] := by
  induction h with
  | nil => rfl
  | cons p rest ih =>
    obtain ⟨l, w⟩ := p
    rw [record]
    by_cases hl : l = length
    · simp [hl]
    · rw [if_neg hl, List.map_cons, ih]
      have hl' : ¬ length = l := fun e => hl e.symm
      by_cases hmem : length ∈ rest.map Prod.fst
      · rw [if_pos hmem, if_pos (by simp [hmem])]
        rfl
      · rw [if_neg hmem, if_neg (by simpa [hl'] using hmem)]
        rfl

theorem record_ne_nil (bonus : ω) (length : Nat) (h : Histogram ω) :
    h.record bonus length ≠ [] := by
  cases h with
  | nil => exact List.cons_ne_nil _ _
  | cons p rest =>
    rw [record]
    split <;> exact List.cons_ne_nil _ _

theorem lookup_record (bonus : ω) (length : Nat) (h : Histogram ω) (l : Nat) :
    (h.record bonus length).lookup l = if l = length then
      some ((h.lookup length).elim (Weight.ofLength length) (Weight.scale · bonus))
      else h.lookup l := by
  induction h with
  | nil =>
    rw [record, Columns.lookup_cons_eq]
    rfl
  | cons p rest ih =>
    obtain ⟨k, w⟩ := p
    rw [record]
    split
    · rename_i hk
      rw [Columns.lookup_cons_eq, Columns.lookup_cons_eq, Columns.lookup_cons_eq, hk, if_pos rfl]
      split <;> rfl
    · rename_i hk
      rw [Columns.lookup_cons_eq, Columns.lookup_cons_eq, Columns.lookup_cons_eq, ih,
        if_neg (Ne.symm hk)]
      split_ifs <;> first | rfl | omega

theorem weight_succ (bonus : ω) (length : Nat) {times : Nat} (h : 0 < times) :
    weight bonus length (times + 1) = Weight.scale (weight bonus length times) bonus := by
  obtain ⟨n, rfl⟩ := Nat.exists_eq_succ_of_ne_zero (Nat.ne_of_gt h)
  exact Function.iterate_succ_apply' _ _ _

theorem Counts.mem_keys (h : Counts bonus g lengths) (l : Nat) :
    l ∈ g.map Prod.fst ↔ l ∈ lengths := by
  rw [Columns.mem_keys_iff_lookup, h.lookup]
  split <;> simp [*]

theorem Counts.eq_nil_iff (h : Counts bonus g lengths) : g = [] ↔ lengths = [] := by
  rw [← List.map_eq_nil_iff (f := Prod.fst), List.eq_nil_iff_forall_not_mem,
    List.eq_nil_iff_forall_not_mem]
  exact forall_congr' fun l => not_congr (h.mem_keys l)

theorem Counts.record (hg : Counts bonus g lengths) (length : Nat) :
    Counts bonus (g.record bonus length) (lengths ++ [length]) := by
  refine ⟨?_, fun l => ?_⟩
  · rw [keys_record]
    split
    · exact hg.nodup
    · rename_i hmem
      refine List.nodup_append.2 ⟨hg.nodup, List.nodup_singleton _, fun l hl m hm e => hmem ?_⟩
      obtain rfl := List.mem_singleton.1 hm
      exact e ▸ hl
  · rw [lookup_record, List.count_append]
    by_cases hl : l = length
    · subst hl
      rw [if_pos rfl, if_pos (by simp), List.count_singleton_self, hg.lookup]
      by_cases hmem : l ∈ lengths
      · rw [if_pos hmem, weight_succ bonus l (List.count_pos_iff.2 hmem)]
        rfl
      · rw [if_neg hmem, List.count_eq_zero.2 hmem]
        rfl
    · have hmem : l ∈ lengths ++ [length] ↔ l ∈ lengths := by simp [hl]
      have hcount : [length].count l = 0 := List.count_eq_zero.2 (by simpa using hl)
      rw [if_neg hl, hg.lookup, hcount, Nat.add_zero]
      simp only [hmem]

/-- What a histogram holds does not hang on the order in which the lengths came. -/
theorem Counts.perm {others : List Nat} (hh : Counts bonus h lengths)
    (hg : Counts bonus g others) (hperm : lengths.Perm others) : h.Perm g := by
  refine (List.perm_ext_iff_of_nodup (hh.nodup.of_map _) (hg.nodup.of_map _)).2 fun p => ?_
  rw [Columns.mem_iff_lookup hh.nodup, Columns.mem_iff_lookup hg.nodup, hh.lookup, hg.lookup,
    hperm.count_eq]
  simp only [hperm.mem_iff]

end Counts

/-- A histogram holds each of its lengths once, with a weight unless it is zero. -/
structure Weighed (h : Histogram ℚ) : Prop where
  ne_nil : h ≠ []
  nodup : (h.map Prod.fst).Nodup
  pos : ∀ p ∈ h, 0 < p.1 → 0 < p.2

/-- A column keeps the given lengths, and no histogram if there are none. -/
def Tallies : Option (Histogram ℚ) → List Nat → Prop
  | none, lengths => lengths = []
  | some h, lengths => h.Weighed ∧ ∀ l, l ∈ h.map Prod.fst ↔ l ∈ lengths

variable {h : Histogram ℚ} {lengths : List Nat} {bonus : ℚ}

theorem weight_pos (hbonus : 0 < bonus) {length : Nat} (hlength : 0 < length) (times : Nat) :
    0 < weight bonus length times := by
  rw [weight]
  induction times - 1 with
  | zero => exact Nat.cast_pos.2 hlength
  | succ n ih =>
    rw [Function.iterate_succ_apply']
    exact mul_pos ih hbonus

theorem Counts.weighed (hcounts : Counts bonus h lengths) (hbonus : 0 < bonus) (hne : h ≠ []) :
    h.Weighed := by
  refine ⟨hne, hcounts.nodup, fun p hp hlength => ?_⟩
  have hlookup := Columns.lookup_of_mem hcounts.nodup hp
  rw [hcounts.lookup] at hlookup
  split at hlookup
  · rw [← Option.some.inj hlookup]
    exact weight_pos hbonus hlength _
  · cases hlookup

theorem Tallies.ne_nil (hkept : Tallies (some h) lengths) : lengths ≠ [] := by
  obtain ⟨hweighed, hmem⟩ := hkept
  obtain ⟨p, hp⟩ := List.exists_mem_of_ne_nil h hweighed.ne_nil
  exact List.ne_nil_of_mem ((hmem p.1).1 (List.mem_map_of_mem hp))

end Histogram

/-! ## Cells -/

/-- The length of the cell that begins in a column. -/
def Row.lengthAt (row : Row) (col : Nat) : Option Nat := row.slots[col]?.join.map String.length

/-- The lengths of the cells that begin in a column. -/
def lengthsAt (rows : List Row) (col : Nat) : List Nat := rows.filterMap (·.lengthAt col)

section Cells

variable {row : Row} {col : Nat} {c : Cell}

theorem Row.length_slots : ∀ {row : Row}, (∀ c ∈ row, 0 < c.span) → row.slots.length = row.width
  | [], _ => rfl
  | c :: rest, h => by
    have hrest := length_slots fun d hd => h d (List.mem_cons_of_mem c hd)
    have hspan := h c (by simp)
    rw [slots] at hrest
    rw [slots, List.flatMap_cons, List.length_append, hrest, List.length_cons,
      List.length_replicate, Row.width]
    omega

theorem Row.lengthAt_eq_none (hspans : ∀ c ∈ row, 0 < c.span) (hcol : row.width ≤ col) :
    row.lengthAt col = none := by
  rw [lengthAt, List.getElem?_eq_none (by rwa [length_slots hspans])]
  rfl

theorem Row.lengthAt_split {front back : Row} (hspans : ∀ d ∈ front, 0 < d.span) :
    Row.lengthAt (front ++ c :: back) front.width = some c.content.length := by
  have hslots : Row.slots (front ++ c :: back) = front.slots ++
      some c.content :: (List.replicate (c.span - 1) none ++ Row.slots back) := by
    simp [slots]
  rw [lengthAt, hslots, ← length_slots hspans, List.getElem?_append_right (Nat.le_refl _),
    Nat.sub_self]
  rfl

theorem Row.lengthAt_concat (hspans : ∀ c ∈ row, 0 < c.span) (c : Cell) (col : Nat) :
    Row.lengthAt (row ++ [c]) col =
      if col = row.width then some c.content.length else row.lengthAt col := by
  have hlength := length_slots hspans
  have hslots : Row.slots (row ++ [c]) =
      row.slots ++ some c.content :: List.replicate (c.span - 1) none := by
    simp [slots]
  rcases Nat.lt_trichotomy col row.width with hcol | rfl | hcol
  · rw [if_neg (Nat.ne_of_lt hcol), lengthAt, hslots, List.getElem?_append_left (by omega),
      lengthAt]
  · rw [if_pos rfl, lengthAt, hslots, ← hlength, List.getElem?_append_right (Nat.le_refl _),
      Nat.sub_self]
    rfl
  · rw [if_neg (Nat.ne_of_gt hcol), lengthAt_eq_none hspans (Nat.le_of_lt hcol), lengthAt, hslots,
      List.getElem?_append_right (by omega), hlength]
    obtain ⟨n, hn⟩ : ∃ n, col - row.width = n + 1 := ⟨col - row.width - 1, by omega⟩
    rw [hn, List.getElem?_cons_succ, List.getElem?_replicate]
    split <;> rfl

theorem lengthsAt_concat (front : List Row) (hspans : ∀ c ∈ row, 0 < c.span) (c : Cell)
    (col : Nat) : lengthsAt (front ++ [row ++ [c]]) col =
      if col = row.width then lengthsAt (front ++ [row]) col ++ [c.content.length]
      else lengthsAt (front ++ [row]) col := by
  have hlast : ∀ r : Row, lengthsAt (front ++ [r]) col =
      lengthsAt front col ++ (r.lengthAt col).toList := by
    intro r
    rw [lengthsAt, List.filterMap_append, lengthsAt]
    cases hr : r.lengthAt col <;> simp [hr]
  rw [hlast, hlast, Row.lengthAt_concat hspans]
  split
  · rename_i hcol
    rw [Row.lengthAt_eq_none hspans (Nat.le_of_eq hcol.symm), Option.toList_none, List.append_nil]
    rfl
  · rfl

end Cells

/-! ## Layouts -/

namespace Layout

/-- The columns keep the lengths of the cells that begin in them, and how often there is one of each
length. -/
structure Recorded {ω : Type} [Weight ω] (t : Layout ω) : Prop where
  ascending : t.histograms.Ascending
  ne_nil : ∀ p ∈ t.histograms, p.2 ≠ []
  counts : ∀ col, Histogram.Counts t.settings.bonus ((t.histograms.lookup col).getD [])
    (lengthsAt t.rows col)

theorem recorded_of_ofCalls {ω : Type} [Weight ω] {settings : Settings ω} {fs : List Filling}
    {t : Layout ω} (h : ofCalls settings fs = .ok t) : t.Recorded := by
  refine ofCalls_induction (P := fun _ t => t.Recorded)
    ⟨List.Pairwise.nil, nofun, fun _ => Histogram.counts_nil _⟩ ?_ h
  intro fs t f u ht hrecorded hu
  cases f with
  | beginRow =>
    cases hu
    refine ⟨hrecorded.ascending, hrecorded.ne_nil, fun col => ?_⟩
    have hsame : lengthsAt t.beginRow.rows col = lengthsAt t.rows col := by
      simp [lengthsAt, beginRow, Row.lengthAt, Row.slots]
    rw [hsame]
    exact hrecorded.counts col
  | addCell content isHeader q =>
    have hfilled := filled_of_ofCalls ht
    obtain ⟨front, row, span, hrows, -, hnew, hsettings, -, hhistograms, -⟩ :=
      exists_of_addCell hu
    have hspans : ∀ c ∈ row, 0 < c.span := fun c hc => (hfilled.cells row (by simp [hrows]) c hc).1
    refine ⟨hhistograms ▸ hrecorded.ascending.alter, fun p hp => ?_, fun col => ?_⟩
    · rw [hhistograms] at hp
      have hlookup := Columns.lookup_of_mem hrecorded.ascending.alter.nodup hp
      rw [hrecorded.ascending.lookup_alter] at hlookup
      split at hlookup
      · rw [← Option.some.inj hlookup]
        exact Histogram.record_ne_nil _ _ _
      · exact hrecorded.ne_nil _ (Columns.mem_of_lookup hlookup)
    · have hcol := hrecorded.counts col
      rw [hrows] at hcol
      rw [hhistograms, hrecorded.ascending.lookup_alter, hnew, hsettings,
        lengthsAt_concat front hspans]
      split
      · rename_i heq
        subst heq
        exact hcol.record _
      · exact hcol

variable {settings : Settings ℚ} {fs : List Filling} {t : Layout ℚ}

/-- The lengths that the columns keep have a weight. -/
structure Tallied (t : Layout ℚ) : Prop where
  ascending : t.histograms.Ascending
  tallies : ∀ col, Histogram.Tallies (t.histograms.lookup col) (lengthsAt t.rows col)

theorem tallied_of_ofCalls (h : ofCalls settings fs = .ok t) (hbonus : 0 < settings.bonus) :
    t.Tallied := by
  have hrecorded := recorded_of_ofCalls h
  rw [← (filled_of_ofCalls h).settings] at hbonus
  refine ⟨hrecorded.ascending, fun col => ?_⟩
  have hcounts := hrecorded.counts col
  rcases hlookup : t.histograms.lookup col with _ | k <;> rw [hlookup] at hcounts
  · exact hcounts.eq_nil_iff.1 rfl
  · exact ⟨hcounts.weighed hbonus (hrecorded.ne_nil _ (Columns.mem_of_lookup hlookup)),
      hcounts.mem_keys⟩

end Layout

end Markwright.Table
