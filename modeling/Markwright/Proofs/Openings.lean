import Markwright.Proofs.Inserted

/-!
# Marks that open

Emphasis and scripts open at the start of a text or after a blank. All that is found is escaped, and
since the search goes from left to right and does not turn back, a mark that opens may be left when
it stands within another that was found before it. These are all: where a mark still opens in the
escaped text, the place is swallowed by a hit whose own mark was escaped
(`Marker.Opens.swallowed_of_hit`).

Emphasis takes in no blank, so it swallows none. A script may run over a blank behind an escape
character.
-/

namespace Markwright.Escape

open Text (isBlank)

/-- At the start of a whole text or after a blank. -/
def MayOpen (whole : Bool) (front : List Char) : Bool := front.getLast?.elim whole isBlank

/-- The place between the two texts stands within a shape with an escape character before it, where
the shape may open. -/
def Swallowed (shape? : List Char → Option Nat) (whole : Bool) (a b : List Char) : Prop :=
  ∃ front inner outer rest, a = front ++ escapeChar :: inner ∧ b = outer ++ rest ∧ outer ≠ [] ∧
    MayOpen whole front = true ∧ shape? (inner ++ outer) = some (inner ++ outer).length

/-- The marker finds the shape where it opens. A shape does not begin with a blank, what it covers
has the shape on its own, and escaping what opens after it puts no shape at the front. -/
structure Marker.Opens (m : Marker) (shape? : List Char → Option Nat) : Prop where
  hit : m.hit? = Marker.afterBlank shape?
  head : ∀ {cs n}, shape? cs = some n →
    ∃ c rest, cs = c :: rest ∧ isBlank c = false ∧ c ≠ escapeChar
  alone : ∀ {cs n}, shape? cs = some n → n ≤ cs.length ∧ shape? (cs.take n) = some n
  before : ∀ {cs}, (shape? (m.escapeAll false cs)).isSome → (shape? cs).isSome

section Openings

variable {m : Marker} {shape? : List Char → Option Nat} {whole : Bool} {a b cs w : List Char}

theorem mayOpen_append (h : MayOpen false a = true) (front : List Char) :
    MayOpen whole (front ++ a) = true := by
  unfold MayOpen at h ⊢
  rw [List.getLast?_append]
  cases hlast : a.getLast? with
  | none => simp [hlast] at h
  | some x => simpa [hlast] using h

theorem Swallowed.append (h : Swallowed shape? false a b) (front : List Char) :
    Swallowed shape? whole (front ++ a) b := by
  obtain ⟨lead, inner, outer, rest, rfl, rfl, houter, hopen, hshape⟩ := h
  exact ⟨front ++ lead, inner, outer, rest, by rw [List.append_assoc], rfl, houter,
    mayOpen_append hopen front, hshape⟩

theorem Marker.escapeAll_of_not_hit {c : Char} (h : m.hit? whole (c :: cs) = none) :
    m.escapeAll whole (c :: cs) = c :: m.escapeAll false cs := by
  rw [Marker.escapeAll, h]

/-- Up to the first blank, what goes on is left as it is. -/
theorem Marker.exists_of_escapeAll_eq_append (hm : m.hit? = Marker.afterBlank shape?)
    {front rest : List Char} (hfront : ∀ c ∈ front, isBlank c = false)
    (h : m.escapeAll false cs = front ++ rest) :
    ∃ rest', cs = front ++ rest' ∧ m.escapeAll false rest' = rest := by
  induction front generalizing cs with
  | nil => exact ⟨cs, rfl, h⟩
  | cons x front ih =>
    have hx : isBlank x = false := hfront x (by simp)
    rcases cs with _ | ⟨c, cs⟩
    · rw [Marker.escapeAll] at h
      cases h
    · cases hh : m.hit? false (c :: cs) with
      | none =>
        rw [Marker.escapeAll_of_not_hit hh] at h
        obtain ⟨rfl, hrest⟩ := List.cons.inj h
        obtain ⟨rest', rfl, hrest'⟩ := ih (fun d hd => hfront d (by simp [hd])) hrest
        exact ⟨rest', rfl, hrest'⟩
      | some hit =>
        -- A hit would begin with a blank, and the blank stays in front.
        unfold Marker.escapeAll at h
        rw [hh] at h
        rw [hm] at hh
        simp only [Marker.afterBlank] at hh
        split at hh
        · rename_i hc
          obtain ⟨n, -, rfl⟩ := Option.map_eq_some_iff.1 hh
          obtain ⟨rfl, -⟩ := List.cons.inj h
          rw [hc] at hx
          cases hx
        · cases hh

namespace Marker.Opens

/-- A place behind the escape character of a hit stands within the hit or after it. -/
theorem swallowed_or_after {lead more : List Char} (hself : shape? w = some w.length)
    (hopen : MayOpen whole lead = true) (hsplit : escapeChar :: w ++ more = a ++ b)
    (hb : ∀ rest, b ≠ escapeChar :: rest) : Swallowed shape? whole (lead ++ a) b ∨
      ∃ a', a = escapeChar :: w ++ a' ∧ more = a' ++ b := by
  rcases a with _ | ⟨e, inner⟩
  · exact absurd hsplit.symm (hb _)
  obtain ⟨rfl, hinner⟩ := List.cons.inj hsplit
  rcases List.append_eq_append_iff.1 hinner with ⟨a', rfl, hmore⟩ | ⟨outer, rfl, hb'⟩
  · exact Or.inr ⟨a', rfl, hmore⟩
  · rcases outer with _ | ⟨x, outer⟩
    · exact Or.inr ⟨[], by simp, hb'.symm⟩
    · exact Or.inl ⟨lead, inner, x :: outer, more, rfl, hb', by simp, hopen, hself⟩

variable (hm : m.Opens shape?)
include hm

theorem exists_of_shape (h : (shape? cs).isSome) :
    ∃ c rest, cs = c :: rest ∧ isBlank c = false ∧ c ≠ escapeChar := by
  obtain ⟨n, hn⟩ := Option.isSome_iff_exists.1 h
  exact hm.head hn

theorem not_shape_of_isBlank {c : Char} (hc : isBlank c = true) : ¬ (shape? (c :: cs)).isSome := by
  intro hs
  obtain ⟨d, rest, hcs, hd, -⟩ := hm.exists_of_shape hs
  rw [← (List.cons.inj hcs).1, hc] at hd
  cases hd

theorem not_shape_escapeChar : ¬ (shape? (escapeChar :: cs)).isSome := by
  intro hs
  obtain ⟨d, rest, hcs, -, hd⟩ := hm.exists_of_shape hs
  exact hd (List.cons.inj hcs).1.symm

theorem isSome_hit_iff : (m.hit? whole cs).isSome ↔
    (∃ x rest, cs = x :: rest ∧ isBlank x = true ∧ (shape? rest).isSome) ∨
      whole = true ∧ (shape? cs).isSome := by
  rw [hm.hit]
  rcases cs with _ | ⟨c, cs⟩
  · have hnil : ¬ (shape? []).isSome := by
      intro hs
      obtain ⟨d, rest, hcs, -⟩ := hm.exists_of_shape hs
      cases hcs
    simp [afterBlank, hnil]
  · by_cases hb : isBlank c = true
    · simp [afterBlank, hb, hm.not_shape_of_isBlank hb]
    · cases whole <;> simp [afterBlank, hb]

/-- Nothing opens before an escape character. -/
theorem not_hit_escapeChar : ¬ (m.hit? whole (escapeChar :: cs)).isSome := by
  rw [hm.isSome_hit_iff]
  rintro (⟨x, rest, hcs, hx, -⟩ | ⟨-, hs⟩)
  · rw [← (List.cons.inj hcs).1] at hx
    revert hx
    decide
  · exact hm.not_shape_escapeChar hs

/-- What a hit covers: a shape, and the blank before it if it does not start the text. -/
theorem exists_of_hit {c : Char} {h : Hit} (hh : m.hit? whole (c :: cs) = some h) :
    ∃ lead w, h.escape (c :: cs.take (h.length - 1)) = lead ++ escapeChar :: w ∧
      shape? w = some w.length ∧ MayOpen whole lead = true ∧ (lead = [] ∨ lead = [c]) := by
  have hw : ∀ {cs n}, shape? cs = some n → ∃ d w, cs.take n = d :: w ∧
      shape? (d :: w) = some (d :: w).length ∧ (d :: w).length = n := by
    intro cs n hn
    obtain ⟨hle, hself⟩ := hm.alone hn
    obtain ⟨d, w, hdw, -⟩ := hm.head hself
    have hlen : (d :: w).length = n := by
      rw [← hdw, List.length_take]
      omega
    exact ⟨d, w, hdw, by rw [hlen, ← hdw]; exact hself, hlen⟩
  rw [hm.hit] at hh
  simp only [afterBlank] at hh
  split at hh
  · rename_i hb
    obtain ⟨n, hn, rfl⟩ := Option.map_eq_some_iff.1 hh
    obtain ⟨d, w, hdw, hself, -⟩ := hw hn
    refine ⟨[c], d :: w, ?_, hself, hb, Or.inr rfl⟩
    change insertEscapes [1] 0 (c :: cs.take n) = _
    rw [hdw]
    exact insertEscapes_append [c] d w 0
  · split at hh
    · rename_i hwhole
      obtain ⟨n, hn, rfl⟩ := Option.map_eq_some_iff.1 hh
      obtain ⟨d, w, hdw, hself, hlen⟩ := hw hn
      refine ⟨[], d :: w, ?_, hself, hwhole, Or.inl rfl⟩
      change insertEscapes [0] 0 (c :: cs.take (n - 1)) = _
      rw [← List.take_succ_cons, Nat.sub_add_cancel (by rw [← hlen]; simp), hdw]
      exact insertEscapes_append [] d w 0
    · cases hh

/-- Where nothing was found, escaping the rest of the text makes nothing that would be. -/
theorem not_hit_cons {c : Char} (h : m.hit? whole (c :: cs) = none) :
    ¬ (m.hit? whole (c :: m.escapeAll false cs)).isSome := by
  have hnot : ¬ (m.hit? whole (c :: cs)).isSome := by simp [h]
  rw [hm.isSome_hit_iff] at hnot ⊢
  rintro (⟨x, rest, hcs, hx, hs⟩ | ⟨hwhole, hs⟩)
  · obtain ⟨rfl, rfl⟩ := List.cons.inj hcs
    exact hnot (Or.inl ⟨c, cs, rfl, hx, hm.before hs⟩)
  · have hc : isBlank c ≠ true := fun hc => hm.not_shape_of_isBlank hc hs
    have hfalse : m.hit? false (c :: cs) = none := by
      rw [hm.hit]
      simp [afterBlank, hc]
    rw [← escapeAll_of_not_hit hfalse] at hs
    exact hnot (Or.inr ⟨hwhole, hm.before hs⟩)

theorem swallowed_of_hit (whole : Bool) (cs : List Char) : ∀ {a b : List Char},
    m.escapeAll whole cs = a ++ b → (m.hit? (whole && a.isEmpty) b).isSome →
    Swallowed shape? whole a b := by
  fun_induction Marker.escapeAll m whole cs with
  | case1 whole =>
    intro a b hsplit hhit
    obtain ⟨rfl, rfl⟩ := List.append_eq_nil_iff.1 hsplit.symm
    rw [hm.hit] at hhit
    cases hhit
  | case2 whole c cs h hh ih =>
    intro a b hsplit hhit
    obtain ⟨lead, w, hpiece, hself, hopen, hlead⟩ := hm.exists_of_hit hh
    rw [hpiece, List.append_assoc] at hsplit
    have hb : ∀ rest, b ≠ escapeChar :: rest := by
      rintro rest rfl
      exact hm.not_hit_escapeChar hhit
    -- Behind the blank the place stands within the shape, or the rest of the text is searched.
    have hbehind : ∀ a', a = lead ++ a' →
        escapeChar :: w ++ m.escapeAll false (cs.drop (h.length - 1)) = a' ++ b →
        Swallowed shape? whole a b := by
      rintro a' rfl hrest
      rcases swallowed_or_after hself hopen hrest hb with hin | ⟨a', rfl, hmore⟩
      · exact hin
      · rw [← List.append_assoc]
        refine (ih hmore ?_).append _
        have hne : (lead ++ (escapeChar :: w ++ a')).isEmpty = false := by simp
        rwa [hne, Bool.and_false] at hhit
    rcases hlead with rfl | rfl
    · exact hbehind a rfl hsplit
    · rcases a with _ | ⟨x, a⟩
      · -- What follows the blank begins with an escape character.
        rw [← List.nil_append b, ← hsplit, hm.isSome_hit_iff] at hhit
        rcases hhit with ⟨x, rest, hcs, -, hs⟩ | ⟨-, hs⟩
        · obtain ⟨-, rfl⟩ := List.cons.inj hcs
          exact absurd hs hm.not_shape_escapeChar
        · exact absurd hs (hm.not_shape_of_isBlank hopen)
      · obtain ⟨rfl, hrest⟩ := List.cons.inj hsplit
        exact hbehind a rfl hrest
  | case3 whole c cs hh ih =>
    intro a b hsplit hhit
    rcases a with _ | ⟨x, a⟩
    · rw [← List.nil_append b, ← hsplit, List.isEmpty_nil, Bool.and_true] at hhit
      exact absurd hhit (hm.not_hit_cons hh)
    · obtain ⟨rfl, hrest⟩ := List.cons.inj hsplit
      exact (ih hrest (by simpa using hhit)).append [c]

/-- Where a swallowed mark opens, the shape that swallows it takes in a blank. -/
theorem exists_of_swallowed (h : Swallowed shape? whole a b)
    (hhit : (m.hit? a.isEmpty b).isSome) : ∃ front inner x outer rest,
      a = front ++ escapeChar :: inner ∧ b = x :: outer ++ rest ∧ isBlank x = true ∧
        shape? (inner ++ x :: outer) = some (inner ++ x :: outer).length := by
  obtain ⟨front, inner, outer, rest, rfl, rfl, houter, -, hself⟩ := h
  obtain ⟨x, outer, rfl⟩ := List.exists_cons_of_ne_nil houter
  rcases hm.isSome_hit_iff.1 hhit with ⟨y, tail, hy, hblank, -⟩ | ⟨hempty, -⟩
  · rw [← (List.cons.inj hy).1] at hblank
    exact ⟨front, inner, x, outer, rest, rfl, rfl, hblank, hself⟩
  · simp at hempty

end Marker.Opens

/-! ### Under further escape characters -/

variable {K : List Char} {front : List Char} (hK : ∀ x ∈ K, isBlank x = false)
include hK

theorem mayOpen_of_inserts (h : Inserts K front a) (hopen : MayOpen whole front = true) :
    MayOpen whole a = true := by
  rcases front.eq_nil_or_concat with rfl | ⟨lead, x, rfl⟩
  · cases h
    exact hopen
  · rw [List.concat_eq_append] at h hopen
    have hx : isBlank x = true := by simpa [MayOpen] using hopen
    obtain ⟨c, d, rfl, -, hd⟩ := h.exists_of_append
    obtain ⟨e, rfl, he⟩ := hd.exists_of_cons fun hmem => by simp [hK x hmem] at hx
    cases he
    simpa [MayOpen] using hx

/-- What is swallowed stays so. -/
theorem Swallowed.inserts {a' b' : List Char} (hslash : escapeChar ∉ K)
    (hshape : ∀ {c d}, Inserts K c d → shape? c = some c.length → shape? d = some d.length)
    (h : Swallowed shape? whole a b) (ha : Inserts K a a') (hb : Inserts K b b') :
    Swallowed shape? whole a' b' := by
  obtain ⟨front, inner, outer, rest, rfl, rfl, houter, hopen, hself⟩ := h
  obtain ⟨front', tail, rfl, hfront, htail⟩ := ha.exists_of_append
  obtain ⟨inner', rfl, hinner⟩ := htail.exists_of_cons hslash
  obtain ⟨outer', rest', rfl, hout, -⟩ := hb.exists_of_append
  exact ⟨front', inner', outer', rest', rfl, rfl, hout.ne_nil houter,
    mayOpen_of_inserts hK hfront hopen, hshape (hinner.append hout) hself⟩

/-- Escape characters before other marks open none. -/
theorem Marker.Opens.exists_hit_of_inserts (hm : m.Opens shape?)
    (hshape : ∀ {c d}, Inserts K c d → (shape? d).isSome → (shape? c).isSome)
    (h : Inserts K cs (a ++ b)) (hhit : (m.hit? a.isEmpty b).isSome) :
    ∃ c d, cs = c ++ d ∧ Inserts K c a ∧ Inserts K d b ∧ (m.hit? c.isEmpty d).isSome := by
  rcases hm.isSome_hit_iff.1 hhit with ⟨x, rest, rfl, hx, hs⟩ | ⟨hwhole, hs⟩
  · have hmem : x ∉ K := fun hmem => by simp [hK x hmem] at hx
    obtain ⟨c, d, rfl, hc, hd⟩ := h.exists_of_keep (Marker.ne_escapeChar_of_isBlank hx) hmem
    exact ⟨c, x :: d, rfl, hc, .keep x hd,
      hm.isSome_hit_iff.2 (Or.inl ⟨x, d, rfl, hx, hshape hd hs⟩)⟩
  · rw [List.isEmpty_iff] at hwhole
    subst hwhole
    exact ⟨[], cs, rfl, .nil, h, hm.isSome_hit_iff.2 (Or.inr ⟨rfl, hshape h hs⟩)⟩

end Openings

/-! ## Emphasis -/

namespace Marker

/-- One to three marks of emphasis, and a character they may stand before. -/
structure IsEmphasized (run : List Char) (c : Char) : Prop where
  marks : ∀ d ∈ run, isEmphasis d = true
  length : 1 ≤ run.length ∧ run.length ≤ 3
  next : isEmphasis c = false
  blank : isBlank c = false

section Emphasis

variable {cs : List Char} {n : Nat} {c : Char}

theorem isBlank_of_isEmphasis (h : isEmphasis c = true) : isBlank c = false := by
  simp only [isEmphasis, Bool.or_eq_true, beq_iff_eq] at h
  rcases h with rfl | rfl <;> decide

theorem emphasisLength?_eq_some : emphasisLength? cs = some n ↔
    ∃ run c rest, cs = run ++ c :: rest ∧ IsEmphasized run c ∧ n = run.length + 1 := by
  constructor
  · intro h
    unfold emphasisLength? at h
    rw [List.span_eq_takeWhile_dropWhile] at h
    split at h
    · rename_i run c rest hrun
      obtain ⟨hrun, hrest⟩ := Prod.mk.inj hrun
      split at h
      · rename_i hlen
        have hnext : isEmphasis c = false := by
          have hc := List.head?_dropWhile_not isEmphasis cs
          rw [hrest] at hc
          simpa using hc
        refine ⟨run, c, rest, ?_, ⟨?_, ⟨hlen.1, hlen.2.1⟩, hnext, by simpa using hlen.2.2⟩, ?_⟩
        · rw [← hrun, ← hrest, List.takeWhile_append_dropWhile]
        · intro d hd
          rw [← hrun] at hd
          exact List.mem_takeWhile_imp hd
        · cases h
          rfl
      · cases h
    · cases h
  · rintro ⟨run, c, rest, rfl, ⟨hmarks, hlen, hnext, hblank⟩, rfl⟩
    unfold emphasisLength?
    rw [span_of_forall hmarks hnext]
    simp [hlen.1, hlen.2, hblank]

theorem IsEmphasized.isBlank {run : List Char} (h : IsEmphasized run c) :
    ∀ d ∈ run ++ [c], isBlank d = false := by
  intro d hd
  rcases List.mem_append.1 hd with hd | hd
  · exact isBlank_of_isEmphasis (h.marks d hd)
  · rw [List.mem_singleton.1 hd]
    exact h.blank

/-- Emphasis that opens takes in no blank. -/
theorem isBlank_of_emphasisLength? (h : emphasisLength? cs = some cs.length) :
    ∀ c ∈ cs, isBlank c = false := by
  obtain ⟨run, c, rest, rfl, hem, hlen⟩ := emphasisLength?_eq_some.1 h
  have hrest : rest = [] := by simpa using hlen
  rw [hrest]
  exact hem.isBlank

theorem opens_emphasis : emphasis.Opens emphasisLength? where
  hit := rfl
  head h := by
    obtain ⟨-, c, rest, rfl, hne, hc⟩ := emphasisLength?_some h
    refine ⟨c, rest, rfl, ?_, hne⟩
    simp only [List.mem_cons, List.not_mem_nil, or_false] at hc
    rcases hc with rfl | rfl <;> decide
  alone h := by
    obtain ⟨run, c, rest, rfl, hem, rfl⟩ := emphasisLength?_eq_some.1 h
    refine ⟨by simp, emphasisLength?_eq_some.2 ⟨run, c, [], ?_, hem, rfl⟩⟩
    rw [List.append_cons, List.take_append_of_le_length (by simp), List.take_of_length_le (by simp)]
  before h := by
    obtain ⟨n, hn⟩ := Option.isSome_iff_exists.1 h
    obtain ⟨run, c, rest, hcs, hem, -⟩ := emphasisLength?_eq_some.1 hn
    rw [List.append_cons] at hcs
    obtain ⟨rest', rfl, -⟩ := exists_of_escapeAll_eq_append rfl hem.isBlank hcs
    rw [← List.append_cons]
    exact Option.isSome_iff_exists.2 ⟨_, emphasisLength?_eq_some.2 ⟨run, c, rest', rfl, hem, rfl⟩⟩

theorem isSome_emphasisLength?_of_inserts {K a b : List Char}
    (hK : ∀ x ∈ K, isEmphasis x = false ∧ isBlank x = false) (h : Inserts K a b)
    (hb : (emphasisLength? b).isSome) : (emphasisLength? a).isSome := by
  obtain ⟨n, hn⟩ := Option.isSome_iff_exists.1 hb
  obtain ⟨run, c, rest, rfl, hem, -⟩ := emphasisLength?_eq_some.1 hn
  have hkeep : ∀ d ∈ run, d ≠ escapeChar ∧ d ∉ K := by
    intro d hd
    have hmark := hem.marks d hd
    refine ⟨?_, fun hmem => by simp [(hK d hmem).1] at hmark⟩
    rintro rfl
    revert hmark
    decide
  obtain ⟨tail, rfl, htail⟩ := h.exists_of_forall_keep hkeep
  -- An escape character may stand where the character after the marks stood.
  obtain ⟨d, tail', rfl, hnext, hblank⟩ : ∃ d tail', tail = d :: tail' ∧ isEmphasis d = false ∧
      isBlank d = false := by
    cases htail with
    | keep _ _ => exact ⟨c, _, rfl, hem.next, hem.blank⟩
    | escape hmem _ => exact ⟨_, _, rfl, hK _ hmem⟩
  exact Option.isSome_iff_exists.2
    ⟨_, emphasisLength?_eq_some.2 ⟨run, d, tail', rfl, ⟨hem.marks, hem.length, hnext, hblank⟩, rfl⟩⟩

end Emphasis

end Marker

end Markwright.Escape
