import Mathlib.Data.List.TakeDrop
import Mathlib.Data.List.TakeWhile
import Markwright.Proofs.Reading

/-!
# Escaping loses nothing

The ten rules run one after the other, each on what the last one made. No rule puts an escape
character before one that is protected: the marks that a rule looks for are protected by no rule
before it, or they stand after a blank or at the start of the text, where nothing is protected. So
each character of a text is escaped once at most (`stage_eq_spell`, `protectsMore_marks`), and
reading the escaped text gives the text back (`markdown_lossless`).
-/

namespace Markwright.Escape

open Text (isBlank)

/-! ## What the markers mark -/

namespace Marker

theorem ne_escapeChar_of_isBlank {c : Char} (h : isBlank c = true) : c ≠ escapeChar := by
  rintro rfl
  revert h
  decide

theorem safe_dashes {E : List Char} (hE : '-' ∉ E) : dashes.Safe E ['-'] := by
  constructor
  intro whole p cs h _ hw hh
  have hd : ∀ {cs : List Char}, Within E p ('-' :: cs) → IsBare ['-'] p ('-' :: cs) 0 :=
    fun hw => hw.isBare hE (by decide) (by simp)
  simp only [dashes] at hh
  split at hh
  · cases hh
    refine ⟨by simp, fun i hi => ?_⟩
    simp only [List.filterMap_cons, id, List.filterMap_nil, List.mem_cons, List.not_mem_nil,
      or_false] at hi
    rcases hi with rfl | rfl
    · exact ⟨by simp, hd hw⟩
    · refine ⟨by simp, ?_⟩
      rw [IsBare, opens_of_ne (by decide)]
      exact ⟨rfl, by decide, by simp⟩
  · cases hh
    refine ⟨by simp, fun i hi => ?_⟩
    obtain rfl : i = 0 := by simpa using hi
    exact ⟨by simp, hd hw⟩
  · cases hh

theorem exists_of_label_hit {whole : Bool} {c : Char} {rest : List Char} {h : Hit}
    (hh : label.hit? whole (c :: rest) = some h) :
    c ∈ ['#', '!', '['] ∧ ∃ n, 0 < n ∧ h = ⟨n, [some 0]⟩ := by
  simp only [label] at hh
  obtain ⟨hb, hsome⟩ := Option.ite_none_left_eq_some.1 hh
  refine ⟨?_, _, ?_, (Option.some.inj hsome).symm⟩
  · by_cases hm : (c == '#' || c == '!') = true
    · simp only [Bool.or_eq_true, beq_iff_eq] at hm
      rcases hm with rfl | rfl <;> simp
    · rw [if_neg hm, List.takeWhile_cons] at hb
      split at hb
      · rename_i h; simp [beq_iff_eq.1 h]
      · simp at hb
  · rw [List.isEmpty_iff, ← List.length_eq_zero_iff] at hb
    omega

theorem safe_label {E : List Char} (hE : ∀ c ∈ ['#', '!', '['], c ∉ E) :
    label.Safe E ['#', '!', '['] := by
  constructor
  intro whole p cs h _ hw hh
  rcases cs with _ | ⟨c, rest⟩
  · cases hh
  obtain ⟨hc, n, hn, rfl⟩ := exists_of_label_hit hh
  refine ⟨by simp, fun i hi => ?_⟩
  obtain rfl : i = 0 := by simpa using hi
  refine ⟨hn, hw.isBare (hE c hc) ?_ hc⟩
  rintro rfl
  simp [escapeChar] at hc

theorem exists_of_codeSpan_hit {whole : Bool} {c : Char} {rest : List Char} {h : Hit}
    (hh : codeSpan.hit? whole (c :: rest) = some h) : c = tick ∧ ∃ n, h = ⟨n + 1, [some 0]⟩ := by
  simp only [codeSpan] at hh
  split at hh
  · rename_i hc
    refine ⟨hc, ?_⟩
    split at hh
    · cases hh
      exact ⟨_, rfl⟩
    · obtain ⟨n, -, rfl⟩ := Option.map_eq_some_iff.1 hh
      exact ⟨n, rfl⟩
  · cases hh

theorem safe_codeSpan {E : List Char} (hE : tick ∉ E) : codeSpan.Safe E [tick] := by
  constructor
  intro whole p cs h _ hw hh
  rcases cs with _ | ⟨c, rest⟩
  · cases hh
  obtain ⟨rfl, n, rfl⟩ := exists_of_codeSpan_hit hh
  refine ⟨by simp, fun i hi => ?_⟩
  obtain rfl : i = 0 := by simpa using hi
  exact ⟨Nat.succ_pos n, hw.isBare hE (by decide) (List.mem_singleton_self tick)⟩

/-- A mark after a blank or at the start of the text is bare, whatever is protected elsewhere. -/
theorem safe_afterBlank {shape? : List Char → Option Nat} {K : List Char} {source : String}
    (E : List Char) (hshape : ∀ {cs n}, shape? cs = some n →
      0 < n ∧ ∃ c rest, cs = c :: rest ∧ c ≠ escapeChar ∧ c ∈ K) :
    Safe ⟨source, 1, afterBlank shape?⟩ E K := by
  constructor
  intro whole p cs h hp _ hh
  rcases cs with _ | ⟨c, rest⟩
  · cases hh
  simp only [afterBlank] at hh
  split at hh
  · rename_i hb
    obtain ⟨n, hn, rfl⟩ := Option.map_eq_some_iff.1 hh
    obtain ⟨hpos, d, rest, rfl, hd, hK⟩ := hshape hn
    refine ⟨by simp, fun i hi => ?_⟩
    obtain rfl : i = 1 := by simpa using hi
    refine ⟨Nat.lt_add_of_pos_left hpos, ?_⟩
    rw [IsBare, opens_of_ne (ne_escapeChar_of_isBlank hb)]
    exact ⟨rfl, hd, hK⟩
  · split at hh
    · rename_i hwhole
      obtain ⟨n, hn, rfl⟩ := Option.map_eq_some_iff.1 hh
      obtain ⟨hpos, d, rest, heq, hd, hK⟩ := hshape hn
      refine ⟨by simp, fun i hi => ?_⟩
      obtain rfl : i = 0 := by simpa using hi
      refine ⟨hpos, ?_⟩
      rw [heq]
      exact ⟨hp hwhole, hd, hK⟩
    · cases hh

theorem emphasisLength?_some {cs : List Char} {n : Nat} (h : emphasisLength? cs = some n) :
    0 < n ∧ ∃ c rest, cs = c :: rest ∧ c ≠ escapeChar ∧ c ∈ ['*', '_'] := by
  rw [emphasisLength?, List.span_eq_takeWhile_dropWhile] at h
  split at h
  · rename_i run d rest hrun
    split at h
    · rename_i hlen
      cases h
      refine ⟨Nat.succ_pos _, ?_⟩
      rcases cs with _ | ⟨c, cs⟩
      · simp at hrun
      refine ⟨c, cs, rfl, ?_⟩
      have hc : isEmphasis c = true := by
        by_contra hc
        rw [List.takeWhile_cons, if_neg hc] at hrun
        simp only [Prod.mk.injEq] at hrun
        rw [← hrun.1] at hlen
        simp at hlen
      simp only [isEmphasis, Bool.or_eq_true, beq_iff_eq] at hc
      rcases hc with rfl | rfl <;> simp [escapeChar]
    · cases h
  · cases h

theorem scriptLength?_some {cs : List Char} {n : Nat} (h : scriptLength? cs = some n) :
    0 < n ∧ ∃ c rest, cs = c :: rest ∧ c ≠ escapeChar ∧ c ∈ ['^', '~'] := by
  rcases cs with _ | ⟨c, rest⟩
  · cases h
  simp only [scriptLength?] at h
  split at h
  · rename_i hc
    split at h
    · cases h
      refine ⟨Nat.succ_pos _, c, rest, rfl, ?_⟩
      rcases hc with rfl | rfl <;> simp [escapeChar]
    · cases h
  · cases h

theorem safe_emphasis (E : List Char) : emphasis.Safe E ['*', '_'] :=
  safe_afterBlank E emphasisLength?_some

theorem safe_script (E : List Char) : script.Safe E ['^', '~'] :=
  safe_afterBlank E scriptLength?_some

/-! ## Marks at the start of a line -/

theorem isBare_of_forall_ne {K lead rest : List Char} {c : Char}
    (hlead : ∀ d ∈ lead, d ≠ escapeChar) (hc : c ≠ escapeChar) (hK : c ∈ K) :
    IsBare K false (lead ++ c :: rest) lead.length := by
  rw [isBare_append, opensAfter_of_forall_ne hlead]
  exact ⟨rfl, hc, hK⟩

theorem forall_takeWhile_isBlank_ne (cs : List Char) :
    ∀ d ∈ cs.takeWhile isBlank, d ≠ escapeChar :=
  fun _ hd => ne_escapeChar_of_isBlank (List.mem_takeWhile_imp hd)

theorem safeFront_bullet : bullet.SafeFront ['*', '+', '-', ':', '~'] := by
  constructor
  intro cs length parts hh
  simp only [bullet, List.span_eq_takeWhile_dropWhile] at hh
  have hcs := List.takeWhile_append_dropWhile (p := isBlank) (l := cs)
  split at hh
  · rename_i c rest hrest
    split at hh
    · rename_i hc
      cases hh
      refine ⟨_, rfl, ?_⟩
      rw [hrest] at hcs
      have hmem : c ∈ ['*', '+', '-', ':', '~'] := by
        simp only [isBullet, Bool.and_eq_true] at hc
        simpa using hc.1
      conv => arg 3; rw [← hcs]
      refine isBare_of_forall_ne (forall_takeWhile_isBlank_ne cs) ?_ hmem
      rintro rfl
      simp [escapeChar] at hmem
    · cases hh
  · cases hh

theorem safeFront_number : number.SafeFront ['.'] := by
  constructor
  intro cs length parts hh
  simp only [number, List.span_eq_takeWhile_dropWhile] at hh
  have hcs := List.takeWhile_append_dropWhile (p := isBlank) (l := cs)
  set rest := cs.dropWhile isBlank
  have hrest := List.takeWhile_append_dropWhile (p := Char.isDigit) (l := rest)
  split at hh
  · rename_i tail htail
    split at hh
    · cases hh
      refine ⟨_, rfl, ?_⟩
      rw [htail] at hrest
      rw [← hrest, ← List.append_assoc] at hcs
      conv => arg 3; rw [← hcs]
      rw [← List.length_append]
      refine isBare_of_forall_ne ?_ (by decide) (by simp)
      intro d hd
      rcases List.mem_append.1 hd with hd | hd
      · exact forall_takeWhile_isBlank_ne cs d hd
      · rintro rfl
        have := List.mem_takeWhile_imp hd
        revert this
        decide
    · cases hh
  · cases hh

theorem isRuleChar_of_ruleUnits {cs : List Char} (h : (ruleUnits false cs).1 ≠ 0) :
    ∃ c rest, cs = c :: rest ∧ isRuleChar c = true := by
  rcases cs with _ | ⟨c, rest⟩
  · exact absurd rfl h
  refine ⟨c, rest, rfl, ?_⟩
  by_contra hc
  simp [ruleUnits, hc] at h

theorem safeFront_rule : rule.SafeFront ['=', '-', '*'] := by
  constructor
  intro cs length parts hh
  simp only [rule] at hh
  split at hh
  · rename_i hr
    cases hh
    simp only [Bool.true_and, Bool.and_eq_true, decide_eq_true_eq] at hr
    obtain ⟨c, rest, rfl, hc⟩ := isRuleChar_of_ruleUnits (by omega : (ruleUnits false cs).1 ≠ 0)
    refine ⟨0, rfl, rfl, ?_, ?_⟩
    · rintro rfl
      simp [isRuleChar, escapeChar] at hc
    · simp only [isRuleChar, Bool.or_eq_true, beq_iff_eq] at hc
      rcases hc with (rfl | rfl) | rfl <;> simp
  · cases hh

end Marker

/-! ## The ten rules -/

/-- The rules in the order in which they run. -/
def passes (ctx : Context) : List (List Char → List Char) := [
  escapeEach (· == escapeChar),
  guarded ctx.escapeSpaces (escapeEach fun c => c == ' ' || c == '\t'),
  fun cs => guarded (ctx.inLine && !Marker.isRule cs) (Marker.dashes.escapeAll true) cs,
  Marker.label.escapeAll true,
  guarded (ctx.inLine && ctx.onNewLine) escapeLineStart,
  guarded ctx.inTable (escapeEach (· == '|')),
  Marker.emphasis.escapeAll true,
  Marker.script.escapeAll true,
  Marker.codeSpan.escapeAll true,
  fun cs => escapedSchemes.foldl (fun cs scheme => escapeScheme scheme.toList cs) cs]

/-- The text after the first `k` rules. -/
def stage (ctx : Context) (k : Nat) (cs : List Char) : List Char :=
  ((passes ctx).take k).foldl (fun cs pass => pass cs) cs

/-- The characters of the text, each with whether the first `k` rules escaped it. -/
def marks (ctx : Context) (cs : List Char) : Nat → List (Char × Bool)
  | 0 => cs.map (·, false)
  | k + 1 => reading false (stage ctx (k + 1) cs)

/-- At every stage the text has one escape character before each marked character and no other,
and the next rule takes no mark away. So a rule escapes only what no rule before it did. -/
def EscapesOnce (ctx : Context) (cs : List Char) : Prop :=
  ∀ k < 10, ProtectsMore (marks ctx cs k) (marks ctx cs (k + 1)) ∧
    stage ctx (k + 1) cs = spell (marks ctx cs (k + 1))

/-- When only characters of `E` are protected, the rule escapes bare characters of `K` only. -/
def KeepsTo (E K : List Char) (pass : List Char → List Char) : Prop :=
  ∀ cs, Within E false cs → Refines K false cs (pass cs)

/-- Each rule keeps to bare characters, told what `E` and the rules before it may protect. -/
inductive KeepApart : List Char → List (List Char → List Char) → Prop
  | nil (E : List Char) : KeepApart E []
  | cons {E : List Char} (K : List Char) {pass : List Char → List Char}
    {rest : List (List Char → List Char)} :
    KeepsTo E K pass → KeepApart (E ++ K) rest → KeepApart E (pass :: rest)

section Passes

variable {E K L : List Char} {pass : List Char → List Char}

theorem Marker.Safe.keepsTo {m : Marker} (h : m.Safe E K) : KeepsTo E K (m.escapeAll true) :=
  fun cs hE => h.refines_escapeAll true false cs (fun _ => rfl) hE

theorem keepsTo_guarded (b : Bool) (h : KeepsTo E K pass) : KeepsTo E K (guarded b pass) := by
  intro cs hE
  cases b
  · exact Refines.refl K false cs
  · exact h cs hE

theorem refines_escapeWhenStarts {c : Char} (hc : c ≠ escapeChar) (cs : List Char) :
    Refines [c] false cs (escapeWhenStarts [c] cs) := by
  rw [escapeWhenStarts]
  split
  · rename_i h
    obtain ⟨rest, rfl⟩ := List.isPrefixOf_iff_prefix.1 h
    exact Refines.escape hc (List.mem_singleton_self c) (Refines.refl [c] false rest)
  · exact Refines.refl [c] false cs

/-- What may be escaped at the start of a line. -/
def lineMarks : List Char := ['*', '+', '-', ':', '~', '.', '=', '#', '>']

theorem keepsTo_escapeLineStart (E : List Char) : KeepsTo E lineMarks escapeLineStart := by
  intro cs _
  have hfront : ∀ {m : Marker} {K : List Char}, m.SafeFront K → (∀ c ∈ K, c ∈ lineMarks) →
      ∀ cs, Refines lineMarks false cs (m.escapeFront cs) :=
    fun hm hK cs => (hm.refines_escapeFront cs).mono hK
  have hstart : ∀ {c : Char}, c ≠ escapeChar → c ∈ lineMarks →
      ∀ cs, Refines lineMarks false cs (escapeWhenStarts [c] cs) :=
    fun hc hK cs => (refines_escapeWhenStarts hc cs).mono (by simpa using hK)
  have hbullet := hfront Marker.safeFront_bullet (by simp [lineMarks]) cs
  have hnumber := hbullet.trans (hfront Marker.safeFront_number (by simp [lineMarks]) _)
  have hrule := hnumber.trans (hfront Marker.safeFront_rule (by simp [lineMarks]) _)
  have hhash := hrule.trans (hstart (c := '#') (by decide) (by decide) _)
  exact hhash.trans (hstart (c := '>') (by decide) (by decide) _)

theorem indexOf?_some {part : List Char} : ∀ {cs : List Char} {i : Nat},
    indexOf? part cs = some i → ∃ a b, cs = a ++ part ++ b ∧ a.length = i
  | [], i, h => by
    rw [indexOf?] at h
    split at h
    · rename_i hp
      cases h
      exact ⟨[], [], by simpa using hp, rfl⟩
    · cases h
  | c :: cs, i, h => by
    rw [indexOf?] at h
    split at h
    · rename_i hp
      cases h
      obtain ⟨b, hb⟩ := List.isPrefixOf_iff_prefix.1 hp
      exact ⟨[], b, hb.symm, rfl⟩
    · obtain ⟨j, hj, rfl⟩ := Option.map_eq_some_iff.1 h
      obtain ⟨a, b, rfl, rfl⟩ := indexOf?_some hj
      exact ⟨c :: a, b, rfl, rfl⟩

/-- The colon of a scheme stands after a letter. -/
theorem refines_escapeScheme {scheme : List Char} (lead : List Char) (c : Char)
    (hs : scheme = lead ++ [c] ++ [':']) (hc : c ≠ escapeChar) (cs : List Char) :
    Refines [':'] false cs (escapeScheme scheme cs) := by
  rw [escapeScheme]
  split
  · rename_i i hi
    obtain ⟨a, b, rfl, rfl⟩ := indexOf?_some hi
    rw [if_neg (by simp [hs])]
    refine refines_insertEscapes (by simp) fun j hj => ?_
    obtain rfl := List.mem_singleton.1 hj
    refine ⟨Nat.zero_le _, ?_⟩
    have hlen : a.length + scheme.length - 1 - 0 = (a ++ lead ++ [c]).length := by
      simp only [hs, List.length_append, List.length_singleton]
      omega
    have hsplit : a ++ scheme ++ b = (a ++ lead ++ [c]) ++ (':' :: b) := by simp [hs]
    rw [hlen, hsplit, isBare_append, opensAfter_concat _ _ hc]
    exact ⟨rfl, by decide, List.mem_singleton_self _⟩
  · exact Refines.refl _ _ _

theorem keepsTo_schemes (E : List Char) : KeepsTo E [':'] fun cs =>
    escapedSchemes.foldl (fun cs scheme => escapeScheme scheme.toList cs) cs := by
  intro cs _
  have himage := refines_escapeScheme "imag".toList 'e' rfl (by decide) cs
  have hattach := himage.trans (refines_escapeScheme "attac".toList 'h' rfl (by decide) _)
  exact hattach.trans (refines_escapeScheme "mailt".toList 'o' rfl (by decide) _)

/-- The rules after the first, which protects the escape character itself. -/
theorem keepApart_passes (ctx : Context) : KeepApart [escapeChar] (passes ctx).tail := by
  have hspaces : KeepsTo [escapeChar] [' ', '\t'] (escapeEach fun c => c == ' ' || c == '\t') := by
    refine fun cs => refines_escapeEach ?_ ?_ ?_ false cs <;> intro c hc <;>
      simp only [Bool.or_eq_true, beq_iff_eq] at hc <;> rcases hc with rfl | rfl <;> decide
  have hbars : ∀ E, '|' ∉ E → KeepsTo E ['|'] (escapeEach (· == '|')) := by
    intro E hE cs
    refine refines_escapeEach ?_ ?_ ?_ false cs <;> intro c hc <;>
      obtain rfl := beq_iff_eq.1 hc
    · simp
    · exact hE
    · decide
  refine .cons _ (keepsTo_guarded _ hspaces) (.cons ['-'] ?_ (.cons ['#', '!', '['] ?_
    (.cons lineMarks ?_ (.cons ['|'] ?_ (.cons ['*', '_'] ?_ (.cons ['^', '~'] ?_
    (.cons [Marker.tick] ?_ (.cons [':'] ?_ (.nil _)))))))))
  · intro cs
    exact keepsTo_guarded _ (Marker.safe_dashes (by decide)).keepsTo cs
  · exact (Marker.safe_label (by simp [escapeChar])).keepsTo
  · exact keepsTo_guarded _ (keepsTo_escapeLineStart _)
  · exact keepsTo_guarded _ (hbars _ (by decide))
  · exact (Marker.safe_emphasis _).keepsTo
  · exact (Marker.safe_script _).keepsTo
  · exact (Marker.safe_codeSpan (by decide)).keepsTo
  · exact keepsTo_schemes _

/-- The text is at rest after every rule, and no rule takes a mark away. -/
theorem KeepApart.stages {rules : List (List Char → List Char)} (h : KeepApart E rules) :
    ∀ {cs : List Char}, Within E false cs → opensAfter false cs = false → ∀ k,
      let after := fun k => (rules.take k).foldl (fun cs pass => pass cs) cs
      opensAfter false (after k) = false ∧
        ProtectsMore (reading false (after k)) (reading false (after (k + 1))) := by
  induction h with
  | nil =>
    intro cs _ hr k
    refine ⟨by simpa using hr, ?_⟩
    simpa using (Refines.refl [] false cs).protectsMore
  | cons K hpass _ ih =>
    intro cs hE hr k
    have href := hpass cs hE
    cases k with
    | zero => exact ⟨hr, by simpa using href.protectsMore⟩
    | succ k => exact ih (href.within hE) (href.rest.trans hr) k

theorem reading_double : ∀ cs : List Char,
    opensAfter false (escapeEach (· == escapeChar) cs) = false ∧
      reading false (escapeEach (· == escapeChar) cs) = cs.map fun c => (c, c == escapeChar)
  | [] => ⟨rfl, rfl⟩
  | c :: cs => by
    obtain ⟨hr, hread⟩ := reading_double cs
    rw [escapeEach_cons, List.map_cons]
    by_cases hc : c = escapeChar
    · subst hc
      simp only [beq_self_eq_true, if_true, List.cons_append, List.nil_append, opensAfter,
        reading, opens_escapeChar, opens_true, Bool.false_eq_true, if_false]
      exact ⟨hr, by rw [hread]⟩
    · have hb : (c == escapeChar) = false := beq_false_of_ne hc
      simp only [hb, Bool.false_eq_true, if_false, List.cons_append, List.nil_append]
      rw [opensAfter_of_ne hc, reading_of_ne hc, hread]
      exact ⟨hr, rfl⟩

end Passes

/-! ## Nothing is lost -/

section Lossless

variable (ctx : Context) (cs : List Char)

theorem stage_succ (k : Nat) : stage ctx (k + 1) cs =
    ((passes ctx).tail.take k).foldl (fun cs pass => pass cs)
      (escapeEach (· == escapeChar) cs) := rfl

theorem stages_spec (k : Nat) :
    opensAfter false (stage ctx (k + 1) cs) = false ∧
      ProtectsMore (marks ctx cs (k + 1)) (marks ctx cs (k + 2)) := by
  obtain ⟨hr, hread⟩ := reading_double cs
  refine (keepApart_passes ctx).stages ?_ hr k
  intro m hm ht
  rw [hread] at hm
  obtain ⟨c, -, rfl⟩ := List.mem_map.1 hm
  simpa using ht

theorem protectsMore_marks : ∀ k, ProtectsMore (marks ctx cs k) (marks ctx cs (k + 1))
  | k + 1 => (stages_spec ctx cs k).2
  | 0 => by
    have hread := (reading_double cs).2
    rw [ProtectsMore, marks, marks, stage_succ, List.take_zero, List.foldl_nil, hread,
      List.forall₂_map_left_iff, List.forall₂_map_right_iff]
    exact List.forall₂_same.2 fun _ _ => ⟨rfl, by simp⟩

theorem stage_eq_spell (k : Nat) : stage ctx (k + 1) cs = spell (marks ctx cs (k + 1)) :=
  (spell_reading _ (stages_spec ctx cs k).1).symm

theorem map_fst_marks : ∀ k, (marks ctx cs k).map Prod.fst = cs
  | 0 => by simp [marks, Function.comp_def]
  | k + 1 => by
    have h := protectsMore_marks ctx cs k
    have heq : (marks ctx cs (k + 1)).map Prod.fst = (marks ctx cs k).map Prod.fst := by
      rw [← List.forall₂_eq_eq_eq, List.forall₂_map_left_iff, List.forall₂_map_right_iff]
      exact h.flip.imp fun _ _ hm => hm.1
    rw [heq]
    exact map_fst_marks k

theorem escapeSpan_eq_stage : escapeSpan ctx cs = stage ctx 10 cs := rfl

theorem unescape?_escapeSpan : unescape? (escapeSpan ctx cs) = some cs := by
  rw [escapeSpan_eq_stage, unescape?_eq, (stages_spec ctx cs 9).1]
  exact congrArg some (map_fst_marks ctx cs 10)

theorem escapeSpan_nil : escapeSpan ctx [] = [] := by
  have h := stage_eq_spell ctx [] 9
  rw [← escapeSpan_eq_stage] at h
  rw [h, List.map_eq_nil_iff.1 (map_fst_marks ctx [] 10)]
  rfl

theorem toList_markdown (s : String) : (markdown ctx s).toList = escapeSpan ctx s.toList := by
  rw [markdown]
  split
  · rename_i h
    obtain rfl := String.isEmpty_iff.1 h
    exact (escapeSpan_nil ctx).symm
  · exact String.toList_ofList

theorem markdown_lossless :
    (∀ s, unescape? (markdown ctx s).toList = some s.toList) ∧
      (∀ s, (markdown ctx s).toList = stage ctx 10 s.toList ∧ EscapesOnce ctx s.toList) ∧
      Function.Injective (markdown ctx) := by
  have hread : ∀ s, unescape? (markdown ctx s).toList = some s.toList := by
    intro s
    rw [toList_markdown, unescape?_escapeSpan]
  refine ⟨hread, fun s => ⟨toList_markdown ctx s, fun k _ => ?_⟩, fun s t hst => ?_⟩
  · exact ⟨protectsMore_marks ctx s.toList k, stage_eq_spell ctx s.toList k⟩
  · have h := hread s
    rw [hst, hread t, Option.some.injEq] at h
    exact String.toList_inj.1 h.symm

end Lossless

end Markwright.Escape
