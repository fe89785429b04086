import Markwright.Proofs.Escaping

/-!
# What an escaped text does not start with

A line of a paragraph is told from a heading, a rule and an item by how it starts. A rule of
escaping never takes a mark away, so where the escaped text starts with characters that are not
escaped, it did so when the marks at the start of a line were looked for
(`exists_stage_eq_append`), and those of a block were escaped there.
-/

namespace Markwright.Escape

open Text (isBlank)

/-! ## Characters of an escaped text -/

section Span

variable {ctx : Context} {cs : List Char} {c : Char}

theorem mem_spell {m : List (Char × Bool)} (h : c ∈ spell m) :
    c = escapeChar ∨ c ∈ m.map Prod.fst := by
  obtain ⟨x, hx, hc⟩ := List.mem_flatMap.1 h
  have hfst : x.1 ∈ m.map Prod.fst := List.mem_map_of_mem hx
  split at hc
  · simp only [List.mem_cons, List.not_mem_nil, or_false] at hc
    rcases hc with rfl | rfl
    · exact Or.inl rfl
    · exact Or.inr hfst
  · obtain rfl := List.mem_singleton.1 hc
    exact Or.inr hfst

theorem mem_escapeSpan (h : c ∈ escapeSpan ctx cs) : c = escapeChar ∨ c ∈ cs := by
  rw [escapeSpan_eq_stage, stage_eq_spell] at h
  have hc := mem_spell h
  rwa [map_fst_marks] at hc

theorem break_not_mem_escapeSpan (ctx : Context) (h : '\n' ∉ cs) : '\n' ∉ escapeSpan ctx cs := by
  intro hc
  rcases mem_escapeSpan hc with hc | hc
  · exact absurd hc (by decide)
  · exact h hc

theorem escapeSpan_ne_nil (ctx : Context) (h : cs ≠ []) : escapeSpan ctx cs ≠ [] := by
  intro hnil
  have hread := unescape?_escapeSpan ctx cs
  rw [hnil, unescape?, Option.some.injEq] at hread
  exact h hread.symm

end Span

/-! ## Stages that start alike -/

theorem ProtectsMore.trans {a b c : List (Char × Bool)} (h : ProtectsMore a b)
    (k : ProtectsMore b c) : ProtectsMore a c := by
  unfold ProtectsMore at h k ⊢
  induction h generalizing c with
  | nil => exact k
  | cons h1 _ ih =>
    obtain ⟨x, c, hx, hc, rfl⟩ := List.forall₂_cons_left_iff.1 k
    exact List.Forall₂.cons ⟨hx.1.trans h1.1, fun h => hx.2 (h1.2 h)⟩ (ih hc)

theorem protectsMore_marks_of_le (ctx : Context) (cs : List Char) {i j : Nat} (h : i ≤ j) :
    ProtectsMore (marks ctx cs i) (marks ctx cs j) := by
  induction h with
  | refl => exact List.forall₂_same.2 fun _ _ => ⟨rfl, id⟩
  | step _ ih => exact ih.trans (protectsMore_marks ctx cs _)

/-- Characters at the front that are not escaped were not escaped before. -/
theorem exists_spell_eq_append : ∀ {front rest : List Char} {a b : List (Char × Bool)},
    ProtectsMore a b → (∀ c ∈ front, c ≠ escapeChar) → spell b = front ++ rest →
    ∃ a' b', spell a = front ++ spell a' ∧ spell b' = rest ∧ ProtectsMore a' b'
  | [], _, a, b, h, _, hb => ⟨a, b, rfl, hb, h⟩
  | c :: front, rest, a, b, h, hfront, hb => by
    rcases h with _ | @⟨m, n, a, b, hmn, h⟩
    · cases hb
    obtain ⟨d, marked⟩ := n
    have hspell : spell ((d, marked) :: b) = (if marked then [escapeChar, d] else [d]) ++ spell b :=
      List.flatMap_cons
    rw [hspell] at hb
    cases marked with
    | true =>
      obtain ⟨hc, -⟩ := List.cons.inj hb
      exact absurd hc.symm (hfront c (by simp))
    | false =>
      obtain ⟨rfl, htail⟩ := List.cons.inj hb
      have hm : m = (d, false) := by
        obtain ⟨e, marked⟩ := m
        obtain ⟨hde, hmarked⟩ := hmn
        cases marked with
        | true => exact absurd (hmarked rfl) Bool.false_ne_true
        | false => exact congrArg (·, false) hde.symm
      obtain ⟨a', b', ha, hb', h'⟩ :=
        exists_spell_eq_append h (fun c hc => hfront c (by simp [hc])) htail
      refine ⟨a', b', ?_, hb', h'⟩
      rw [hm, spell, List.flatMap_cons, ← spell, ha]
      rfl

/-- Where an escaped text starts with characters that are not escaped, so did all stages. -/
theorem exists_stage_eq_append {ctx : Context} {cs front rest : List Char} {k : Nat} (hk : k < 10)
    (hfront : ∀ c ∈ front, c ≠ escapeChar) (h : escapeSpan ctx cs = front ++ rest) :
    ∃ rest', stage ctx (k + 1) cs = front ++ rest' ∧ (rest = [] → rest' = []) := by
  rw [escapeSpan_eq_stage, stage_eq_spell] at h
  obtain ⟨a, b, ha, hb, hab⟩ :=
    exists_spell_eq_append (protectsMore_marks_of_le ctx cs (Nat.succ_le_of_lt hk)) hfront h
  refine ⟨spell a, (stage_eq_spell ctx cs k).trans ha, fun hr => ?_⟩
  rw [hr] at hb
  rcases hab with _ | @⟨m, n, a, b, -, -⟩
  · rfl
  · rw [spell, List.flatMap_cons] at hb
    split at hb <;> cases hb

/-! ## The marks of a block -/

section LineStart

variable {c : Char} {cs : List Char}

theorem escapeFront_of_hit?_eq_none {m : Marker} (h : m.hit? true cs = none) :
    m.escapeFront cs = cs := by
  rw [Marker.escapeFront, h]

theorem escapeFront_bullet_of_not (hb : isBlank c = false) (hc : Marker.isBullet c = false) :
    Marker.bullet.escapeFront (c :: cs) = c :: cs := by
  refine escapeFront_of_hit?_eq_none ?_
  simp [Marker.bullet, List.span_eq_takeWhile_dropWhile, hb, hc]

theorem escapeFront_number_of_not (hb : isBlank c = false) (hc : c.isDigit = false) :
    Marker.number.escapeFront (c :: cs) = c :: cs := by
  refine escapeFront_of_hit?_eq_none ?_
  simp only [Marker.number, List.span_eq_takeWhile_dropWhile, List.dropWhile_cons, hb, hc,
    List.takeWhile_cons, Bool.false_eq_true, if_false]
  split <;> simp

theorem escapeFront_rule_of_not (hc : Marker.isRuleChar c = false) :
    Marker.rule.escapeFront (c :: cs) = c :: cs := by
  refine escapeFront_of_hit?_eq_none ?_
  simp [Marker.rule, Marker.ruleUnits, hc]

theorem escapeWhenStarts_of_ne {d : Char} (h : d ≠ c) :
    escapeWhenStarts [d] (c :: cs) = c :: cs := by
  rw [escapeWhenStarts, if_neg]
  simp [h]

theorem escapeLineStart_bullet (cs : List Char) :
    escapeLineStart ('*' :: ' ' :: cs) = escapeChar :: '*' :: ' ' :: cs := by
  have hbullet : Marker.bullet.escapeFront ('*' :: ' ' :: cs) = escapeChar :: '*' :: ' ' :: cs := by
    have hb : isBlank '*' = false := by decide
    have hc : Marker.isBullet '*' = true := by simp [Marker.isBullet]
    simp [Marker.escapeFront, Marker.bullet, hb, hc, Text.isBlank_space, insertEscapes]
  rw [escapeLineStart, hbullet, escapeFront_number_of_not (by decide) (by decide),
    escapeFront_rule_of_not (by decide), escapeWhenStarts_of_ne (by decide),
    escapeWhenStarts_of_ne (by decide)]

theorem escapeLineStart_number (cs : List Char) :
    escapeLineStart ('1' :: '.' :: ' ' :: cs) = '1' :: escapeChar :: '.' :: ' ' :: cs := by
  have hnumber : Marker.number.escapeFront ('1' :: '.' :: ' ' :: cs) =
      '1' :: escapeChar :: '.' :: ' ' :: cs := by
    have hb : isBlank '1' = false := by decide
    have hone : Char.isDigit '1' = true := by decide
    have hdot : Char.isDigit '.' = false := by decide
    simp [Marker.escapeFront, Marker.number, hb, hone, hdot, Text.isBlank_space, insertEscapes]
  rw [escapeLineStart, escapeFront_bullet_of_not (by decide) (by simp [Marker.isBullet]), hnumber,
    escapeFront_rule_of_not (by decide), escapeWhenStarts_of_ne (by decide),
    escapeWhenStarts_of_ne (by decide)]

theorem escapeLineStart_hash (cs : List Char) :
    escapeLineStart ('#' :: cs) = escapeChar :: '#' :: cs := by
  have hhash : escapeWhenStarts ['#'] ('#' :: cs) = escapeChar :: '#' :: cs := by
    simp [escapeWhenStarts]
  rw [escapeLineStart, escapeFront_bullet_of_not (by decide) (by simp [Marker.isBullet]),
    escapeFront_number_of_not (by decide) (by decide), escapeFront_rule_of_not (by decide), hhash,
    escapeWhenStarts_of_ne (by decide)]

theorem escapeLineStart_rule :
    escapeLineStart ['-', '-', '-'] = [escapeChar, '-', '-', '-'] := by
  have hbullet : Marker.bullet.escapeFront ['-', '-', '-'] = ['-', '-', '-'] := by
    refine escapeFront_of_hit?_eq_none ?_
    have hb : isBlank '-' = false := by decide
    simp [Marker.bullet, List.span_eq_takeWhile_dropWhile, hb]
  have hrule : Marker.rule.escapeFront ['-', '-', '-'] = [escapeChar, '-', '-', '-'] := by
    decide
  rw [escapeLineStart, hbullet, escapeFront_number_of_not (by decide) (by decide), hrule,
    escapeWhenStarts_of_ne (by decide), escapeWhenStarts_of_ne (by decide)]

end LineStart

/-! ## Lines of a paragraph -/

section Paragraph

variable {ctx : Context} {cs : List Char}

/-- At the start of a line a text does not start with a mark that is escaped there. -/
theorem escapeSpan_ne_append (front rest : List Char)
    (hline : ctx.inLine = true ∧ ctx.onNewLine = true) (hfront : ∀ c ∈ front, c ≠ escapeChar)
    (hmark : ∀ rest', (rest = [] → rest' = []) →
      ∀ more, escapeLineStart (front ++ rest') ≠ front ++ more) :
    escapeSpan ctx cs ≠ front ++ rest := by
  intro h
  obtain ⟨a, ha, hnil⟩ := exists_stage_eq_append (k := 3) (by omega) hfront h
  obtain ⟨b, hb, -⟩ := exists_stage_eq_append (k := 4) (by omega) hfront h
  have hstage : stage ctx 5 cs = escapeLineStart (stage ctx 4 cs) := by
    change guarded (ctx.inLine && ctx.onNewLine) escapeLineStart (stage ctx 4 cs) = _
    rw [hline.1, hline.2, Bool.and_self, guarded, if_pos rfl]
  rw [hstage, ha] at hb
  exact hmark a hnil b hb

/-- A paragraph is not taken for an item, a heading or a rule. -/
structure IsPlainLine (line : List Char) : Prop where
  bullet : ∀ rest, line ≠ '*' :: ' ' :: rest
  number : ∀ rest, line ≠ '1' :: '.' :: ' ' :: rest
  hash : ∀ rest, line ≠ '#' :: rest
  rule : line ≠ ['-', '-', '-']

theorem isPlainLine_escapeSpan (hline : ctx.inLine = true ∧ ctx.onNewLine = true)
    (cs : List Char) : IsPlainLine (escapeSpan ctx cs) := by
  constructor
  · intro rest
    refine escapeSpan_ne_append ['*', ' '] rest hline (by simp [escapeChar]) fun a _ b hab => ?_
    rw [List.cons_append, List.cons_append, escapeLineStart_bullet] at hab
    exact absurd (List.cons.inj hab).1 (by decide)
  · intro rest
    refine escapeSpan_ne_append ['1', '.', ' '] rest hline (by simp [escapeChar])
      fun a _ b hab => ?_
    rw [List.cons_append, List.cons_append, List.cons_append, escapeLineStart_number] at hab
    exact absurd (List.cons.inj (List.cons.inj hab).2).1 (by decide)
  · intro rest
    refine escapeSpan_ne_append ['#'] rest hline (by simp [escapeChar]) fun a _ b hab => ?_
    rw [List.cons_append, escapeLineStart_hash] at hab
    exact absurd (List.cons.inj hab).1 (by decide)
  · refine escapeSpan_ne_append ['-', '-', '-'] [] hline (by simp [escapeChar])
      fun a ha b hab => ?_
    rw [ha rfl, List.append_nil, escapeLineStart_rule] at hab
    exact absurd (List.cons.inj hab).1 (by decide)

end Paragraph

end Markwright.Escape
