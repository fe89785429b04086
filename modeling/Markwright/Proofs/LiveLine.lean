import Markwright.Proofs.Cutting
import Markwright.Proofs.LineStart

/-!
# Lines that start a block

A line is live when a reader takes it for an item, a rule or underline, a heading or a quotation.
Text that is escaped at the start of a line is not live (`not_isLive_escapeSpan`), however it
starts. With the two spaces of a hard break behind it, it is only when nothing but a bullet or a
number stands on it (`isLoneMark_of_isLive`): the spaces come after the marks were looked for.
-/

namespace Markwright.Escape

open Text (isBlank)

/-- The line is read as an item, a rule or underline, a heading or a quotation. -/
def IsLive (line : List Char) : Prop :=
  (Marker.bullet.hit? true line).isSome ∨ (Marker.number.hit? true line).isSome ∨
    (Marker.rule.hit? true line).isSome ∨ line.head? = some '#' ∨ line.head? = some '>'

instance (line : List Char) : Decidable (IsLive line) := inferInstanceAs (Decidable (_ ∨ _))

/-- Nothing but a bullet or a number with its point. -/
def IsLoneMark (line : List Char) : Prop := ∃ lead mark, line = lead ++ mark ∧
  (∀ c ∈ lead, isBlank c = true) ∧
  ((∃ b, mark = [b] ∧ Marker.isBullet b = true) ∨
    ∃ digits, mark = digits ++ ['.'] ∧ digits ≠ [] ∧ ∀ c ∈ digits, c.isDigit = true)

section Hits

variable {whole : Bool} {lead digits rest line : List Char} {b c g : Char}

/-- What holds of none of the five bullets does not hold of a bullet. -/
theorem not_of_isBullet {p : Char → Bool} (hp : ['*', '+', '-', ':', '~'].any p = false)
    (h : Marker.isBullet b = true) : p b = false := by
  have hb : b ∈ ['*', '+', '-', ':', '~'] := List.contains_iff_mem.1 h
  simpa using List.any_eq_false.1 hp b hb

theorem ne_of_isBullet (hc : Marker.isBullet c = false) (h : Marker.isBullet b = true) : b ≠ c := by
  rintro rfl
  rw [h] at hc
  cases hc

theorem isBlank_of_isBullet (h : Marker.isBullet b = true) : isBlank b = false :=
  not_of_isBullet (by decide) h

theorem isBlank_of_isDigit (h : c.isDigit = true) : isBlank c = false := by
  refine Bool.eq_false_iff.2 fun hb => ?_
  obtain ⟨hlow, hhigh⟩ := (Bool.and_eq_true _ _).mp h
  have hlow' : 48 ≤ c.toNat := UInt32.le_iff_toNat_le.1 (of_decide_eq_true hlow)
  have hhigh' : c.toNat ≤ 57 := UInt32.le_iff_toNat_le.1 (of_decide_eq_true hhigh)
  simp only [isBlank, Text.inRanges, Text.blankRanges, List.any_cons, List.any_nil,
    Bool.or_eq_true, Bool.and_eq_true, decide_eq_true_eq, Bool.or_false] at hb
  omega

theorem bullet_hit (hlead : ∀ c ∈ lead, isBlank c = true) (hb : Marker.isBullet b = true)
    (hg : isBlank g = true) : ∃ length,
      Marker.bullet.hit? whole (lead ++ b :: g :: rest) = some ⟨length, [some lead.length]⟩ := by
  refine ⟨lead.length + 1 + ((g :: rest).takeWhile isBlank).length, ?_⟩
  have hspan := @span_of_forall _ lead (g :: rest) b isBlank hlead (isBlank_of_isBullet hb)
  simp only [Marker.bullet, hspan]
  simp [hb, hg]

theorem number_hit (hlead : ∀ c ∈ lead, isBlank c = true) (hne : digits ≠ [])
    (hdigits : ∀ c ∈ digits, c.isDigit = true) (hg : isBlank g = true) : ∃ length,
      Marker.number.hit? whole (lead ++ digits ++ '.' :: g :: rest) =
        some ⟨length, [some (lead.length + digits.length)]⟩ := by
  obtain ⟨d, ds, rfl⟩ := List.exists_cons_of_ne_nil hne
  have hd : isBlank d = false := isBlank_of_isDigit (hdigits d (by simp))
  have hspan : (lead ++ (d :: ds) ++ '.' :: g :: rest).span isBlank =
      (lead, (d :: ds) ++ '.' :: g :: rest) := by
    rw [List.append_assoc, List.cons_append, span_of_forall hlead hd]
  have hdot : ((d :: ds) ++ '.' :: g :: rest).span Char.isDigit = (d :: ds, '.' :: g :: rest) :=
    span_of_forall hdigits (by decide)
  refine ⟨lead.length + (d :: ds).length + 1 + ((g :: rest).takeWhile isBlank).length, ?_⟩
  simp only [Marker.number, hspan, hdot]
  simp [hg]

theorem exists_of_bullet_hit (h : (Marker.bullet.hit? whole line).isSome) :
    ∃ lead b g rest, line = lead ++ b :: g :: rest ∧ (∀ c ∈ lead, isBlank c = true) ∧
      Marker.isBullet b = true ∧ isBlank g = true := by
  simp only [Marker.bullet, List.span_eq_takeWhile_dropWhile] at h
  have hline := List.takeWhile_append_dropWhile (p := isBlank) (l := line)
  split at h
  · rename_i b tail htail
    rw [htail] at hline
    split at h
    · rename_i hb
      rw [Bool.and_eq_true] at hb
      rcases tail with _ | ⟨g, rest⟩
      · simp at hb
      · refine ⟨_, b, g, rest, hline.symm, fun c hc => List.mem_takeWhile_imp hc, hb.1, ?_⟩
        by_contra hg
        simp [hg] at hb
    · cases h
  · cases h

theorem exists_of_number_hit (h : (Marker.number.hit? whole line).isSome) :
    ∃ lead digits g rest, line = lead ++ digits ++ '.' :: g :: rest ∧
      (∀ c ∈ lead, isBlank c = true) ∧ digits ≠ [] ∧ (∀ c ∈ digits, c.isDigit = true) ∧
      isBlank g = true := by
  simp only [Marker.number, List.span_eq_takeWhile_dropWhile] at h
  have hline := List.takeWhile_append_dropWhile (p := isBlank) (l := line)
  have hdigits := List.takeWhile_append_dropWhile (p := Char.isDigit) (l := line.dropWhile isBlank)
  split at h
  · rename_i tail htail
    rw [htail] at hdigits
    rw [← hdigits, ← List.append_assoc] at hline
    split at h
    · rename_i hd
      rw [Bool.and_eq_true] at hd
      rcases tail with _ | ⟨g, rest⟩
      · simp at hd
      · refine ⟨_, _, g, rest, hline.symm, fun c hc => List.mem_takeWhile_imp hc, ?_,
          fun c hc => List.mem_takeWhile_imp hc, ?_⟩
        · intro hnil
          simp [hnil] at hd
        · by_contra hg
          simp [hg] at hd
    · cases h
  · cases h

/-! ## The marks at the start of a line -/

theorem insertEscapes_append (lead : List Char) (c : Char) (rest : List Char) : ∀ i : Nat,
    insertEscapes [i + lead.length] i (lead ++ c :: rest) = lead ++ escapeChar :: c :: rest := by
  induction lead with
  | nil =>
    intro i
    cases rest <;> simp [insertEscapes]
  | cons d lead ih =>
    intro i
    have hne : i + (d :: lead).length ≠ i := by simp
    have hnext : i + (d :: lead).length = (i + 1) + lead.length := by
      rw [List.length_cons]
      omega
    rw [List.cons_append, insertEscapes, if_neg hne, hnext, ih (i + 1), List.cons_append]

theorem escapeFront_of_hit {m : Marker} {length : Nat}
    (h : m.hit? true (lead ++ c :: rest) = some ⟨length, [some lead.length]⟩) :
    m.escapeFront (lead ++ c :: rest) = lead ++ escapeChar :: c :: rest := by
  have hinsert := insertEscapes_append lead c rest 0
  rw [Nat.zero_add] at hinsert
  rw [Marker.escapeFront, h]
  exact hinsert

/-- What is neither a rule nor one of the two other marks is left as it is. -/
theorem escapeWhenStarts_of_not (hrule : Marker.isRuleChar c = false) (hhash : c ≠ '#')
    (hquote : c ≠ '>') : escapeWhenStarts ['>'] (escapeWhenStarts ['#']
      (Marker.rule.escapeFront (c :: rest))) = c :: rest := by
  rw [escapeFront_rule_of_not hrule, escapeWhenStarts_of_ne hhash.symm,
    escapeWhenStarts_of_ne hquote.symm]

/-- What holds of none of the other marks does not hold of one of them. -/
theorem not_mark {p : Char → Bool} (hp : ['=', '-', '*', '#', '>'].any p = false)
    (h : p c = true) : Marker.isRuleChar c = false ∧ c ≠ '#' ∧ c ≠ '>' := by
  have hne : ∀ d ∈ ['=', '-', '*', '#', '>'], c ≠ d := by
    rintro d hd rfl
    exact List.any_eq_false.1 hp c hd h
  simp only [List.forall_mem_cons] at hne
  obtain ⟨h1, h2, h3, h4, h5, -⟩ := hne
  exact ⟨by simp [Marker.isRuleChar, h1, h2, h3], h4, h5⟩

theorem marks_of_isBlank (h : isBlank c = true) :
    Marker.isRuleChar c = false ∧ c ≠ '#' ∧ c ≠ '>' := not_mark (by decide) h

theorem marks_of_isDigit (h : c.isDigit = true) :
    Marker.isRuleChar c = false ∧ c ≠ '#' ∧ c ≠ '>' := not_mark (by decide) h

theorem escapeLineStart_lead_bullet (hlead : ∀ c ∈ lead, isBlank c = true)
    (hb : Marker.isBullet b = true) (hg : isBlank g = true) :
    escapeLineStart (lead ++ b :: g :: rest) = lead ++ escapeChar :: b :: g :: rest := by
  obtain ⟨length, hit⟩ := @bullet_hit true lead rest b g hlead hb hg
  have hnumber : Marker.number.escapeFront (lead ++ escapeChar :: b :: g :: rest) =
      lead ++ escapeChar :: b :: g :: rest := by
    refine escapeFront_of_hit?_eq_none ?_
    have hspan := @span_of_forall _ lead (b :: g :: rest) escapeChar isBlank hlead (by decide)
    have hdigit : (escapeChar :: b :: g :: rest).span Char.isDigit =
        ([], escapeChar :: b :: g :: rest) := by
      rw [List.span_eq_takeWhile_dropWhile, List.takeWhile_cons_of_neg (by decide),
        List.dropWhile_cons_of_neg (by decide)]
    simp only [Marker.number, hspan, hdigit]
    rfl
  rw [escapeLineStart, escapeFront_of_hit hit, hnumber]
  rcases lead with _ | ⟨c, lead⟩
  · exact escapeWhenStarts_of_not (by decide) (by decide) (by decide)
  · obtain ⟨hrule, hhash, hquote⟩ := marks_of_isBlank (hlead c (by simp))
    exact escapeWhenStarts_of_not hrule hhash hquote

theorem escapeLineStart_lead_number (hlead : ∀ c ∈ lead, isBlank c = true) (hne : digits ≠ [])
    (hdigits : ∀ c ∈ digits, c.isDigit = true) (hg : isBlank g = true) :
    escapeLineStart (lead ++ digits ++ '.' :: g :: rest) =
      lead ++ digits ++ escapeChar :: '.' :: g :: rest := by
  obtain ⟨length, hit⟩ := @number_hit true lead digits rest g hlead hne hdigits hg
  rw [← List.length_append] at hit
  have hbullet : Marker.bullet.escapeFront (lead ++ digits ++ '.' :: g :: rest) =
      lead ++ digits ++ '.' :: g :: rest := by
    refine escapeFront_of_hit?_eq_none ?_
    obtain ⟨d, ds, rfl⟩ := List.exists_cons_of_ne_nil hne
    have hd := hdigits d (by simp)
    have hspan := @span_of_forall _ lead (ds ++ '.' :: g :: rest) d isBlank hlead
      (isBlank_of_isDigit hd)
    have hnot : Marker.isBullet d = false := by
      refine Bool.eq_false_iff.2 fun hb => ?_
      have hdigit : d.isDigit = false := not_of_isBullet (by decide) hb
      rw [hdigit] at hd
      cases hd
    rw [List.append_assoc, List.cons_append]
    simp only [Marker.bullet, hspan]
    simp [hnot]
  rw [escapeLineStart, hbullet, escapeFront_of_hit hit]
  rcases lead with _ | ⟨c, lead⟩
  · obtain ⟨d, ds, rfl⟩ := List.exists_cons_of_ne_nil hne
    obtain ⟨hrule, hhash, hquote⟩ := marks_of_isDigit (hdigits d (by simp))
    exact escapeWhenStarts_of_not hrule hhash hquote
  · obtain ⟨hrule, hhash, hquote⟩ := marks_of_isBlank (hlead c (by simp))
    exact escapeWhenStarts_of_not hrule hhash hquote

theorem escapeLineStart_quote (cs : List Char) :
    escapeLineStart ('>' :: cs) = escapeChar :: '>' :: cs := by
  have hquote : escapeWhenStarts ['>'] ('>' :: cs) = escapeChar :: '>' :: cs := by
    simp [escapeWhenStarts]
  rw [escapeLineStart, escapeFront_bullet_of_not (by decide) (by simp [Marker.isBullet]),
    escapeFront_number_of_not (by decide) (by decide), escapeFront_rule_of_not (by decide),
    escapeWhenStarts_of_ne (by decide), hquote]

theorem escapeChar_mem_ruleUnits (spaceAllowed : Bool) (cs : List Char) (h : escapeChar ∈ cs) :
    escapeChar ∈ (Marker.ruleUnits spaceAllowed cs).2 := by
  fun_induction Marker.ruleUnits spaceAllowed cs with
  | case1 => exact h
  | case2 _ c cs hc r ih =>
    refine ih ((List.mem_cons.1 h).resolve_left ?_)
    rintro rfl
    revert hc
    decide
  | case3 _ c cs hc hspace ih =>
    refine ih ((List.mem_cons.1 h).resolve_left ?_)
    rintro rfl
    simp [escapeChar] at hspace
  | case4 => exact h

theorem units_of_rule_hit (h : (Marker.rule.hit? true line).isSome) :
    3 ≤ (Marker.ruleUnits false line).1 ∧
      ((Marker.ruleUnits false line).2 = [] ∨ (Marker.ruleUnits false line).2 = ['\n']) := by
  simp only [Marker.rule] at h
  split at h
  · rename_i hr
    simpa using hr
  · cases h

/-- A rule is taken for an item or for itself, and is escaped before its first character. -/
theorem escapeLineStart_rule_hit (h : (Marker.rule.hit? true line).isSome) :
    ∃ c rest, line = c :: rest ∧ c ≠ escapeChar ∧
      ∃ more, escapeLineStart line = escapeChar :: more := by
  have hunits := (units_of_rule_hit h).1
  obtain ⟨c, rest, rfl, hc⟩ := Marker.isRuleChar_of_ruleUnits
    (by omega : (Marker.ruleUnits false line).1 ≠ 0)
  have hne : c ≠ escapeChar := by
    rintro rfl
    revert hc
    decide
  have hblank : isBlank c = false := by
    simp only [Marker.isRuleChar, Bool.or_eq_true, beq_iff_eq] at hc
    rcases hc with (rfl | rfl) | rfl <;> decide
  have hdigit : c.isDigit = false := by
    simp only [Marker.isRuleChar, Bool.or_eq_true, beq_iff_eq] at hc
    rcases hc with (rfl | rfl) | rfl <;> decide
  -- Once its first character is escaped, no other mark is found.
  have hescaped : ∀ cs, escapeWhenStarts ['>'] (escapeWhenStarts ['#']
      (Marker.rule.escapeFront (Marker.number.escapeFront (escapeChar :: cs)))) =
      escapeChar :: cs := by
    intro cs
    rw [escapeFront_number_of_not (by decide) (by decide),
      escapeWhenStarts_of_not (by decide) (by decide) (by decide)]
  refine ⟨c, rest, rfl, hne, ?_⟩
  by_cases hitem : (Marker.bullet.hit? true (c :: rest)).isSome
  · obtain ⟨lead, b, g, tail, hline, hlead, hb, hg⟩ := exists_of_bullet_hit hitem
    obtain ⟨more, hmore⟩ : ∃ more, Marker.bullet.escapeFront (c :: rest) = escapeChar :: more := by
      rcases lead with _ | ⟨d, lead⟩
      · obtain ⟨length, hit⟩ := @bullet_hit true [] tail b g (List.forall_mem_nil _) hb hg
        rw [hline, escapeFront_of_hit hit]
        exact ⟨_, rfl⟩
      · obtain ⟨rfl, -⟩ := List.cons.inj hline
        rw [hlead c (by simp)] at hblank
        cases hblank
    refine ⟨more, ?_⟩
    rw [escapeLineStart, hmore, hescaped]
  · refine ⟨c :: rest, ?_⟩
    have hrule : Marker.rule.escapeFront (c :: rest) = escapeChar :: c :: rest := by
      obtain ⟨⟨length, parts⟩, hit⟩ := Option.isSome_iff_exists.1 h
      have hparts : parts = [some 0] := by
        simp only [Marker.rule] at hit
        split at hit <;> cases hit
        rfl
      subst hparts
      exact @escapeFront_of_hit [] rest c Marker.rule length hit
    have hbullet : Marker.bullet.escapeFront (c :: rest) = c :: rest :=
      escapeFront_of_hit?_eq_none (by simpa using hitem)
    rw [escapeLineStart, hbullet, escapeFront_number_of_not hblank hdigit, hrule,
      escapeWhenStarts_of_ne (by decide), escapeWhenStarts_of_ne (by decide)]

end Hits

/-! ## Escaped lines -/

section Lines

variable {ctx : Context} {cs : List Char}

/-- A line of text that is escaped as such is not live. -/
theorem not_isLive_escapeSpan (hline : ctx.inLine = true ∧ ctx.onNewLine = true)
    (cs : List Char) : ¬ IsLive (escapeSpan ctx cs) := by
  have hblank : ∀ {c : Char}, isBlank c = true → c ≠ escapeChar := Marker.ne_escapeChar_of_isBlank
  rintro (h | h | h | h | h)
  · obtain ⟨lead, b, g, rest, heq, hlead, hb, hg⟩ := exists_of_bullet_hit h
    have hbne : b ≠ escapeChar := ne_of_isBullet (by decide) hb
    refine escapeSpan_ne_append (lead ++ [b, g]) rest hline (fun c hc => ?_)
      (fun rest' _ more heq => ?_) (heq.trans (by simp))
    · simp only [List.mem_append, List.mem_cons, List.not_mem_nil, or_false] at hc
      rcases hc with hc | rfl | rfl
      · exact hblank (hlead c hc)
      · exact hbne
      · exact hblank hg
    · rw [List.append_assoc, List.append_assoc, List.cons_append, List.cons_append,
        List.nil_append, escapeLineStart_lead_bullet hlead hb hg] at heq
      exact hbne (List.cons.inj (List.append_cancel_left heq)).1.symm
  · obtain ⟨lead, digits, g, rest, heq, hlead, hne, hdigits, hg⟩ := exists_of_number_hit h
    refine escapeSpan_ne_append (lead ++ digits ++ ['.', g]) rest hline (fun c hc => ?_)
      (fun rest' _ more heq => ?_) (heq.trans (by simp))
    · simp only [List.mem_append, List.mem_cons, List.not_mem_nil, or_false] at hc
      rcases hc with (hc | hc) | rfl | rfl
      · exact hblank (hlead c hc)
      · rintro rfl
        have hd := hdigits _ hc
        revert hd
        decide
      · decide
      · exact hblank hg
    · rw [List.append_assoc (lead ++ digits), List.append_assoc (lead ++ digits), List.cons_append,
        List.cons_append, List.nil_append, escapeLineStart_lead_number hlead hne hdigits hg] at heq
      exact absurd (List.cons.inj (List.append_cancel_left heq)).1 (by decide)
  · obtain ⟨c, rest, heq, hc, more, hmore⟩ := escapeLineStart_rule_hit h
    refine escapeSpan_ne_append (escapeSpan ctx cs) [] hline (fun d hd => ?_)
      (fun rest' hnil more' heq' => ?_) (List.append_nil _).symm
    · rintro rfl
      have hmem := escapeChar_mem_ruleUnits false _ hd
      rcases (units_of_rule_hit h).2 with hunits | hunits <;> rw [hunits] at hmem <;>
        simp [escapeChar] at hmem
    · rw [hnil rfl, List.append_nil, hmore, heq] at heq'
      exact hc (List.cons.inj heq').1.symm
  · obtain ⟨rest, heq⟩ := List.head?_eq_some_iff.1 h
    exact (isPlainLine_escapeSpan hline cs).hash rest heq
  · obtain ⟨rest, heq⟩ := List.head?_eq_some_iff.1 h
    refine escapeSpan_ne_append ['>'] rest hline (by simp [escapeChar])
      (fun rest' _ more heq' => ?_) heq
    rw [List.cons_append, escapeLineStart_quote] at heq'
    exact absurd (List.cons.inj heq').1 (by decide)

/-! ## Before a hard break -/

theorem getLast?_ruleUnits (cs : List Char) : ∀ spaceAllowed : Bool,
    (Marker.ruleUnits spaceAllowed (cs ++ [' ', ' '])).2.getLast? = some ' ' := by
  induction cs with
  | nil => decide
  | cons c cs ih =>
    intro spaceAllowed
    rw [List.cons_append, Marker.ruleUnits]
    split
    · exact ih true
    · split
      · exact ih false
      · rw [← List.cons_append, List.getLast?_append]
        rfl

/-- What is no space stands before the two spaces at the end. -/
theorem exists_of_append_spaces {line front rest : List Char} {c : Char} (hc : c ≠ ' ')
    (h : line ++ [' ', ' '] = front ++ c :: rest) :
    ∃ tail, line = front ++ c :: tail ∧ rest = tail ++ [' ', ' '] := by
  rcases List.append_eq_append_iff.1 h with ⟨mid, -, hmid⟩ | ⟨mid, hline, hmid⟩
  · have hmem : c ∈ [' ', ' '] := by
      rw [hmid]
      simp
    simp [hc] at hmem
  · rcases mid with _ | ⟨d, tail⟩
    · exact absurd (List.cons.inj hmid).1 hc
    · obtain ⟨rfl, hrest⟩ := List.cons.inj hmid
      exact ⟨tail, hline, hrest⟩

/-- With the spaces of a hard break behind it, a line that is not live becomes so only if nothing
but a mark stands on it. -/
theorem isLoneMark_of_isLive {line : List Char} (hnot : ¬ IsLive line)
    (h : IsLive (line ++ [' ', ' '])) : IsLoneMark line := by
  have hhead : ∀ {c : Char}, c ≠ ' ' → (line ++ [' ', ' ']).head? = some c →
      line.head? = some c := by
    intro c hc hline
    rcases line with _ | ⟨d, line⟩
    · exact absurd (Option.some.inj hline).symm hc
    · exact hline
  rcases h with h | h | h | h | h
  · obtain ⟨lead, b, g, rest, heq, hlead, hb, hg⟩ := exists_of_bullet_hit h
    have hbne : b ≠ ' ' := ne_of_isBullet (by decide) hb
    obtain ⟨tail, hline, hrest⟩ := exists_of_append_spaces hbne heq
    rcases tail with _ | ⟨g', tail⟩
    · exact ⟨lead, [b], hline, hlead, Or.inl ⟨b, rfl, hb⟩⟩
    · obtain ⟨rfl, -⟩ := List.cons.inj hrest
      obtain ⟨length, hit⟩ := @bullet_hit true lead tail b g hlead hb hg
      exact absurd (Or.inl (by rw [hline, hit]; rfl)) hnot
  · obtain ⟨lead, digits, g, rest, heq, hlead, hne, hdigits, hg⟩ := exists_of_number_hit h
    obtain ⟨tail, hline, hrest⟩ := exists_of_append_spaces (by decide) heq
    rcases tail with _ | ⟨g', tail⟩
    · refine ⟨lead, digits ++ ['.'], by rw [hline, List.append_assoc], hlead, Or.inr ?_⟩
      exact ⟨digits, rfl, hne, hdigits⟩
    · obtain ⟨rfl, -⟩ := List.cons.inj hrest
      obtain ⟨length, hit⟩ := @number_hit true lead digits tail g hlead hne hdigits hg
      exact absurd (Or.inr (Or.inl (by rw [hline, hit]; rfl))) hnot
  · have hlast := getLast?_ruleUnits line false
    rcases (units_of_rule_hit h).2 with hunits | hunits <;> rw [hunits] at hlast <;>
      simp at hlast
  · exact absurd (Or.inr (Or.inr (Or.inr (Or.inl (hhead (by decide) h))))) hnot
  · exact absurd (Or.inr (Or.inr (Or.inr (Or.inr (hhead (by decide) h))))) hnot

end Lines

end Markwright.Escape
