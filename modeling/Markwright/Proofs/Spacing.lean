import Markwright.Proofs.Brackets
import Markwright.Proofs.Inserted

/-!
# Spaces and tabs in escaped text

Spaces and tabs are escaped by one rule, which asks for nothing but the state of the printer. The
rules after it put escape characters before other characters only, so they change nothing in how
spaces and tabs are read (`Inserts.filter_reading`). In an escaped text each space and each tab is
protected if the rule applies, and bare if it does not (`exists_reading_of_isSpacing`). In a label
the brackets are escaped once more, which leaves them alone as well (`inserts_bracketLabel`).
-/

namespace Markwright.Escape

/-- Spaces and tabs, which are escaped inside scripts. -/
def isSpacing (c : Char) : Bool := c == ' ' || c == '\t'

variable {K a b : List Char} {c : Char}

theorem ne_escapeChar_of_isSpacing (h : isSpacing c = true) : c ≠ escapeChar := by
  rintro rfl
  revert h
  decide

theorem spell_singleton_spec (h : isSpacing c = true) (isProtected : Bool) :
    spell [(c, isProtected)] ≠ [] ∧ ∀ d ∈ spell [(c, isProtected)], d ≠ '\n' ∧ d ∉ ['[', ']'] := by
  obtain rfl | rfl : c = ' ' ∨ c = '\t' := by simpa [isSpacing] using h
  all_goals cases isProtected <;> simp [spell, escapeChar]

/-- Escape characters before other characters protect no more spaces and no fewer. -/
theorem Inserts.filter_reading (h : Inserts K a b)
    (hK : ∀ x ∈ K, x ≠ escapeChar ∧ isSpacing x = false) : ∀ p : Bool,
    (reading p b).filter (isSpacing ·.1) = (reading p a).filter (isSpacing ·.1) := by
  have hslash : isSpacing escapeChar = false := by decide
  induction h with
  | nil => exact fun _ => rfl
  | keep x _ ih =>
    intro p
    rw [reading, reading]
    split
    · exact ih true
    · rw [List.filter_cons, List.filter_cons, ih]
  | @escape _ _ x hx _ ih =>
    obtain ⟨hne, hspacing⟩ := hK x hx
    intro p
    rw [reading_of_ne hne, reading]
    cases p with
    | false => simp [reading_of_ne hne, hspacing, ih]
    | true => simp [reading_of_ne hne, hspacing, hslash, ih]

/-- After the first two rules the escape characters are protected, and the spaces if the second
rule applies. -/
theorem reading_stage_two (ctx : Context) : ∀ cs : List Char,
    reading false (stage ctx 2 cs) =
      cs.map fun c => (c, c == escapeChar || (ctx.escapeSpaces && isSpacing c)) := by
  intro cs
  change reading false (guarded ctx.escapeSpaces (escapeEach isSpacing) _) = _
  cases ctx.escapeSpaces with
  | false => simpa [guarded] using (reading_double cs).2
  | true =>
    rw [guarded, if_pos rfl]
    induction cs with
    | nil => rfl
    | cons c cs ih =>
      rw [List.map_cons, ← ih, escapeEach_cons]
      by_cases hc : c = escapeChar
      · subst hc
        rfl
      · have hb : (c == escapeChar) = false := beq_false_of_ne hc
        by_cases hs : isSpacing c = true
        · simp [hb, hs, escapeEach_cons, reading, opens_of_ne hc]
        · simp [hb, hs, escapeEach_cons, reading, opens_of_ne hc]

theorem filter_reading_escapeSpan (ctx : Context) (cs : List Char) :
    (reading false (escapeSpan ctx cs)).filter (isSpacing ·.1) =
      (reading false (stage ctx 2 cs)).filter (isSpacing ·.1) := by
  have hall : markChars.all (fun x => x != escapeChar && !isSpacing x) = true := by decide
  have hmarks : ∀ x ∈ markChars, x ≠ escapeChar ∧ isSpacing x = false := by
    intro x hx
    simpa using List.all_eq_true.1 hall x hx
  refine last_of_spaces (P := fun shown => (reading false shown).filter (isSpacing ·.1) =
    (reading false (stage ctx 2 cs)).filter (isSpacing ·.1)) (fun hins h => ?_) rfl
  exact (hins.filter_reading hmarks false).trans h

theorem spell_reading_escapeSpan (ctx : Context) (cs : List Char) :
    spell (reading false (escapeSpan ctx cs)) = escapeSpan ctx cs := by
  rw [escapeSpan_eq_stage]
  exact (stage_eq_spell ctx cs 9).symm

theorem map_fst_reading_escapeSpan (ctx : Context) (cs : List Char) :
    (reading false (escapeSpan ctx cs)).map Prod.fst = cs := by
  rw [escapeSpan_eq_stage]
  exact map_fst_marks ctx cs 10

/-- A space or a tab of an escaped text stands bare unless the rule for them applies. -/
theorem exists_reading_of_isSpacing (ctx : Context) (front back : List Char)
    (hc : isSpacing c = true) : ∃ before after,
      reading false (escapeSpan ctx (front ++ c :: back)) =
          before ++ (c, ctx.escapeSpaces) :: after ∧
        before.map Prod.fst = front := by
  obtain ⟨before, rest, hread, hbefore, hrest⟩ :=
    List.map_eq_append_iff.1 (map_fst_reading_escapeSpan ctx (front ++ c :: back))
  obtain ⟨⟨d, isProtected⟩, after, rfl, hd, -⟩ := List.map_eq_cons_iff.1 hrest
  obtain rfl : d = c := hd
  have hmem : (d, isProtected) ∈
      (reading false (escapeSpan ctx (front ++ d :: back))).filter (isSpacing ·.1) :=
    List.mem_filter.2 ⟨by simp [hread], hc⟩
  rw [filter_reading_escapeSpan, reading_stage_two] at hmem
  obtain ⟨x, -, hx⟩ := List.mem_map.1 (List.mem_filter.1 hmem).1
  obtain ⟨rfl, rfl⟩ := Prod.mk.inj hx
  have hflag : (x == escapeChar || (ctx.escapeSpaces && isSpacing x)) = ctx.escapeSpaces := by
    rw [beq_false_of_ne (ne_escapeChar_of_isSpacing hc), hc, Bool.false_or, Bool.and_true]
  exact ⟨before, after, by rw [hread, hflag], hbefore⟩

theorem inserts_bracketLabel (s : String) : Inserts ['[', ']'] s.toList (label s).toList := by
  rw [label, String.toList_ofList]
  refine inserts_escapeAll (fun {whole c cs h} hh => ?_) true s.toList
  rcases cs with _ | ⟨d, cs⟩
  · cases hh
  rw [Marker.bracket_hit?] at hh
  split at hh <;> cases hh
  rename_i hd
  have hmem : d ∈ ['[', ']'] := by simpa [isBracket] using hd.2
  exact .keep c (.escape hmem (.refl _))

end Markwright.Escape
