import Markwright.Proofs.Openings

/-!
# Scripts

A script is a caret or a tilde, characters of which each blank stands behind an escape character,
and the mark once more. In an escaped text the mark of each script that is found is escaped. The
search takes the longest span it can and goes on behind it, so a mark that opens a script after a
blank is passed over when that blank, behind an escape character, lies in the span of a mark before
it. These marks stay live, and no others do (`markdown_script_swallowed`).

Only the rule for blanks puts an escape character before one, and doubling those of the text leaves
one there. Without the two no script is live.
-/

namespace Markwright.Escape

open Text (isBlank)

namespace Marker

/-- A mark of a script, characters that no bare blank parts, and the mark once more. -/
def IsScript (span : List Char) : Prop := ∃ mark content, span = mark :: content ++ [mark] ∧
  mark ∈ ['^', '~'] ∧ content ≠ [] ∧ Gapless false content

section Script

variable {cs content : List Char} {n : Nat} {c : Char}

theorem of_mem_marks (h : c ∈ ['^', '~']) : isBlank c = false ∧ c ≠ escapeChar := by
  simp only [List.mem_cons, List.not_mem_nil, or_false] at h
  rcases h with rfl | rfl <;> decide

theorem findIdx?_reverse_of_not_mem (h : c ∉ cs) : cs.reverse.findIdx? (· == c) = none := by
  rw [List.findIdx?_eq_none_iff]
  intro d hd
  rw [List.mem_reverse] at hd
  exact beq_false_of_ne (ne_of_mem_of_not_mem hd h)

theorem lastIndex?_of_not_mem (h : c ∉ cs) : lastIndex? c cs = none := by
  rw [lastIndex?, findIdx?_reverse_of_not_mem h]

theorem lastIndex?_append (a : List Char) {b : List Char} (hb : c ∉ b) :
    lastIndex? c (a ++ c :: b) = some a.length := by
  have hfind : (a ++ c :: b).reverse.findIdx? (· == c) = some b.length := by
    simp [List.findIdx?_append, findIdx?_reverse_of_not_mem hb, List.findIdx?_cons]
  rw [lastIndex?, hfind]
  simp

/-- The last place of a character: none comes after it. -/
theorem exists_lastIndex? (h : c ∈ cs) :
    ∃ a b, cs = a ++ c :: b ∧ c ∉ b ∧ lastIndex? c cs = some a.length := by
  obtain ⟨b, a, hsplit, hb⟩ := List.eq_append_cons_of_mem (List.mem_reverse.2 h)
  have hcs : cs = a.reverse ++ c :: b.reverse := by
    rw [← List.reverse_reverse cs, hsplit]
    simp
  have hb' : c ∉ b.reverse := by simpa using hb
  exact ⟨a.reverse, b.reverse, hcs, hb', by rw [hcs, lastIndex?_append _ hb']⟩

/-- A script span begins with a script. -/
theorem isScript_of_scriptLength? (h : scriptLength? cs = some n) :
    ∃ span rest, cs = span ++ rest ∧ IsScript span ∧ n = span.length := by
  rcases cs with _ | ⟨mark, cs⟩
  · cases h
  simp only [scriptLength?] at h
  split at h
  · rename_i hmark
    obtain ⟨hun, tail, htail⟩ := gapless_unbroken false cs
    by_cases hmem : mark ∈ unbroken false cs
    · obtain ⟨content, rest, hsplit, -, hlast⟩ := exists_lastIndex? hmem
      rw [hlast] at h
      split at h
      · rename_i k hk
        have hlen : content.length = k + 1 := by simpa using hk
        rw [hsplit] at hun htail
        refine ⟨mark :: content ++ [mark], rest ++ tail, by simp [htail],
          ⟨mark, content, rfl, by simpa using hmark, ?_, hun.left⟩, ?_⟩
        · rintro rfl
          simp at hlen
        · cases h
          simp [hlen]
      · cases h
    · rw [lastIndex?_of_not_mem hmem] at h
      cases h
  · cases h

/-- Where a script begins a span is found, which covers it or more. -/
theorem exists_scriptLength? {span : List Char} (h : IsScript span) (rest : List Char) :
    ∃ n, scriptLength? (span ++ rest) = some n ∧ span.length ≤ n := by
  obtain ⟨mark, content, rfl, hmark, hne, hun⟩ := h
  obtain ⟨more, hmore⟩ := hun.unbroken_append (b := rest) (of_mem_marks hmark).1
  have hmem : mark ∈ content ++ mark :: more := by simp
  obtain ⟨a, b, hsplit, hb, hlast⟩ := exists_lastIndex? hmem
  have hle : content.length ≤ a.length := by
    rcases List.append_eq_append_iff.1 hsplit with ⟨d, rfl, -⟩ | ⟨d, rfl, hd⟩
    · simp
    · rcases d with _ | ⟨x, d⟩
      · simp
      · obtain ⟨-, rfl⟩ := List.cons.inj hd
        simp at hb
  have hmark' : mark = '^' ∨ mark = '~' := by simpa using hmark
  have hpos := List.length_pos_iff.2 hne
  obtain ⟨k, hk⟩ : ∃ k, a.length = k + 1 := ⟨a.length - 1, by omega⟩
  refine ⟨k + 3, ?_, ?_⟩
  · rw [List.append_assoc, List.cons_append, List.singleton_append, scriptLength?, if_pos hmark',
      hmore, hlast, hk]
  · simp only [List.cons_append, List.length_cons, List.length_append, List.length_nil]
    omega

/-- The span that is found covers all of the text just when the text is a script. -/
theorem scriptLength?_eq_length : scriptLength? cs = some cs.length ↔ IsScript cs := by
  constructor
  · intro h
    obtain ⟨span, rest, rfl, hspan, hlen⟩ := isScript_of_scriptLength? h
    have hrest : rest = [] := by simpa using hlen
    rwa [hrest, List.append_nil]
  · intro h
    obtain ⟨n, hn, hle⟩ := exists_scriptLength? h []
    rw [List.append_nil] at hn
    obtain ⟨span, rest, hcs, -, rfl⟩ := isScript_of_scriptLength? hn
    have hlen : span.length = cs.length := by
      refine Nat.le_antisymm ?_ hle
      rw [hcs, List.length_append]
      omega
    rw [hn, hlen]

theorem isSome_scriptLength?_iff :
    (scriptLength? cs).isSome ↔ ∃ span rest, cs = span ++ rest ∧ IsScript span := by
  constructor
  · intro h
    obtain ⟨n, hn⟩ := Option.isSome_iff_exists.1 h
    obtain ⟨span, rest, hcs, hspan, -⟩ := isScript_of_scriptLength? hn
    exact ⟨span, rest, hcs, hspan⟩
  · rintro ⟨span, rest, rfl, hspan⟩
    obtain ⟨n, hn, -⟩ := exists_scriptLength? hspan rest
    exact Option.isSome_iff_exists.2 ⟨n, hn⟩

theorem opens_script : script.Opens scriptLength? where
  hit := rfl
  head h := by
    obtain ⟨-, c, rest, rfl, -, hc⟩ := scriptLength?_some h
    exact ⟨c, rest, rfl, of_mem_marks hc⟩
  alone h := by
    obtain ⟨span, rest, rfl, hspan, rfl⟩ := isScript_of_scriptLength? h
    refine ⟨by simp, ?_⟩
    rw [List.take_left' rfl]
    exact scriptLength?_eq_length.2 hspan
  before {cs} h := by
    obtain ⟨span, rest, hcs, mark, content, rfl, hmark, hne, hun⟩ := isSome_scriptLength?_iff.1 h
    -- Neither the mark nor the first character of the content stands after a blank.
    obtain ⟨c, content, rfl⟩ := List.exists_cons_of_ne_nil hne
    have hc : isBlank c = false := by
      by_contra hb
      rw [Bool.not_eq_false] at hb
      exact absurd ((gapless_cons.1 hun).1 hb) (by decide)
    have hfront : ∀ d ∈ [mark, c], isBlank d = false := by
      simpa using ⟨(of_mem_marks hmark).1, hc⟩
    have hsplit : script.escapeAll false cs = [mark, c] ++ (content ++ mark :: rest) := by
      rw [hcs]
      simp
    obtain ⟨tail, rfl, htail⟩ := exists_of_escapeAll_eq_append rfl hfront hsplit
    -- What was put into the rest of the content stands before no blank.
    have hins := inserts_script false tail
    rw [htail] at hins
    obtain ⟨inner, after, rfl, -, hinner⟩ :=
      Inserts.exists_of_append_cons (of_mem_marks hmark).2 hins
    have hmarks : ∀ x ∈ ['^', '~'], isBlank x = false := fun x hx => (of_mem_marks hx).1
    have hgapless : Gapless (c == escapeChar) inner := by
      have hrest := (gapless_cons.1 hun).2
      rcases hinner with hinner | ⟨-, front, rfl, hinner⟩
      · exact (hinner.gapless_iff hmarks _).1 hrest
      · exact (hinner.gapless_iff hmarks _).1 hrest.left
    refine isSome_scriptLength?_iff.2 ⟨mark :: (c :: inner) ++ [mark], after, by simp,
      mark, c :: inner, rfl, hmark, by simp, ?_⟩
    exact gapless_cons.2 ⟨(gapless_cons.1 hun).1, hgapless⟩

section Inserts

variable {K a b : List Char} (hK : ∀ x ∈ K, isBlank x = false ∧ x ∉ ['^', '~'])
include hK

theorem IsScript.inserts (h : Inserts K a b) (ha : IsScript a) : IsScript b := by
  obtain ⟨mark, content, rfl, hmark, hne, hun⟩ := ha
  have hmem : mark ∉ K := fun hmem => (hK mark hmem).2 hmark
  obtain ⟨tail, rfl, htail⟩ := Inserts.exists_of_cons h hmem
  obtain ⟨inner, last, rfl, hinner, hlast⟩ := htail.exists_of_append
  obtain ⟨nothing, rfl, hnothing⟩ := hlast.exists_of_cons hmem
  cases hnothing
  exact ⟨mark, inner, rfl, hmark, hinner.ne_nil hne,
    (hinner.gapless_iff (fun x hx => (hK x hx).1) _).2 hun⟩

theorem isSome_scriptLength?_of_inserts (h : Inserts K a b) (hb : (scriptLength? b).isSome) :
    (scriptLength? a).isSome := by
  obtain ⟨span, rest, rfl, mark, content, rfl, hmark, hne, hun⟩ := isSome_scriptLength?_iff.1 hb
  have hmem : mark ∉ K := fun hmem => (hK mark hmem).2 hmark
  have hslash := (of_mem_marks hmark).2
  rw [List.append_assoc, List.cons_append] at h
  obtain ⟨front, tail, rfl, hfront, htail⟩ := Inserts.exists_of_keep (c := []) hslash hmem h
  obtain ⟨inner, after, rfl, hinner, -⟩ := htail.exists_of_keep hslash hmem
  refine isSome_scriptLength?_iff.2 ⟨mark :: inner ++ [mark], after, ?_, mark, inner, rfl, hmark,
    ?_, (hinner.gapless_iff (fun x hx => (hK x hx).1) _).1 hun⟩
  · rw [hfront.eq_nil]
    simp
  · rintro rfl
    cases hinner
    exact hne rfl

end Inserts

end Script

end Marker

/-! ## Escaped text -/

/-- A blank in a run without gaps has an escape character before it. -/
theorem Gapless.exists_of_isBlank {p : Bool} {a b : List Char} {x : Char} (hx : isBlank x = true)
    (h : Gapless p (a ++ x :: b)) : (a = [] ∧ p = true) ∨ ∃ lead, a = lead ++ [escapeChar] := by
  induction a generalizing p with
  | nil => exact Or.inl ⟨rfl, (gapless_cons.1 h).1 hx⟩
  | cons c a ih =>
    right
    rcases ih (gapless_cons.1 h).2 with ⟨rfl, hc⟩ | ⟨lead, rfl⟩
    · exact ⟨[], by rw [beq_iff_eq.1 hc]; rfl⟩
    · exact ⟨c :: lead, rfl⟩

/-- A blank in a script has an escape character before it. -/
theorem Marker.IsScript.exists_of_isBlank {a b : List Char} {x : Char} (hx : isBlank x = true)
    (h : Marker.IsScript (a ++ x :: b)) : ∃ lead, a = lead ++ [escapeChar] := by
  obtain ⟨mark, content, hsplit, hmark, -, hun⟩ := h
  have hne : x ≠ mark := by
    rintro rfl
    rw [(Marker.of_mem_marks hmark).1] at hx
    cases hx
  rcases a with _ | ⟨c, a⟩
  · exact absurd (List.cons.inj hsplit).1 hne
  obtain ⟨rfl, -⟩ := List.cons.inj hsplit
  have hcontent : a ++ x :: b = content ++ [c] := (List.cons.inj hsplit).2
  rcases b.eq_nil_or_concat with rfl | ⟨b, y, rfl⟩
  · exact absurd (List.cons.inj (List.append_inj_right' hcontent rfl)).1 hne
  · rw [List.concat_eq_append, ← List.cons_append, ← List.append_assoc] at hcontent
    obtain ⟨rfl, -⟩ := List.append_inj' hcontent rfl
    rcases hun.exists_of_isBlank hx with ⟨-, hp⟩ | ⟨lead, rfl⟩
    · cases hp
    · exact ⟨c :: lead, rfl⟩

/-- Wherever a script opens in the text, the place is swallowed by another. -/
def SwallowsScripts (cs : List Char) : Prop := ∀ a b, cs = a ++ b →
  (Marker.script.hit? a.isEmpty b).isSome → Swallowed Marker.scriptLength? true a b

theorem swallowsScripts_escapeAll (cs : List Char) :
    SwallowsScripts (Marker.script.escapeAll true cs) :=
  fun _ _ hsplit h => Marker.opens_script.swallowed_of_hit true cs hsplit h

/-- Escape characters before other marks neither open a script nor end one. -/
theorem SwallowsScripts.inserts {K u v : List Char}
    (hK : ∀ x ∈ K, isBlank x = false ∧ x ∉ ['^', '~']) (hslash : escapeChar ∉ K)
    (h : Inserts K u v) (hu : SwallowsScripts u) : SwallowsScripts v := by
  rintro a b rfl hhit
  have hblank : ∀ x ∈ K, isBlank x = false := fun x hx => (hK x hx).1
  obtain ⟨c, d, hcd, hc, hd, hold⟩ := Marker.opens_script.exists_hit_of_inserts hblank
    (Marker.isSome_scriptLength?_of_inserts hK) h hhit
  refine (hu c d hcd hold).inserts hblank hslash (fun hins hself => ?_) hc hd
  rw [Marker.scriptLength?_eq_length] at hself ⊢
  exact hself.inserts hK hins

theorem swallowsScripts_escapeSpan (ctx : Context) (cs : List Char) :
    SwallowsScripts (escapeSpan ctx cs) := by
  have hlast : ∀ x ∈ [Marker.tick, ':'], isBlank x = false ∧ x ∉ ['^', '~'] :=
    List.forall_mem_cons.2 ⟨by decide, List.forall_mem_singleton.2 (by decide)⟩
  exact last_of_script (.inserts hlast (by decide)) (swallowsScripts_escapeAll (stage ctx 7 cs))

/-- A live script that is swallowed opens at a blank behind an escape character. -/
theorem Swallowed.exists_of_script_hit {a b : List Char}
    (hswallowed : Swallowed Marker.scriptLength? true a b)
    (h : (Marker.script.hit? a.isEmpty b).isSome) :
    ∃ lead x rest, a = lead ++ [escapeChar] ∧ b = x :: rest ∧ isBlank x = true := by
  obtain ⟨front, inner, x, outer, rest, rfl, rfl, hx, hself⟩ :=
    Marker.opens_script.exists_of_swallowed hswallowed h
  obtain ⟨lead, rfl⟩ := (Marker.scriptLength?_eq_length.1 hself).exists_of_isBlank hx
  exact ⟨front ++ escapeChar :: lead, x, outer ++ rest, by simp, rfl, hx⟩

/-- No blank stands behind an escape character. -/
def BareBlanks (cs : List Char) : Prop :=
  ∀ a x b, cs = a ++ escapeChar :: x :: b → isBlank x = false

theorem BareBlanks.tail {c : Char} {cs : List Char} (h : BareBlanks (c :: cs)) : BareBlanks cs :=
  fun a x b hsplit => h (c :: a) x b (by rw [hsplit]; rfl)

theorem BareBlanks.inserts {K u v : List Char} (hK : ∀ x ∈ K, isBlank x = false)
    (hslash : escapeChar ∉ K) (h : Inserts K u v) (hu : BareBlanks u) : BareBlanks v := by
  rintro a x b rfl
  by_contra hx
  rw [Bool.not_eq_false] at hx
  have hmem : x ∉ K := fun hmem => by simp [hK x hmem] at hx
  rw [List.append_cons] at h
  obtain ⟨c, d, rfl, hc, -⟩ := h.exists_of_keep (Marker.ne_escapeChar_of_isBlank hx) hmem
  obtain ⟨front, rfl⟩ := hc.exists_of_concat_escapeChar hslash
  have hbare := hu front x d (by simp)
  rw [hx] at hbare
  cases hbare

/-- Doubled, an escape character has a blank behind it only where it had one before. -/
theorem BareBlanks.double {cs : List Char} (h : BareBlanks cs) :
    BareBlanks (escapeEach (· == escapeChar) cs) := by
  induction cs with
  | nil =>
    intro a x b hsplit
    simp [escapeEach] at hsplit
  | cons c cs ih =>
    intro a x b hsplit
    rw [escapeEach_cons] at hsplit
    by_cases hc : c = escapeChar
    · rw [if_pos (beq_iff_eq.2 hc), hc] at hsplit
      rcases a with _ | ⟨y, _ | ⟨z, a⟩⟩
      · rw [← (List.cons.inj (List.cons.inj hsplit).2).1]
        decide
      · -- The second of the two has behind it what the escape character had.
        have hrest : escapeEach (· == escapeChar) cs = x :: b :=
          (List.cons.inj (List.cons.inj hsplit).2).2
        rcases cs with _ | ⟨d, cs⟩
        · cases hrest
        · rw [escapeEach_cons] at hrest
          split at hrest
          · rw [← (List.cons.inj hrest).1]
            decide
          · rw [← (List.cons.inj hrest).1]
            exact h [] d cs (by rw [hc]; rfl)
      · exact ih h.tail a x b (List.cons.inj (List.cons.inj hsplit).2).2
    · rw [if_neg (by simpa using hc)] at hsplit
      rcases a with _ | ⟨y, a⟩
      · exact absurd (List.cons.inj hsplit).1 hc
      · exact ih h.tail a x b (List.cons.inj hsplit).2

theorem bareBlanks_escapeSpan {ctx : Context} {cs : List Char} (hspaces : ctx.escapeSpaces = false)
    (h : BareBlanks cs) : BareBlanks (escapeSpan ctx cs) := by
  have hall : markChars.all (fun c => !isBlank c && c != escapeChar) = true := by decide
  have hmarks : ∀ x ∈ markChars, isBlank x = false ∧ x ≠ escapeChar := by
    intro x hx
    simpa using List.all_eq_true.1 hall x hx
  exact last_of_double hspaces (.inserts (fun x hx => (hmarks x hx).1)
    fun hmem => (hmarks _ hmem).2 rfl) h.double

/-- Where a script is live in an escaped text, it opens at a blank behind an escape character, and
the place lies within a script whose own mark is escaped. So none is live if no blank of the text
has an escape character before it and the blanks are not escaped. -/
theorem markdown_script_swallowed (ctx : Context) (s : String) :
    (∀ a b, (markdown ctx s).toList = a ++ b → (Marker.script.hit? a.isEmpty b).isSome →
      (∃ lead x rest, a = lead ++ [escapeChar] ∧ b = x :: rest ∧ isBlank x = true) ∧
        Swallowed Marker.scriptLength? true a b) ∧
    (ctx.escapeSpaces = false → BareBlanks s.toList →
      ∀ a b, (markdown ctx s).toList = a ++ b → Marker.script.hit? a.isEmpty b = none) := by
  rw [toList_markdown]
  have hlive : ∀ a b, escapeSpan ctx s.toList = a ++ b →
      (Marker.script.hit? a.isEmpty b).isSome →
      (∃ lead x rest, a = lead ++ [escapeChar] ∧ b = x :: rest ∧ isBlank x = true) ∧
        Swallowed Marker.scriptLength? true a b := by
    intro a b hsplit h
    have hswallowed := swallowsScripts_escapeSpan ctx s.toList a b hsplit h
    exact ⟨hswallowed.exists_of_script_hit h, hswallowed⟩
  refine ⟨hlive, fun hspaces hbare a b hsplit => ?_⟩
  by_contra hhit
  obtain ⟨⟨lead, x, rest, rfl, rfl, hx⟩, -⟩ := hlive a b hsplit (Option.isSome_iff_ne_none.2 hhit)
  rw [List.append_assoc, List.singleton_append] at hsplit
  rw [bareBlanks_escapeSpan hspaces hbare lead x rest hsplit] at hx
  cases hx

/-- The text holds two scripts, of which the first takes in the mark of the second. -/
def twoScripts : String := "^a\\ ^b^"

theorem markdown_script_swallowed_twoScripts :
    Swallowed Marker.scriptLength? true "\\^a\\\\".toList " ^b^".toList ∧
      BareBlanks "^a ^b^".toList ∧ Marker.script.hit? false " \\^b^".toList = none := by
  have hbare : BareBlanks "^a ^b^".toList := by
    intro a x b hsplit
    have hmem : escapeChar ∈ "^a ^b^".toList := by simp [hsplit]
    exact absurd hmem (by decide)
  obtain ⟨hlive, -⟩ := markdown_script_swallowed ⟨true, false, true, false⟩ twoScripts
  obtain ⟨-, hnone⟩ := markdown_script_swallowed ⟨true, false, true, false⟩ "^a ^b^"
  exact ⟨(hlive _ _ (by decide +kernel) (by decide +kernel)).2, hbare,
    hnone rfl hbare "^a".toList _ (by decide +kernel)⟩

/-- The first mark is escaped, and the second still opens a script. -/
theorem twoScripts_live :
    (markdown ⟨true, false, true, false⟩ twoScripts).toList =
      "\\^a\\\\".toList ++ " ^b^".toList ∧
      (Marker.script.hit? "\\^a\\\\".toList.isEmpty " ^b^".toList).isSome = true := by
  decide +kernel

end Markwright.Escape
