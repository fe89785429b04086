import Markwright.Proofs.Scripts

/-!
# Text in the middle of a line

Text that does not start a line is not looked at for the marks of a block. No other rule escapes
those marks where they stand at the front, but for the hash of a macro: a bullet has a blank behind
it, and so it is no dash of several, opens no emphasis and no script, and ends no scheme. So the
text looks like an item, a heading or a quotation once it is escaped if it did before
(`starts_escapeSpan_iff`).
-/

namespace Markwright.Escape

open Text (isBlank)

/-- The text does not start a line, and its blanks are not escaped. -/
structure Context.MidLine (ctx : Context) : Prop where
  onNewLine : ctx.onNewLine = false
  escapeSpaces : ctx.escapeSpaces = false

section Rules

variable {ctx : Context} {K cs r front lead rest : List Char} {b g : Char}

theorem Inserts.isPrefix (h : Inserts K cs r) (hfront : ∀ c ∈ front, c ∉ K) (hp : front <+: cs) :
    front <+: r := by
  induction front generalizing cs r with
  | nil => exact List.nil_prefix
  | cons c front ih =>
    obtain ⟨tail, rfl⟩ := hp
    obtain ⟨r, rfl, hrest⟩ := exists_of_cons h (hfront c (by simp))
    exact (List.prefix_cons_inj c).2
      (ih hrest (fun d hd => hfront d (List.mem_cons_of_mem c hd)) (List.prefix_append front tail))

/-- What the rules for text in the middle of a line keep holds of the escaped text. -/
theorem escapeSpan_of_rules {P : List Char → Prop} (hctx : ctx.MidLine)
    (hplain : ∀ {a b}, Inserts [escapeChar, '|', Marker.tick] a b → P a → P b)
    (hdashes : ∀ {cs}, P cs → P (Marker.dashes.escapeAll true cs))
    (hlabel : ∀ {cs}, P cs → P (Marker.label.escapeAll true cs))
    (hemphasis : ∀ {cs}, P cs → P (Marker.emphasis.escapeAll true cs))
    (hscript : ∀ {cs}, P cs → P (Marker.script.escapeAll true cs))
    (hscheme : ∀ lead c {cs}, isBlank c = false → P cs → P (escapeScheme (lead ++ [c, ':']) cs))
    (h : P cs) : P (escapeSpan ctx cs) := by
  have hdouble : P (stage ctx 1 cs) :=
    hplain ((inserts_escapeEach (K := [escapeChar]) (by simp) cs).mono (by simp)) h
  have htwo : P (stage ctx 2 cs) := by
    change P (guarded ctx.escapeSpaces _ _)
    rw [hctx.escapeSpaces]
    exact hdouble
  have hfour : P (stage ctx 4 cs) := hlabel (guarded_of _ hdashes htwo)
  have hfive : P (stage ctx 5 cs) := by
    change P (guarded (ctx.inLine && ctx.onNewLine) _ _)
    rw [hctx.onNewLine, Bool.and_false]
    exact hfour
  have hsix : P (stage ctx 6 cs) := guarded_of _
    (hplain ((inserts_escapeEach (K := ['|']) (by simp) _).mono (by simp))) hfive
  have hnine : P (stage ctx 9 cs) :=
    hplain ((inserts_codeSpan true _).mono (by simp)) (hscript (hemphasis hsix))
  have himage := hscheme "imag".toList 'e' (by decide) hnine
  have hattach := hscheme "attac".toList 'h' (by decide) himage
  exact hscheme "mailt".toList 'o' (by decide) hattach

/-- The characters that some rule for text in the middle of a line escapes. -/
def midMarks : List Char :=
  [escapeChar, '|', Marker.tick, '-', '#', '!', '[', '*', '_', '^', '~', ':']

/-- Characters that no rule escapes are kept at the front. -/
theorem isPrefix_escapeSpan (hctx : ctx.MidLine) (hfront : ∀ c ∈ front, c ∉ midMarks)
    (h : front <+: cs) : front <+: escapeSpan ctx cs := by
  have hkept : ∀ {K a b : List Char}, (∀ c ∈ K, c ∈ midMarks) → Inserts K a b → front <+: a →
      front <+: b := fun hK hins => hins.isPrefix fun c hc hm => hfront c hc (hK c hm)
  refine escapeSpan_of_rules hctx (hkept (by simp [midMarks])) ?_ ?_ ?_ ?_ ?_ h
  · exact hkept (by simp [midMarks]) (inserts_dashes true _)
  · exact hkept (by simp [midMarks]) (inserts_label true _)
  · exact hkept (by simp [midMarks]) (inserts_emphasis true _)
  · exact hkept (by simp [midMarks]) (inserts_script true _)
  · exact fun lead c _ _ => hkept (by simp [midMarks])
      (inserts_scheme (lead ++ [c]) (List.append_cons lead c [':']) _)

/-- Characters at the front of an escaped text that are not escaped stood at the front before. -/
theorem isPrefix_of_escapeSpan (hfront : ∀ c ∈ front, c ≠ escapeChar)
    (h : front <+: escapeSpan ctx cs) : front <+: cs := by
  obtain ⟨rest, hrest⟩ := h
  obtain ⟨rest', hstage, -⟩ := exists_stage_eq_append (k := 0) (by omega) hfront hrest.symm
  have hdouble : Inserts [escapeChar] cs (front ++ rest') := by
    rw [← hstage]
    exact inserts_escapeEach (by simp) cs
  obtain ⟨tail, rfl, -⟩ := hdouble.exists_of_forall_keep fun c hc =>
    ⟨hfront c hc, by simpa using hfront c hc⟩
  exact List.prefix_append front tail

/-! ## Bullets -/

theorem emphasisLength?_bullet (hg : isBlank g = true) :
    Marker.emphasisLength? (b :: g :: rest) = none := by
  have hnot : Marker.isEmphasis g = false := by
    refine Bool.eq_false_iff.2 fun he => ?_
    rw [Marker.isBlank_of_isEmphasis he] at hg
    cases hg
  simp only [Marker.emphasisLength?, List.span_eq_takeWhile_dropWhile]
  by_cases hb : Marker.isEmphasis b = true
  · simp [hb, hnot, hg]
  · simp [hb]

theorem scriptLength?_bullet (hg : isBlank g = true) :
    Marker.scriptLength? (b :: g :: rest) = none := by
  have hnone : Marker.lastIndex? b (Marker.unbroken false (g :: rest)) = none := by
    simp [Marker.unbroken, hg, Marker.lastIndex?]
  simp [Marker.scriptLength?, hnone]

/-- The marker finds nothing at a bullet, nor at the blanks before it. -/
def Marker.Misses (m : Marker) (b g : Char) : Prop := ∀ whole lead rest,
  (∀ c ∈ lead, isBlank c = true) → m.hit? whole (lead ++ b :: g :: rest) = none

theorem Marker.Misses.isPrefix {m : Marker} (h : m.Misses b g)
    (hins : ∀ whole cs, Inserts K cs (m.escapeAll whole cs)) (hg : g ∉ K)
    (hlead : ∀ c ∈ lead, isBlank c = true) : ∀ {whole cs}, lead ++ [b, g] <+: cs →
      lead ++ [b, g] <+: m.escapeAll whole cs := by
  induction lead with
  | nil =>
    rintro whole cs ⟨rest, rfl⟩
    have hnone := h whole [] rest (List.forall_mem_nil _)
    obtain ⟨more, hmore, -⟩ := (hins false (g :: rest)).exists_of_cons hg
    refine ⟨more, ?_⟩
    change b :: g :: more = m.escapeAll whole (b :: g :: rest)
    rw [Marker.escapeAll_of_not_hit hnone, hmore]
  | cons c lead ih =>
    rintro whole cs ⟨rest, rfl⟩
    have hrest : ∀ d ∈ lead, isBlank d = true := fun d hd => hlead d (List.mem_cons_of_mem c hd)
    have hsplit : c :: lead ++ [b, g] ++ rest = c :: (lead ++ b :: g :: rest) := by simp
    have hnone := h whole (c :: lead) rest hlead
    rw [List.cons_append] at hnone
    rw [hsplit, Marker.escapeAll_of_not_hit hnone]
    exact (List.prefix_cons_inj c).2 (ih hrest ⟨rest, by simp⟩)

theorem misses_dashes (hg : isBlank g = true) : Marker.dashes.Misses b g := by
  have hdash : ∀ {c : Char}, isBlank c = true → c ≠ '-' := by
    rintro c hc rfl
    revert hc
    decide
  rintro whole (_ | ⟨c, lead⟩) rest hlead
  · simp [Marker.dashes, hdash hg]
  · simp [Marker.dashes, hdash (hlead c (by simp))]

theorem Marker.Opens.misses {m : Marker} {shape? : List Char → Option Nat} (hm : m.Opens shape?)
    (hb : isBlank b = false) (hshape : ∀ rest, shape? (b :: g :: rest) = none) : m.Misses b g := by
  intro whole lead rest hlead
  -- No shape begins behind the first characters of the blanks, nor at the bullet.
  have hnot : ∀ {lead}, (∀ c ∈ lead, isBlank c = true) →
      ¬ (shape? (lead ++ b :: g :: rest)).isSome := by
    rintro (_ | ⟨c, lead⟩) hlead
    · simp [hshape]
    · exact hm.not_shape_of_isBlank (hlead c (by simp))
  refine Option.not_isSome_iff_eq_none.1 fun hhit => ?_
  rcases hm.isSome_hit_iff.1 hhit with ⟨x, tail, hsplit, hx, hs⟩ | ⟨-, hs⟩
  · rcases lead with _ | ⟨c, lead⟩
    · rw [← (List.cons.inj hsplit).1, hb] at hx
      cases hx
    · rw [← (List.cons.inj hsplit).2] at hs
      exact hnot (fun d hd => hlead d (List.mem_cons_of_mem c hd)) hs
  · exact hnot hlead hs

/-- The colon of a scheme stands behind a letter, and so it is no bullet. -/
theorem isPrefix_escapeScheme {scheme : List Char} {c : Char} (hlead : ∀ c ∈ lead, isBlank c = true)
    (hg : isBlank g = true) (hc : isBlank c = false) (h : lead ++ [b, g] <+: cs) :
    lead ++ [b, g] <+: escapeScheme (scheme ++ [c, ':']) cs := by
  have hblank : ∀ {d : Char}, isBlank d = true → d ≠ c := by
    rintro d hd rfl
    rw [hc] at hd
    cases hd
  have hcolon : g ≠ ':' := by
    rintro rfl
    revert hg
    decide
  rw [escapeScheme]
  split
  · rename_i i hi
    obtain ⟨a, t, rfl, rfl⟩ := indexOf?_some hi
    rw [if_neg (by simp)]
    have hsplit : a ++ (scheme ++ [c, ':']) ++ t = (a ++ scheme ++ [c]) ++ ':' :: t := by simp
    have hlen : a.length + (scheme ++ [c, ':']).length - 1 = 0 + (a ++ scheme ++ [c]).length := by
      simp only [List.length_append, List.length_cons, List.length_nil]
      omega
    rw [hlen, hsplit, insertEscapes_append]
    obtain ⟨rest, hrest⟩ := h
    have heq : lead ++ b :: g :: rest = (a ++ scheme) ++ c :: ':' :: t := by simpa using hrest
    rcases List.append_eq_append_iff.1 heq with ⟨more, hfront, htail⟩ | ⟨more, hfront, htail⟩
    · rcases more with _ | ⟨x, _ | ⟨y, more⟩⟩
      · exact absurd (List.cons.inj (List.cons.inj htail).2).1 hcolon
      · exact absurd (List.cons.inj (List.cons.inj htail).2).1 (hblank hg)
      · simp only [List.cons_append, List.cons.injEq] at htail
        rw [hfront, ← htail.1, ← htail.2.1]
        exact ⟨more ++ [c] ++ escapeChar :: ':' :: t, by simp⟩
    · rcases more with _ | ⟨x, more⟩
      · exact absurd (List.cons.inj (List.cons.inj htail).2).1.symm hcolon
      · obtain ⟨rfl, -⟩ := List.cons.inj htail
        exact absurd rfl (hblank (hlead c (by simp [hfront])))
  · exact h

theorem midMarks_plain : ∀ c ∈ midMarks, isBlank c = false ∧ c.isDigit = false :=
  List.forall_iff_forall_mem.1 (by decide)

theorem not_mem_of_isBlank (hg : isBlank g = true) (hK : ∀ c ∈ K, c ∈ midMarks) : g ∉ K := by
  intro hm
  rw [(midMarks_plain g (hK g hm)).1] at hg
  cases hg

/-- A bullet with a blank behind it is not escaped in the middle of a line. -/
theorem isPrefix_escapeSpan_bullet (hctx : ctx.MidLine) (hlead : ∀ c ∈ lead, isBlank c = true)
    (hb : Marker.isBullet b = true) (hg : isBlank g = true) (h : lead ++ [b, g] <+: cs) :
    lead ++ [b, g] <+: escapeSpan ctx cs := by
  have hbare := isBlank_of_isBullet hb
  have hkept : ∀ {K a b' : List Char}, (∀ c ∈ K, c ∈ midMarks ∧ Marker.isBullet c = false) →
      Inserts K a b' → lead ++ [b, g] <+: a → lead ++ [b, g] <+: b' := by
    intro K a b' hK hins
    refine hins.isPrefix fun c hc hm => ?_
    rcases List.mem_append.1 hc with hc | hc
    · exact not_mem_of_isBlank (hlead c hc) (fun d hd => (hK d hd).1) hm
    rcases List.mem_cons.1 hc with rfl | hc
    · rw [(hK c hm).2] at hb
      cases hb
    · obtain rfl := List.mem_singleton.1 hc
      exact not_mem_of_isBlank hg (fun d hd => (hK d hd).1) hm
  refine escapeSpan_of_rules hctx (hkept (List.forall_iff_forall_mem.1 (by decide)))
    ?_ ?_ ?_ ?_ ?_ h
  · exact (misses_dashes hg).isPrefix inserts_dashes
      (not_mem_of_isBlank hg (by simp [midMarks])) hlead
  · exact hkept (List.forall_iff_forall_mem.1 (by decide)) (inserts_label true _)
  · exact (Marker.opens_emphasis.misses hbare fun _ => emphasisLength?_bullet hg).isPrefix
      inserts_emphasis (not_mem_of_isBlank hg (by simp [midMarks])) hlead
  · exact (Marker.opens_script.misses hbare fun _ => scriptLength?_bullet hg).isPrefix
      inserts_script (not_mem_of_isBlank hg (by simp [midMarks])) hlead
  · exact fun scheme c _ hc => isPrefix_escapeScheme hlead hg hc

/-! ## Hashes -/

theorem Inserts.head?_bracket (h : Inserts K cs r) (hr : r.head? = some '[') :
    cs.head? = some '[' := by
  cases h with
  | nil => exact hr
  | keep c _ => exact hr
  | escape _ _ => cases hr

/-- A hash that does not begin a macro is not escaped in the middle of a line. -/
theorem exists_escapeSpan_hash (hctx : ctx.MidLine) (hcs : ∃ rest, cs = '#' :: rest ∧
    rest.head? ≠ some '[') : ∃ rest, escapeSpan ctx cs = '#' :: rest ∧ rest.head? ≠ some '[' := by
  have hkept : ∀ {K a b : List Char}, '#' ∉ K → Inserts K a b →
      (∃ rest, a = '#' :: rest ∧ rest.head? ≠ some '[') →
      ∃ rest, b = '#' :: rest ∧ rest.head? ≠ some '[' := by
    rintro K a b hK hins ⟨rest, rfl, hrest⟩
    obtain ⟨rest', rfl, htail⟩ := hins.exists_of_cons hK
    exact ⟨rest', rfl, mt htail.head?_bracket hrest⟩
  refine escapeSpan_of_rules hctx (hkept (by decide)) ?_ ?_ ?_ ?_ ?_ hcs
  · exact hkept (by decide) (inserts_dashes true _)
  · rintro cs ⟨rest, rfl, hrest⟩
    have hnone : Marker.label.hit? true ('#' :: rest) = none := by
      rcases rest with _ | ⟨c, rest⟩
      · rfl
      · have hc : c ≠ '[' := fun h => hrest (congrArg some h)
        simp [Marker.label, hc]
    rw [Marker.escapeAll_of_not_hit hnone]
    exact ⟨_, rfl, mt (inserts_label false rest).head?_bracket hrest⟩
  · exact hkept (by decide) (inserts_emphasis true _)
  · exact hkept (by decide) (inserts_script true _)
  · exact fun scheme c _ _ => hkept (by decide)
      (inserts_scheme (scheme ++ [c]) (List.append_cons scheme c [':']) _)

/-- The hash of a macro is escaped wherever it stands. -/
theorem not_isPrefix_escapeSpan_macro (hctx : ctx.MidLine) (h : ['#', '['] <+: cs) :
    ¬ ['#'] <+: escapeSpan ctx cs := by
  rintro ⟨rest, hrest⟩
  obtain ⟨more, hfour, -⟩ := exists_stage_eq_append (k := 3) (by omega)
    (List.forall_mem_singleton.2 (by decide)) hrest.symm
  have hkept : ∀ {K a b : List Char}, '#' ∉ K → '[' ∉ K → Inserts K a b → ['#', '['] <+: a →
      ['#', '['] <+: b := fun hhash hbracket hins =>
    hins.isPrefix (by simp [hhash, hbracket])
  have hone : ['#', '['] <+: stage ctx 1 cs :=
    hkept (by decide) (by decide) (inserts_escapeEach (K := [escapeChar]) (by simp) cs) h
  have htwo : ['#', '['] <+: stage ctx 2 cs := by
    change _ <+: guarded ctx.escapeSpaces _ _
    rw [hctx.escapeSpaces]
    exact hone
  have hthree : ['#', '['] <+: stage ctx 3 cs := guarded_of _
    (hkept (by decide) (by decide) (inserts_dashes true _)) htwo
  obtain ⟨tail, htail⟩ := hthree
  have hlabel : stage ctx 4 cs = Marker.label.escapeAll true ('#' :: '[' :: tail) :=
    congrArg (Marker.label.escapeAll true) htail.symm
  have hescaped : (Marker.label.escapeAll true ('#' :: '[' :: tail)).head? = some escapeChar := by
    rw [Marker.escapeAll]
    simp [Marker.label, Hit.escape, insertEscapes]
  rw [← hlabel, hfour] at hescaped
  exact absurd (Option.some.inj hescaped) (by decide)

/-! ## What the escaped text looks like -/

theorem bullet_hit_iff {whole : Bool} : (Marker.bullet.hit? whole cs).isSome ↔
    ∃ lead b g, lead ++ [b, g] <+: cs ∧ (∀ c ∈ lead, isBlank c = true) ∧
      Marker.isBullet b = true ∧ isBlank g = true := by
  constructor
  · intro h
    obtain ⟨lead, b, g, rest, rfl, hlead, hb, hg⟩ := exists_of_bullet_hit h
    exact ⟨lead, b, g, ⟨rest, by simp⟩, hlead, hb, hg⟩
  · rintro ⟨lead, b, g, ⟨rest, rfl⟩, hlead, hb, hg⟩
    obtain ⟨length, hit⟩ := @bullet_hit whole lead rest b g hlead hb hg
    rw [List.append_assoc]
    exact Option.isSome_iff_exists.2 ⟨_, hit⟩

theorem number_hit_iff {whole : Bool} : (Marker.number.hit? whole cs).isSome ↔
    ∃ lead digits g, lead ++ digits ++ ['.', g] <+: cs ∧ (∀ c ∈ lead, isBlank c = true) ∧
      digits ≠ [] ∧ (∀ c ∈ digits, c.isDigit = true) ∧ isBlank g = true := by
  constructor
  · intro h
    obtain ⟨lead, digits, g, rest, rfl, hlead, hne, hdigits, hg⟩ := exists_of_number_hit h
    exact ⟨lead, digits, g, ⟨rest, by simp⟩, hlead, hne, hdigits, hg⟩
  · rintro ⟨lead, digits, g, ⟨rest, rfl⟩, hlead, hne, hdigits, hg⟩
    obtain ⟨length, hit⟩ := @number_hit whole lead digits rest g hlead hne hdigits hg
    rw [List.append_assoc]
    exact Option.isSome_iff_exists.2 ⟨_, hit⟩

/-- In the middle of a line, an escaped text looks like an item, a numbered item, a heading or a
quotation if it did before; but a macro is none. -/
theorem starts_escapeSpan_iff (hctx : ctx.MidLine) (cs : List Char) :
    ((Marker.bullet.hit? true (escapeSpan ctx cs)).isSome ↔
      (Marker.bullet.hit? true cs).isSome) ∧
    ((Marker.number.hit? true (escapeSpan ctx cs)).isSome ↔
      (Marker.number.hit? true cs).isSome) ∧
    (['#'] <+: escapeSpan ctx cs ↔ ['#'] <+: cs ∧ ¬ ['#', '['] <+: cs) ∧
    (['>'] <+: escapeSpan ctx cs ↔ ['>'] <+: cs) := by
  have hblank : ∀ {c : Char}, isBlank c = true → c ≠ escapeChar := Marker.ne_escapeChar_of_isBlank
  refine ⟨?_, ?_, ?_, ?_⟩
  · rw [bullet_hit_iff, bullet_hit_iff]
    refine exists_congr fun lead => exists_congr fun b => exists_congr fun g => ?_
    refine and_congr_left fun ⟨hlead, hb, hg⟩ =>
      ⟨isPrefix_of_escapeSpan fun c hc => ?_, isPrefix_escapeSpan_bullet hctx hlead hb hg⟩
    simp only [List.mem_append, List.mem_cons, List.not_mem_nil, or_false] at hc
    rcases hc with hc | rfl | rfl
    · exact hblank (hlead c hc)
    · exact ne_of_isBullet (by decide) hb
    · exact hblank hg
  · rw [number_hit_iff, number_hit_iff]
    refine exists_congr fun lead => exists_congr fun digits => exists_congr fun g => ?_
    refine and_congr_left fun ⟨hlead, _, hdigits, hg⟩ => ?_
    have hnot : ∀ c ∈ lead ++ digits ++ ['.', g], c ∉ midMarks := by
      intro c hc
      simp only [List.mem_append, List.mem_cons, List.not_mem_nil, or_false] at hc
      rcases hc with (hc | hc) | rfl | rfl
      · exact not_mem_of_isBlank (hlead c hc) fun _ => id
      · intro hm
        have hd := (midMarks_plain c hm).2
        rw [hdigits c hc] at hd
        cases hd
      · decide
      · exact not_mem_of_isBlank hg fun _ => id
    exact ⟨isPrefix_of_escapeSpan fun c hc hslash => hnot c hc (hslash ▸ by decide),
      isPrefix_escapeSpan hctx hnot⟩
  · constructor
    · exact fun h => ⟨isPrefix_of_escapeSpan (List.forall_mem_singleton.2 (by decide)) h,
        fun hmacro => not_isPrefix_escapeSpan_macro hctx hmacro h⟩
    · rintro ⟨⟨rest, rfl⟩, hmacro⟩
      have hbracket : rest.head? ≠ some '[' := by
        intro hhead
        obtain ⟨tail, rfl⟩ := List.head?_eq_some_iff.1 hhead
        exact hmacro (List.prefix_append ['#', '['] tail)
      obtain ⟨more, hmore, -⟩ := exists_escapeSpan_hash hctx ⟨rest, rfl, hbracket⟩
      exact ⟨more, hmore.symm⟩
  · exact ⟨isPrefix_of_escapeSpan (List.forall_mem_singleton.2 (by decide)),
      isPrefix_escapeSpan hctx (List.forall_mem_singleton.2 (by decide))⟩

end Rules

end Markwright.Escape
