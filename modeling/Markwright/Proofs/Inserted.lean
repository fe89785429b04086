import Mathlib.Data.List.TakeDrop
import Markwright.Proofs.LiveLine

/-!
# Escape characters put into a text

A rule leaves a text as it is but for the escape characters that it puts before some characters, all
of a few kinds (`Inserts`, `inserts_escapeAll`). What the text shows at some place after the rule it
showed before: where a character of another kind splits the new text, it splits the old one, into
parts that the rule made the new parts from (`Inserts.exists_of_keep`). A blank gets no escape
character of these and loses none, so a run of characters without gaps stays one in both directions
(`Inserts.gapless_iff`).

What such escape characters cannot change is carried through the rules by `last_of_double` and
`last_of_script`.
-/

namespace Markwright.Escape

open Text (isBlank)

/-- The second text is the first with escape characters put before some characters of `K`. -/
inductive Inserts (K : List Char) : List Char → List Char → Prop
  | nil : Inserts K [] []
  | keep {a b : List Char} (c : Char) : Inserts K a b → Inserts K (c :: a) (c :: b)
  | escape {a b : List Char} {c : Char} : c ∈ K → Inserts K a b →
    Inserts K (c :: a) (escapeChar :: c :: b)

/-- No blank but behind an escape character, told whether one stands before the text. -/
def Gapless (p : Bool) (cs : List Char) : Prop := Marker.unbroken p cs = cs

section Gapless

variable {p : Bool} {c : Char} {a b cs : List Char}

theorem Gapless.nil : Gapless p [] := rfl

theorem gapless_cons : Gapless p (c :: cs) ↔
    (isBlank c = true → p = true) ∧ Gapless (c == escapeChar) cs := by
  rw [Gapless, Gapless, Marker.unbroken]
  cases isBlank c <;> cases p <;> simp

theorem Gapless.left (h : Gapless p (a ++ b)) : Gapless p a := by
  induction a generalizing p with
  | nil => exact .nil
  | cons c a ih =>
    rw [List.cons_append, gapless_cons] at h
    exact gapless_cons.2 ⟨h.1, ih h.2⟩

/-- The run goes on where the text does. -/
theorem Gapless.unbroken_append (h : Gapless p a) (hc : isBlank c = false) :
    ∃ b', Marker.unbroken p (a ++ c :: b) = a ++ c :: b' := by
  induction a generalizing p with
  | nil => exact ⟨Marker.unbroken (c == escapeChar) b, by simp [Marker.unbroken, hc]⟩
  | cons d a ih =>
    obtain ⟨hd, ha⟩ := gapless_cons.1 h
    obtain ⟨b', hb'⟩ := ih ha
    refine ⟨b', ?_⟩
    rw [List.cons_append, Marker.unbroken, hb', if_neg]
    · rfl
    · cases hb : isBlank d
      · simp
      · simp [hd hb]

/-- The front that is taken has no gap, and something may follow it. -/
theorem gapless_unbroken (p : Bool) (cs : List Char) :
    Gapless p (Marker.unbroken p cs) ∧ ∃ rest, cs = Marker.unbroken p cs ++ rest := by
  induction cs generalizing p with
  | nil => exact ⟨.nil, [], rfl⟩
  | cons c cs ih =>
    rw [Marker.unbroken]
    split
    · exact ⟨.nil, c :: cs, rfl⟩
    · rename_i hc
      obtain ⟨hun, rest, hrest⟩ := ih (c == escapeChar)
      refine ⟨gapless_cons.2 ⟨fun hb => ?_, hun⟩, rest, by rw [List.cons_append, ← hrest]⟩
      simpa [hb] using hc

end Gapless

/-! ## Before and after -/

namespace Inserts

variable {K : List Char} {a b c d r : List Char} {x : Char}

theorem refl (a : List Char) : Inserts K a a := by
  induction a with
  | nil => exact .nil
  | cons x a ih => exact .keep x ih

theorem append (h : Inserts K a b) (k : Inserts K c d) : Inserts K (a ++ c) (b ++ d) := by
  induction h with
  | nil => exact k
  | keep x _ ih => exact .keep x ih
  | escape hx _ ih => exact .escape hx ih

theorem mono {L : List Char} (h : Inserts K a b) (hK : ∀ x ∈ K, x ∈ L) : Inserts L a b := by
  induction h with
  | nil => exact .nil
  | keep x _ ih => exact .keep x ih
  | escape hx _ ih => exact .escape (hK _ hx) ih

theorem eq_nil (h : Inserts K a []) : a = [] := by
  cases h
  rfl

theorem ne_nil (h : Inserts K a b) (ha : a ≠ []) : b ≠ [] := by
  rintro rfl
  exact ha h.eq_nil

theorem eq_of_forall_not_mem (h : Inserts K a b) (ha : ∀ x ∈ a, x ∉ K) : b = a := by
  induction h with
  | nil => rfl
  | keep x _ ih => rw [ih fun y hy => ha y (List.mem_cons_of_mem x hy)]
  | escape hx _ _ => exact absurd hx (ha _ List.mem_cons_self)

theorem mem (h : Inserts K a b) (hx : x ∈ b) : x = escapeChar ∨ x ∈ a := by
  induction h with
  | nil => cases hx
  | keep y _ ih =>
    rcases List.mem_cons.1 hx with rfl | hx
    · exact .inr List.mem_cons_self
    · exact (ih hx).imp_right (List.mem_cons_of_mem y)
  | @escape _ _ y _ _ ih =>
    rcases List.mem_cons.1 hx with rfl | hx
    · exact .inl rfl
    rcases List.mem_cons.1 hx with rfl | hx
    · exact .inr List.mem_cons_self
    · exact (ih hx).imp_right (List.mem_cons_of_mem y)

/-- What the parts of a text become are the parts of what the text becomes. -/
theorem exists_of_append (h : Inserts K (a ++ b) r) :
    ∃ c d, r = c ++ d ∧ Inserts K a c ∧ Inserts K b d := by
  induction a generalizing r with
  | nil => exact ⟨[], r, rfl, .nil, h⟩
  | cons x a ih =>
    cases h with
    | keep _ h =>
      obtain ⟨c, d, rfl, hc, hd⟩ := ih h
      exact ⟨x :: c, d, rfl, .keep x hc, hd⟩
    | escape hx h =>
      obtain ⟨c, d, rfl, hc, hd⟩ := ih h
      exact ⟨escapeChar :: x :: c, d, rfl, .escape hx hc, hd⟩

theorem exists_of_cons (h : Inserts K (x :: a) r) (hx : x ∉ K) :
    ∃ b, r = x :: b ∧ Inserts K a b := by
  cases h with
  | keep _ h => exact ⟨_, rfl, h⟩
  | escape hK _ => exact absurd hK hx

/-- A character that splits the new text splits the old one. An escape character may stand right
before it that is new. -/
theorem exists_of_append_cons (hx : x ≠ escapeChar) (h : Inserts K r (c ++ x :: d)) :
    ∃ a b, r = a ++ x :: b ∧ Inserts K b d ∧
      (Inserts K a c ∨ x ∈ K ∧ ∃ front, c = front ++ [escapeChar] ∧ Inserts K a front) := by
  generalize ht : c ++ x :: d = t at h
  induction h generalizing c with
  | nil => simp at ht
  | @keep a b y h ih =>
    rcases c with _ | ⟨z, c⟩
    · obtain ⟨rfl, rfl⟩ := List.cons.inj ht
      exact ⟨[], a, rfl, h, Or.inl .nil⟩
    obtain ⟨rfl, hc⟩ := List.cons.inj ht
    obtain ⟨a, b, rfl, hb, ha | ⟨hK, front, rfl, ha⟩⟩ := ih hc
    · exact ⟨z :: a, b, rfl, hb, Or.inl (.keep z ha)⟩
    · exact ⟨z :: a, b, rfl, hb, Or.inr ⟨hK, z :: front, rfl, .keep z ha⟩⟩
  | @escape a b y hy h ih =>
    rcases c with _ | ⟨z, _ | ⟨z', c⟩⟩
    · exact absurd (List.cons.inj ht).1 hx
    · obtain ⟨rfl, hrest⟩ := List.cons.inj ht
      obtain ⟨rfl, rfl⟩ := List.cons.inj hrest
      exact ⟨[], a, rfl, h, Or.inr ⟨hy, [], rfl, .nil⟩⟩
    · obtain ⟨rfl, hrest⟩ := List.cons.inj ht
      obtain ⟨rfl, hc⟩ := List.cons.inj hrest
      obtain ⟨a, b, rfl, hb, ha | ⟨hK, front, rfl, ha⟩⟩ := ih hc
      · exact ⟨z' :: a, b, rfl, hb, Or.inl (.escape hy ha)⟩
      · exact ⟨z' :: a, b, rfl, hb, Or.inr ⟨hK, escapeChar :: z' :: front, rfl, .escape hy ha⟩⟩

theorem exists_of_keep (hx : x ≠ escapeChar) (hK : x ∉ K) (h : Inserts K r (c ++ x :: d)) :
    ∃ a b, r = a ++ x :: b ∧ Inserts K a c ∧ Inserts K b d := by
  obtain ⟨a, b, rfl, hb, ha | ⟨hmem, -⟩⟩ := exists_of_append_cons hx h
  · exact ⟨a, b, rfl, ha, hb⟩
  · exact absurd hmem hK

theorem exists_of_forall_keep (hc : ∀ y ∈ c, y ≠ escapeChar ∧ y ∉ K) (h : Inserts K r (c ++ d)) :
    ∃ b, r = c ++ b ∧ Inserts K b d := by
  induction c generalizing r with
  | nil => exact ⟨r, rfl, h⟩
  | cons y c ih =>
    obtain ⟨hslash, hmem⟩ := hc y (by simp)
    obtain ⟨front, b, rfl, hfront, hb⟩ := exists_of_keep (c := []) hslash hmem h
    obtain ⟨b, rfl, hd⟩ := ih (fun z hz => hc z (by simp [hz])) hb
    exact ⟨b, by rw [hfront.eq_nil]; rfl, hd⟩

/-- An escape character at the end was there before: a new one has its character behind it. -/
theorem exists_of_concat_escapeChar (hK : escapeChar ∉ K) (h : Inserts K r (c ++ [escapeChar])) :
    ∃ a, r = a ++ [escapeChar] := by
  generalize ht : c ++ [escapeChar] = t at h
  induction h generalizing c with
  | nil => simp at ht
  | @keep a b y h ih =>
    rcases c with _ | ⟨z, c⟩
    · obtain ⟨rfl, rfl⟩ := List.cons.inj ht
      exact ⟨[], by rw [h.eq_nil]; rfl⟩
    · obtain ⟨a, rfl⟩ := ih (List.cons.inj ht).2
      exact ⟨y :: a, rfl⟩
  | @escape a b y hy h ih =>
    rcases c with _ | ⟨z, _ | ⟨z', c⟩⟩
    · cases (List.cons.inj ht).2
    · obtain ⟨rfl, -⟩ := List.cons.inj (List.cons.inj ht).2
      exact absurd hy hK
    · obtain ⟨a, rfl⟩ := ih (List.cons.inj (List.cons.inj ht).2).2
      exact ⟨y :: a, rfl⟩

theorem gapless_iff (h : Inserts K a b) (hK : ∀ x ∈ K, isBlank x = false) :
    ∀ p, Gapless p b ↔ Gapless p a := by
  have hslash : isBlank escapeChar = false := by decide
  induction h with
  | nil => exact fun _ => Iff.rfl
  | keep x _ ih =>
    intro p
    rw [gapless_cons, gapless_cons, ih]
  | escape hx _ ih =>
    intro p
    rw [gapless_cons, gapless_cons, gapless_cons, ih]
    simp [hslash, hK _ hx]

/-- One escape character at a place. -/
theorem insertEscapes (lead rest : List Char) (hx : x ∈ K) :
    Inserts K (lead ++ x :: rest) (Escape.insertEscapes [lead.length] 0 (lead ++ x :: rest)) := by
  have hinsert := insertEscapes_append lead x rest 0
  rw [Nat.zero_add] at hinsert
  rw [hinsert]
  exact (refl lead).append (.escape hx (refl rest))

end Inserts

/-! ## What the rules insert -/

section Rules

variable {K : List Char}

/-- A marker puts escape characters where it puts them in each hit. -/
theorem inserts_escapeAll {m : Marker}
    (hm : ∀ {whole : Bool} {c : Char} {cs : List Char} {h : Hit},
      m.hit? whole (c :: cs) = some h →
        Inserts K (c :: cs.take (h.length - 1)) (h.escape (c :: cs.take (h.length - 1))))
    (whole : Bool) (cs : List Char) : Inserts K cs (m.escapeAll whole cs) := by
  fun_induction Marker.escapeAll m whole cs with
  | case1 => exact .nil
  | case2 whole c cs h hh ih =>
    have hall := (hm hh).append ih
    rwa [List.cons_append, List.take_append_drop] at hall
  | case3 whole c cs hh ih => exact .keep c ih

/-- A marker that escapes the first character of its hits. -/
theorem inserts_escape_zero {c : Char} (hc : c ∈ K) (n : Nat) (cs : List Char) :
    Inserts K (c :: cs) (Hit.escape ⟨n, [some 0]⟩ (c :: cs)) :=
  Inserts.insertEscapes [] cs hc

theorem inserts_afterBlank {shape? : List Char → Option Nat} {source : String}
    (hshape : ∀ {cs n}, shape? cs = some n →
      0 < n ∧ ∃ c rest, cs = c :: rest ∧ c ≠ escapeChar ∧ c ∈ K)
    (whole : Bool) (cs : List Char) :
    Inserts K cs (Marker.escapeAll ⟨source, 1, Marker.afterBlank shape?⟩ whole cs) := by
  refine inserts_escapeAll (fun {whole c cs h} hh => ?_) whole cs
  simp only [Marker.afterBlank] at hh
  split at hh
  · obtain ⟨n, hn, rfl⟩ := Option.map_eq_some_iff.1 hh
    obtain ⟨hpos, d, rest, rfl, -, hd⟩ := hshape hn
    obtain ⟨n, rfl⟩ := Nat.exists_eq_succ_of_ne_zero hpos.ne'
    exact Inserts.insertEscapes [c] (rest.take n) hd
  · split at hh
    · obtain ⟨n, hn, rfl⟩ := Option.map_eq_some_iff.1 hh
      obtain ⟨-, d, rest, heq, -, hd⟩ := hshape hn
      obtain ⟨rfl, -⟩ := List.cons.inj heq
      exact inserts_escape_zero hd _ _
    · cases hh

theorem inserts_escapeEach {p : Char → Bool} (hp : ∀ c, p c = true → c ∈ K) (cs : List Char) :
    Inserts K cs (escapeEach p cs) := by
  induction cs with
  | nil => exact .nil
  | cons c cs ih =>
    rw [escapeEach_cons]
    split
    · rename_i hc
      exact .escape (hp c hc) ih
    · exact .keep c ih

theorem inserts_escapeWhenStarts {c : Char} (hc : c ∈ K) (cs : List Char) :
    Inserts K cs (escapeWhenStarts [c] cs) := by
  rw [escapeWhenStarts]
  split
  · rename_i h
    obtain ⟨rest, rfl⟩ := List.isPrefixOf_iff_prefix.1 h
    exact .escape hc (.refl rest)
  · exact .refl cs

theorem IsBare.exists_eq : ∀ {cs : List Char} {p : Bool} {i : Nat}, IsBare K p cs i →
    ∃ lead c rest, cs = lead ++ c :: rest ∧ lead.length = i ∧ c ∈ K
  | c :: cs, _, 0, h => ⟨[], c, cs, rfl, rfl, h.2.2⟩
  | d :: cs, p, i + 1, h => by
    obtain ⟨lead, c, rest, rfl, rfl, hc⟩ := @IsBare.exists_eq cs (opens p d) i h
    exact ⟨d :: lead, c, rest, rfl, rfl, hc⟩

theorem inserts_escapeFront {m : Marker} (hm : m.SafeFront K) (cs : List Char) :
    Inserts K cs (m.escapeFront cs) := by
  rw [Marker.escapeFront]
  rcases hh : m.hit? true cs with _ | ⟨length, parts⟩
  · exact .refl cs
  · obtain ⟨i, rfl, hi⟩ := hm.part hh
    obtain ⟨lead, c, rest, rfl, rfl, hc⟩ := hi.exists_eq
    exact Inserts.insertEscapes lead rest hc

theorem inserts_dashes (whole : Bool) (cs : List Char) :
    Inserts ['-'] cs (Marker.dashes.escapeAll whole cs) := by
  refine inserts_escapeAll (fun {whole c cs h} hh => ?_) whole cs
  simp only [Marker.dashes] at hh
  split at hh
  · rename_i heq
    cases hh
    cases heq
    exact .escape (by simp) (.escape (by simp) (.refl _))
  · rename_i heq
    cases hh
    cases heq
    exact .escape (by simp) (.refl _)
  · cases hh

theorem inserts_label (whole : Bool) (cs : List Char) :
    Inserts ['#', '!', '['] cs (Marker.label.escapeAll whole cs) := by
  refine inserts_escapeAll (fun {whole c cs h} hh => ?_) whole cs
  obtain ⟨hc, n, -, rfl⟩ := Marker.exists_of_label_hit hh
  exact inserts_escape_zero hc _ _

theorem inserts_emphasis (whole : Bool) (cs : List Char) :
    Inserts ['*', '_'] cs (Marker.emphasis.escapeAll whole cs) :=
  inserts_afterBlank Marker.emphasisLength?_some whole cs

theorem inserts_script (whole : Bool) (cs : List Char) :
    Inserts ['^', '~'] cs (Marker.script.escapeAll whole cs) :=
  inserts_afterBlank Marker.scriptLength?_some whole cs

theorem inserts_codeSpan (whole : Bool) (cs : List Char) :
    Inserts [Marker.tick] cs (Marker.codeSpan.escapeAll whole cs) := by
  refine inserts_escapeAll (fun {whole c cs h} hh => ?_) whole cs
  obtain ⟨rfl, n, rfl⟩ := Marker.exists_of_codeSpan_hit hh
  exact inserts_escape_zero (List.mem_singleton_self _) _ _

theorem inserts_scheme {scheme : List Char} (lead : List Char) (hs : scheme = lead ++ [':'])
    (cs : List Char) : Inserts [':'] cs (escapeScheme scheme cs) := by
  rw [escapeScheme]
  split
  · rename_i i hi
    obtain ⟨a, b, rfl, rfl⟩ := indexOf?_some hi
    rw [if_neg (by simp [hs])]
    have hlen : a.length + scheme.length - 1 = (a ++ lead).length := by
      simp only [hs, List.length_append, List.length_singleton]
      omega
    have hsplit : a ++ scheme ++ b = (a ++ lead) ++ ':' :: b := by simp [hs]
    rw [hlen, hsplit]
    exact Inserts.insertEscapes (a ++ lead) b (List.mem_singleton_self _)
  · exact .refl cs

theorem guarded_of {P : List Char → Prop} {f : List Char → List Char} {cs : List Char} (b : Bool)
    (hf : P cs → P (f cs)) (h : P cs) : P (guarded b f cs) := by
  cases b with
  | false => exact h
  | true => exact hf h

/-- What escape characters before the marks of a line cannot change holds at its start. -/
theorem lineStart_of {P : List Char → Prop} {cs : List Char}
    (hP : ∀ {a b : List Char}, Inserts lineMarks a b → P a → P b) (h : P cs) :
    P (escapeLineStart cs) := by
  have hfront : ∀ {m : Marker} {K : List Char}, m.SafeFront K → (∀ c ∈ K, c ∈ lineMarks) →
      ∀ {cs : List Char}, P cs → P (m.escapeFront cs) :=
    fun hm hK _ => hP ((inserts_escapeFront hm _).mono hK)
  have hbullet := hfront Marker.safeFront_bullet (by simp [lineMarks]) h
  have hnumber := hfront Marker.safeFront_number (by simp [lineMarks]) hbullet
  have hrule := hfront Marker.safeFront_rule (by simp [lineMarks]) hnumber
  have hhash := hP (inserts_escapeWhenStarts (c := '#') (by simp [lineMarks]) _) hrule
  exact hP (inserts_escapeWhenStarts (c := '>') (by simp [lineMarks]) _) hhash

/-- What escape characters before ticks and colons cannot change holds at the end if it holds after
the rule for scripts. -/
theorem last_of_script {P : List Char → Prop} {ctx : Context} {cs : List Char}
    (hP : ∀ {a b : List Char}, Inserts [Marker.tick, ':'] a b → P a → P b)
    (h : P (stage ctx 8 cs)) : P (escapeSpan ctx cs) := by
  have hcolon : ∀ (scheme lead : List Char), scheme = lead ++ [':'] →
      ∀ {cs : List Char}, P cs → P (escapeScheme scheme cs) :=
    fun _ lead hs cs => hP ((inserts_scheme lead hs cs).mono (by simp))
  have hticks := hP ((inserts_codeSpan true _).mono (by simp)) h
  have himage := hcolon "image:".toList "image".toList rfl hticks
  have hattach := hcolon "attach:".toList "attach".toList rfl himage
  exact hcolon "mailto:".toList "mailto".toList rfl hattach

/-- The characters that are escaped for what they mark, not for being blanks or escape
characters. -/
def markChars : List Char :=
  ['-', '#', '!', '['] ++ lineMarks ++ ['|', '*', '_', '^', '~', Marker.tick, ':']

/-- What escape characters before marks cannot change holds at the end if it holds once the escape
characters of the text are doubled and its blanks escaped. -/
theorem last_of_spaces {P : List Char → Prop} {ctx : Context} {cs : List Char}
    (hP : ∀ {a b : List Char}, Inserts markChars a b → P a → P b)
    (h : P (stage ctx 2 cs)) : P (escapeSpan ctx cs) := by
  have hsome : ∀ {K a b : List Char}, (∀ c ∈ K, c ∈ markChars) → Inserts K a b → P a → P b :=
    fun hK hins => hP (hins.mono hK)
  have hthree : P (stage ctx 3 cs) := guarded_of _
    (hsome (by simp [markChars]) (inserts_dashes true _)) h
  have hfour : P (stage ctx 4 cs) := hsome (by simp [markChars]) (inserts_label true _) hthree
  have hfive : P (stage ctx 5 cs) := guarded_of _
    (lineStart_of (hsome fun _ hc => by simp [markChars, hc])) hfour
  have hbars : ∀ cs, Inserts ['|'] cs (escapeEach (· == '|') cs) :=
    inserts_escapeEach (by simp)
  have hsix : P (stage ctx 6 cs) := guarded_of _ (hsome (by simp [markChars]) (hbars _)) hfive
  have hseven : P (stage ctx 7 cs) := hsome (by simp [markChars]) (inserts_emphasis true _) hsix
  have height : P (stage ctx 8 cs) := hsome (by simp [markChars]) (inserts_script true _) hseven
  exact last_of_script (hsome (by simp [markChars])) height

/-- Where no blanks are escaped it is enough that it holds once the escape characters are
doubled. -/
theorem last_of_double {P : List Char → Prop} {ctx : Context} {cs : List Char}
    (hspaces : ctx.escapeSpaces = false)
    (hP : ∀ {a b : List Char}, Inserts markChars a b → P a → P b)
    (h : P (escapeEach (· == escapeChar) cs)) : P (escapeSpan ctx cs) := by
  refine last_of_spaces hP ?_
  change P (guarded ctx.escapeSpaces _ _)
  rw [hspaces]
  exact h

end Rules

end Markwright.Escape
