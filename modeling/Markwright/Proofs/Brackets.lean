import Markwright.Proofs.Unmarked

/-!
# Brackets in labels

The rule for labels looks for a bracket and the character before it, and a character that one hit
has taken is not looked at again. So of brackets that stand side by side every second one is escaped
(`inTurn`), and a bracket behind an escape character is left as it is, whether that protects the
bracket or is protected itself. These are the brackets that can close a label too early; where
brackets stand apart there are none (`label_brackets`).
-/

namespace Markwright.Escape

/-- The characters that a label stands between. -/
def isBracket (c : Char) : Bool := c == '[' || c == ']'

/-- Whether a bracket behind this text is escaped. The search takes a bracket and the character
before it, told whether such a character stands before the text. -/
def bracketDue (free : Bool) : List Char → Bool
  | [] => free
  | c :: cs => bracketDue (!(free && isBracket c) && c != escapeChar) cs

/-- Escapes the brackets that are due. -/
def escapeDue (free : Bool) : List Char → List Char
  | [] => []
  | c :: cs =>
    (if free && isBracket c then [escapeChar, c] else [c]) ++
      escapeDue (!(free && isBracket c) && c != escapeChar) cs

/-- Brackets side by side are escaped in turn. A bracket behind this text is if those right before
it are even in number and stand behind a character that is no escape character, or if they are odd
in number and do not. -/
def inTurn (a : List Char) : Bool :=
  ((a.rtakeWhile isBracket).length % 2 == 0) ==
    (a.rdropWhile isBracket).getLast?.any (· != escapeChar)

/-- No bracket stands behind another, or behind an escape character that is protected. -/
def BracketsApart (cs : List Char) : Prop := ∀ a x c b, cs = a ++ x :: c :: b →
  isBracket c = true → isBracket x = false ∧
    (x = escapeChar → ((a ++ [x]).rtakeWhile (· == escapeChar)).length % 2 = 1)

section Brackets

variable {p free : Bool} {c x : Char} {a b cs : List Char}

theorem ne_escapeChar_of_isBracket (h : isBracket c = true) : c ≠ escapeChar := by
  rintro rfl
  revert h
  decide

/-! ## The search -/

theorem escapeDue_cons (c : Char) (cs : List Char) : escapeDue free (c :: cs) =
    (if free && isBracket c then [escapeChar, c] else [c]) ++
      escapeDue (!(free && isBracket c) && c != escapeChar) cs := rfl

theorem bracketDue_append (a b : List Char) : ∀ free : Bool,
    bracketDue free (a ++ b) = bracketDue (bracketDue free a) b := by
  induction a with
  | nil => exact fun _ => rfl
  | cons c a ih => exact fun free => ih _

/-- What stands before the text only matters to a bracket that begins it. -/
theorem escapeDue_of_not_bracket (h : cs.head?.any isBracket = false) :
    escapeDue free cs = escapeDue false cs := by
  rcases cs with _ | ⟨c, cs⟩
  · rfl
  · have hc : isBracket c = false := by simpa using h
    simp [escapeDue_cons, hc]

theorem Marker.bracket_hit? (whole : Bool) (c d : Char) (cs : List Char) :
    Marker.bracket.hit? whole (c :: d :: cs) =
      if c ≠ escapeChar ∧ isBracket d = true then some ⟨2, [some 1]⟩ else none := by
  simp [Marker.bracket, isBracket]

theorem escapeAll_bracket (whole : Bool) (cs : List Char) :
    Marker.bracket.escapeAll whole cs = escapeDue false cs := by
  fun_induction Marker.escapeAll Marker.bracket whole cs with
  | case1 => rfl
  | case2 whole c cs h hh ih =>
    rcases cs with _ | ⟨d, cs⟩
    · cases hh
    rw [Marker.bracket_hit?] at hh
    split at hh <;> cases hh
    rename_i hd
    have hc : (c != escapeChar) = true := by simpa using hd.1
    have hnext : (d != escapeChar) = true := by simpa using ne_escapeChar_of_isBracket hd.2
    have hpair : Hit.escape ⟨2, [some 1]⟩ [c, d] = [c, escapeChar, d] := rfl
    rw [escapeDue_cons, escapeDue_cons]
    simpa [hc, hd.2, hnext, hpair] using ih
  | case3 whole c cs hh ih =>
    rw [ih, escapeDue_cons, Bool.false_and, Bool.not_false, Bool.true_and]
    rcases cs with _ | ⟨d, cs⟩
    · rfl
    rw [Marker.bracket_hit?] at hh
    by_cases hc : c = escapeChar
    · simp [hc]
    · have hd : isBracket d = false := by
        by_contra hd
        rw [if_pos ⟨hc, by simpa using hd⟩] at hh
        cases hh
      have hrest : escapeDue (c != escapeChar) (d :: cs) = escapeDue false (d :: cs) :=
        escapeDue_of_not_bracket (by simpa using hd)
      rw [hrest]
      rfl

/-- A bracket of the escaped text is one of the text, with the escape character before it if it is
due. -/
theorem exists_of_escapeDue (hc : isBracket c = true) {a' b' : List Char}
    (h : escapeDue free cs = a' ++ c :: b') : ∃ a b, cs = a ++ c :: b ∧
      a' = escapeDue free a ++ if bracketDue free a then [escapeChar] else [] := by
  induction cs generalizing free a' with
  | nil => simp [escapeDue] at h
  | cons d cs ih =>
    rw [escapeDue_cons] at h
    by_cases hd : (free && isBracket d) = true
    · obtain ⟨hfree, -⟩ := Bool.and_eq_true_iff.1 hd
      rw [if_pos hd, List.cons_append, List.singleton_append] at h
      rcases a' with _ | ⟨y, _ | ⟨z, a'⟩⟩
      · exact absurd (List.cons.inj h).1.symm (ne_escapeChar_of_isBracket hc)
      · obtain ⟨rfl, hrest⟩ := List.cons.inj h
        obtain ⟨rfl, -⟩ := List.cons.inj hrest
        exact ⟨[], cs, rfl, by simp [escapeDue, bracketDue, hfree]⟩
      · obtain ⟨rfl, hrest⟩ := List.cons.inj h
        obtain ⟨rfl, htail⟩ := List.cons.inj hrest
        obtain ⟨a, b, rfl, rfl⟩ := ih htail
        exact ⟨d :: a, b, rfl, by simp [escapeDue_cons, bracketDue, hd]⟩
    · rw [if_neg hd, List.singleton_append] at h
      rcases a' with _ | ⟨y, a'⟩
      · obtain ⟨rfl, -⟩ := List.cons.inj h
        have hfree : free = false := by simpa [hc] using hd
        exact ⟨[], cs, rfl, by simp [escapeDue, bracketDue, hfree]⟩
      · obtain ⟨rfl, hrest⟩ := List.cons.inj h
        obtain ⟨a, b, rfl, rfl⟩ := ih hrest
        exact ⟨d :: a, b, rfl, by simp [escapeDue_cons, bracketDue, hd]⟩

/-! ## Which brackets are due -/

theorem bracketDue_eq_inTurn (a : List Char) : bracketDue false a = inTurn a := by
  induction a using List.reverseRecOn with
  | nil => rfl
  | append_singleton a x ih =>
    have hnext : bracketDue false (a ++ [x]) = (!(inTurn a && isBracket x) && x != escapeChar) := by
      rw [bracketDue_append, ih]
      rfl
    rw [hnext]
    by_cases hx : isBracket x = true
    · have hne : (x != escapeChar) = true := by simpa using ne_escapeChar_of_isBracket hx
      have hparity : ∀ n : Nat, ((n + 1) % 2 == 0) = !(n % 2 == 0) := by
        intro n
        rcases Nat.mod_two_eq_zero_or_one n with h | h <;> simp [Nat.add_mod, h]
      rw [hx, hne, Bool.and_true, Bool.and_true, inTurn, inTurn,
        List.rtakeWhile_concat_pos _ _ _ hx, List.rdropWhile_concat_pos _ _ _ hx,
        List.length_append, List.length_singleton, hparity]
      generalize ((a.rtakeWhile isBracket).length % 2 == 0) = even
      generalize (a.rdropWhile isBracket).getLast?.any (· != escapeChar) = plain
      cases even <;> cases plain <;> rfl
    · rw [inTurn.eq_def (a ++ [x]), List.rtakeWhile_concat_neg _ _ _ hx,
        List.rdropWhile_concat_neg _ _ _ hx]
      simp [hx]

/-- A bracket that is due stands behind no escape character that protects it. -/
theorem opensAfter_of_bracketDue (hfree : free = true → p = false)
    (h : bracketDue free a = true) : opensAfter p a = false := by
  induction a generalizing free p with
  | nil => exact hfree h
  | cons c a ih =>
    refine ih (fun hnext => ?_) h
    have hc : c ≠ escapeChar := by simpa using (Bool.and_eq_true_iff.1 hnext).2
    exact opens_of_ne hc

theorem opensAfter_escapeDue (hfree : free = true → p = false) (a : List Char) :
    opensAfter p (escapeDue free a) = opensAfter p a := by
  induction a generalizing free p with
  | nil => rfl
  | cons c a ih =>
    have hrest : ∀ q, opens p c = q → opensAfter q
        (escapeDue (!(free && isBracket c) && c != escapeChar) a) = opensAfter q a := by
      rintro q rfl
      refine ih fun hnext => ?_
      have hc : c ≠ escapeChar := by simpa using (Bool.and_eq_true_iff.1 hnext).2
      exact opens_of_ne hc
    rw [escapeDue_cons]
    by_cases hc : (free && isBracket c) = true
    · obtain ⟨hf, hbracket⟩ := Bool.and_eq_true_iff.1 hc
      have hopens : opens p c = false := opens_of_ne (ne_escapeChar_of_isBracket hbracket)
      rw [if_pos hc, hfree hf] at *
      simpa [opensAfter, hopens] using hrest false hopens
    · rw [if_neg hc]
      exact hrest _ rfl

end Brackets

/-- A bracket of an escaped label is one of the label. It is protected if it was in turn to be
escaped or if the label protects it, and not otherwise. -/
theorem exists_of_label_bracket {s : String} {c : Char} {a' b' : List Char}
    (hc : isBracket c = true) (h : (label s).toList = a' ++ c :: b') : ∃ a b,
      s.toList = a ++ c :: b ∧
      a' = (label (String.ofList a)).toList ++ (if inTurn a then [escapeChar] else []) ∧
      ((a'.rtakeWhile (· == escapeChar)).length % 2 = 1 ↔
        inTurn a = true ∨ (a.rtakeWhile (· == escapeChar)).length % 2 = 1) := by
  have hlabel : ∀ s, (label s).toList = escapeDue false s.toList := by
    intro s
    rw [label, String.toList_ofList, escapeAll_bracket]
  rw [hlabel] at h
  obtain ⟨a, b, hs, rfl⟩ := exists_of_escapeDue hc h
  have hkeep : opensAfter false (escapeDue false a) = opensAfter false a :=
    opensAfter_escapeDue (fun _ => rfl) a
  refine ⟨a, b, hs, by rw [hlabel, String.toList_ofList, bracketDue_eq_inTurn], ?_⟩
  rw [← opensAfter_iff, ← opensAfter_iff, opensAfter_append, hkeep, ← bracketDue_eq_inTurn]
  cases hdue : bracketDue false a with
  | false => simp [opensAfter]
  | true =>
    have hrest : opensAfter false a = false := opensAfter_of_bracketDue (fun _ => rfl) hdue
    simp [opensAfter, hrest]

/-- Which brackets of an escaped label are protected. Where brackets stand apart, none but one at
the very start is left bare. -/
theorem label_brackets (s : String) :
    (∀ a' c b', (label s).toList = a' ++ c :: b' → isBracket c = true → ∃ a b,
      s.toList = a ++ c :: b ∧
      a' = (label (String.ofList a)).toList ++ (if inTurn a then [escapeChar] else []) ∧
      ((a'.rtakeWhile (· == escapeChar)).length % 2 = 1 ↔
        inTurn a = true ∨ (a.rtakeWhile (· == escapeChar)).length % 2 = 1)) ∧
    (BracketsApart s.toList → ∀ a' c b', (label s).toList = a' ++ c :: b' → isBracket c = true →
      a' ≠ [] → (a'.rtakeWhile (· == escapeChar)).length % 2 = 1) := by
  refine ⟨fun a' c b' hsplit hc => exists_of_label_bracket hc hsplit,
    fun hapart a' c b' hsplit hc hne => ?_⟩
  obtain ⟨a, b, hs, rfl, hodd⟩ := exists_of_label_bracket hc hsplit
  rw [hodd]
  rcases a.eq_nil_or_concat with rfl | ⟨front, x, rfl⟩
  · exact absurd (by simp [label, Marker.escapeAll, inTurn]) hne
  rw [List.concat_eq_append] at hs ⊢
  obtain ⟨hx, hslash⟩ := hapart front x c b (by rw [hs]; simp) hc
  by_cases hescape : x = escapeChar
  · exact Or.inr (hslash hescape)
  · left
    have hnot : ¬ isBracket x = true := by simp [hx]
    rw [inTurn, List.rtakeWhile_concat_neg _ _ _ hnot, List.rdropWhile_concat_neg _ _ _ hnot]
    simpa using hescape

theorem label_brackets_halfEscaped : BracketsApart "\\[b]".toList ∧
    ∀ a' b', (label "\\[b]").toList = a' ++ ']' :: b' →
      (a'.rtakeWhile (· == escapeChar)).length % 2 = 1 := by
  have hapart : BracketsApart "\\[b]".toList := by
    rintro (_ | ⟨_, _ | ⟨_, a⟩⟩) x c b hsplit hc <;> simp at hsplit
    · obtain ⟨rfl, rfl, -⟩ := hsplit
      decide
    · obtain ⟨rfl, rfl, rfl, -⟩ := hsplit
      exact absurd hc (by decide)
    · obtain ⟨rfl, rfl, hsplit⟩ := hsplit
      rcases a with _ | ⟨_, _ | ⟨_, a⟩⟩ <;> simp at hsplit
      obtain ⟨rfl, rfl, -⟩ := hsplit
      decide
  obtain ⟨-, hodd⟩ := label_brackets "\\[b]"
  refine ⟨hapart, fun a' b' hsplit => hodd hapart a' ']' b' hsplit rfl ?_⟩
  rintro rfl
  have hstart : (label "\\[b]").toList.head? = some escapeChar := by decide +kernel
  rw [hsplit] at hstart
  cases hstart

/-- The second bracket is left bare and closes the label. -/
theorem label_emptyPair_bare : label "a[]" = "a\\[]" ∧
    ("a\\[".toList.rtakeWhile (· == escapeChar)).length % 2 = 0 := by
  decide +kernel

end Markwright.Escape
