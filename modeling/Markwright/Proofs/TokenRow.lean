import Mathlib.Data.List.Chain
import Markwright.Proofs.Tokens

/-!
# The one row of tokens of a text

A row of tokens is told by the kind and the text of each. It is a row of a text (`IsTokenRow`) if
the texts together are that text, each is of its kind, no line break is told as two and no word as
two. Each token of such a row can be read off the characters that follow, since what comes behind it
cannot belong to it (`Token.ofChars_flatMap`); so a text has one row, which is the one that it is
cut into (`isTokenRow_iff`).
-/

namespace Markwright.Text

/-- What a token is told as. -/
inductive Kind where
  | lineBreak
  | space
  | symbol
  | word
deriving DecidableEq

/-- The characters that are tokens on their own. -/
def symbols : String := "!\"#$%&'()*+,-./:;<=>?@[\\]^_\x60\x7b|\x7d~"

/-- What stands in words: all that is neither a line break nor a space nor a symbol. -/
def IsLetter (c : Char) : Prop := c ≠ '\r' ∧ c ≠ '\n' ∧ c ≠ ' ' ∧ c ∉ symbols.toList

/-- The characters that make a token of a kind. -/
def Kind.Admits : Kind → List Char → Prop
  | lineBreak, cs => cs = ['\r', '\n'] ∨ cs = ['\r'] ∨ cs = ['\n']
  | space, cs => cs = [' ']
  | symbol, cs => ∃ c ∈ symbols.toList, cs = [c]
  | word, cs => cs ≠ [] ∧ ∀ c ∈ cs, IsLetter c

/-- Two tokens in a row are neither the halves of a line break nor two words. -/
def Apart (t u : Kind × String) : Prop :=
  ¬ (t = (.lineBreak, "\r") ∧ u = (.lineBreak, "\n")) ∧ ¬ (t.1 = .word ∧ u.1 = .word)

/-- The text `s` cut into tokens of the four kinds, none of which is cut in two. -/
structure IsTokenRow (s : String) (ts : List (Kind × String)) : Prop where
  join : String.join (ts.map Prod.snd) = s
  nonempty : ∀ t ∈ ts, t.2 ≠ ""
  admits : ∀ t ∈ ts, t.1.Admits t.2.toList
  apart : ts.IsChain Apart

theorem isSymbol_iff {c : Char} : isSymbol c = true ↔ c ∈ symbols.toList := by
  have hcodes : symbols.toList.map Char.toNat =
      List.range' 0x21 15 ++ List.range' 0x3A 7 ++ List.range' 0x5B 6 ++ List.range' 0x7B 4 := by
    decide
  rw [← List.mem_map_of_injective (fun _ _ h => Char.toNat_inj.1 h), hcodes]
  simp only [isSymbol, inRanges, List.any_cons, List.any_nil, Bool.or_eq_true, Bool.and_eq_true,
    decide_eq_true_eq, List.mem_append, List.mem_range'_1, Bool.false_eq_true, or_false]
  omega

theorem Kind.Admits.ne_nil {k : Kind} {cs : List Char} (h : k.Admits cs) : cs ≠ [] := by
  cases k
  case lineBreak =>
    rcases h with rfl | rfl | rfl <;> exact List.cons_ne_nil _ _
  case space =>
    obtain rfl := h
    exact List.cons_ne_nil _ _
  case symbol =>
    obtain ⟨c, -, rfl⟩ := h
    exact List.cons_ne_nil _ _
  case word => exact h.1

namespace Token

/-- The kind that a token is told as. -/
def kind : Token → Kind
  | lineBreak _ => .lineBreak
  | space => .space
  | symbol _ => .symbol
  | word _ => .word

/-- The kind of a token and its text. -/
def told (t : Token) : Kind × String := (t.kind, String.ofList t.chars)

theorem told_injective : Function.Injective told := by
  intro t u h
  obtain ⟨hkind, htext⟩ := Prod.mk.inj h
  have hchars : t.chars = u.chars := String.ofList_injective htext
  cases t <;> cases u <;> try cases hkind
  case lineBreak | word => exact congrArg _ hchars
  case space => rfl
  case symbol => exact congrArg _ (List.cons.inj hchars).1

theorem exists_told_eq {k : Kind} {s : String} (h : k.Admits s.toList) :
    ∃ t : Token, t.told = (k, s) := by
  have htold : ∀ t : Token, t.kind = k → t.chars = s.toList → t.told = (k, s) := by
    intro t hkind hchars
    rw [told, hkind, hchars, String.ofList_toList]
  cases k
  case lineBreak => exact ⟨lineBreak s.toList, htold _ rfl rfl⟩
  case space => exact ⟨space, htold _ rfl h.symm⟩
  case symbol =>
    obtain ⟨c, -, hc⟩ := h
    exact ⟨symbol c, htold _ rfl hc.symm⟩
  case word => exact ⟨word s.toList, htold _ rfl rfl⟩

theorem exists_map_told_eq : ∀ {ts : List (Kind × String)}, (∀ t ∈ ts, t.1.Admits t.2.toList) →
    ∃ us : List Token, us.map told = ts
  | [], _ => ⟨[], rfl⟩
  | t :: ts, h => by
    obtain ⟨u, hu⟩ := exists_told_eq (h t List.mem_cons_self)
    obtain ⟨us, rfl⟩ := exists_map_told_eq fun v hv => h v (List.mem_cons_of_mem t hv)
    exact ⟨u :: us, by rw [List.map_cons, hu]⟩

theorem apart_told_iff {t u : Token} : Apart t.told u.told ↔
    ¬ (t = lineBreak ['\r'] ∧ u = lineBreak ['\n']) ∧ ¬ (t.kind = .word ∧ u.kind = .word) := by
  have hfirst : t.told = (.lineBreak, "\r") ↔ t = lineBreak ['\r'] :=
    told_injective.eq_iff (b := lineBreak ['\r'])
  have hsecond : u.told = (.lineBreak, "\n") ↔ u = lineBreak ['\n'] :=
    told_injective.eq_iff (b := lineBreak ['\n'])
  rw [Apart, hfirst, hsecond]
  rfl

/-! ## The row that a text is cut into -/

theorem exists_append_of_head? {cs : List Char} {t : Token} (h : (ofChars cs).head? = some t) :
    ∃ rest, cs = t.chars ++ rest := by
  obtain ⟨ts, hts⟩ := List.head?_eq_some_iff.1 h
  refine ⟨ts.flatMap chars, ?_⟩
  rw [← List.flatMap_cons, ← hts, flatMap_chars]

theorem admits_consWord {c : Char} (hc : IsLetter c) {ts : List Token}
    (h : ∀ t ∈ ts, t.kind.Admits t.chars) : ∀ t ∈ consWord c ts, t.kind.Admits t.chars := by
  have hword : Kind.Admits .word [c] := ⟨List.cons_ne_nil _ _, List.forall_mem_singleton.2 hc⟩
  rcases ts with _ | ⟨(_ | _ | _ | cs), ts⟩
  case cons.word =>
    obtain ⟨⟨-, hcs⟩, hts⟩ := List.forall_mem_cons.1 h
    exact List.forall_mem_cons.2 ⟨⟨List.cons_ne_nil _ _, List.forall_mem_cons.2 ⟨hc, hcs⟩⟩, hts⟩
  all_goals exact List.forall_mem_cons.2 ⟨hword, h⟩

theorem admits_ofChars (cs : List Char) : ∀ t ∈ ofChars cs, t.kind.Admits t.chars := by
  fun_induction ofChars cs with
  | case1 => exact List.forall_mem_nil _
  | case2 cs ih => exact List.forall_mem_cons.2 ⟨Or.inl rfl, ih⟩
  | case3 c cs _ hc ih =>
    refine List.forall_mem_cons.2 ⟨Or.inr ?_, ih⟩
    exact hc.imp (congrArg ([·])) (congrArg ([·]))
  | case4 cs _ _ ih => exact List.forall_mem_cons.2 ⟨rfl, ih⟩
  | case5 c cs _ _ _ hsymbol ih =>
    exact List.forall_mem_cons.2 ⟨⟨c, isSymbol_iff.1 hsymbol, rfl⟩, ih⟩
  | case6 c cs _ hbreak hspace hsymbol ih =>
    obtain ⟨hr, hn⟩ := not_or.1 hbreak
    exact admits_consWord ⟨hr, hn, hspace, mt isSymbol_iff.2 hsymbol⟩ ih

theorem isChain_consWord (c : Char) {ts : List Token}
    (h : ts.IsChain fun t u => Apart t.told u.told) :
    (consWord c ts).IsChain fun t u => Apart t.told u.told := by
  have hapart : ∀ cs {u : Token}, u.kind ≠ .word → Apart (word cs).told u.told := fun cs u hu =>
    apart_told_iff.2 ⟨nofun, fun hboth => hu hboth.2⟩
  rcases ts with _ | ⟨(_ | _ | _ | cs), ts⟩
  case nil => exact List.isChain_singleton _
  case cons.word =>
    obtain ⟨hhead, hts⟩ := List.isChain_cons.1 h
    refine List.isChain_cons.2 ⟨fun u hu => hapart _ fun hword => ?_, hts⟩
    exact (hhead u hu).2 ⟨rfl, hword⟩
  all_goals exact List.isChain_cons_cons.2 ⟨hapart _ nofun, h⟩

theorem isChain_ofChars (cs : List Char) :
    (ofChars cs).IsChain fun t u => Apart t.told u.told := by
  have hcons : ∀ {t : Token} {ts : List Token}, t.kind ≠ .word → t ≠ lineBreak ['\r'] →
      ts.IsChain (fun t u => Apart t.told u.told) →
      (t :: ts).IsChain fun t u => Apart t.told u.told := by
    intro t ts hword hbreak hts
    refine List.isChain_cons.2 ⟨fun u _ => apart_told_iff.2 ⟨?_, ?_⟩, hts⟩
    · exact fun hboth => hbreak hboth.1
    · exact fun hboth => hword hboth.1
  fun_induction ofChars cs with
  | case1 => exact List.isChain_nil
  | case2 cs ih =>
    refine hcons ?_ ?_ ih <;> rintro ⟨⟩
  | case3 c cs hlone _ ih =>
    refine List.isChain_cons.2 ⟨fun u hu => apart_told_iff.2 ⟨?_, fun hboth => ?_⟩, ih⟩
    · -- A carriage return is told alone only where no line feed follows.
      rintro ⟨hc, rfl⟩
      obtain ⟨rest, rfl⟩ := exists_append_of_head? hu
      cases hc
      exact hlone rest rfl rfl
    · cases hboth.1
  | case4 cs _ _ ih | case5 c cs _ _ _ _ ih =>
    refine hcons ?_ ?_ ih <;> rintro ⟨⟩
  | case6 c cs _ _ _ _ ih => exact isChain_consWord c ih

/-! ## The row read off the characters -/

theorem ofChars_append_word {rest : List Char}
    (hrest : ∀ u ∈ (ofChars rest).head?, u.kind ≠ .word) : ∀ {cs : List Char}, cs ≠ [] →
    (∀ c ∈ cs, IsLetter c) → ofChars (cs ++ rest) = word cs :: ofChars rest
  | [], hne, _ => absurd rfl hne
  | c :: cs, _, h => by
    obtain ⟨⟨hr, hn, hspace, hsymbol⟩, hcs⟩ := List.forall_mem_cons.1 h
    have hcons : ofChars (c :: (cs ++ rest)) = consWord c (ofChars (cs ++ rest)) := by
      rw [ofChars, if_neg (not_or.2 ⟨hr, hn⟩), if_neg hspace, if_neg (mt isSymbol_iff.1 hsymbol)]
      exact fun _ hc _ => hr hc
    rw [List.cons_append, hcons]
    rcases cs with _ | ⟨d, cs⟩
    · rw [List.nil_append]
      rcases hts : ofChars rest with _ | ⟨(_ | _ | _ | ds), ts⟩
      case cons.word => exact absurd rfl (hrest (word ds) (by rw [hts]; rfl))
      all_goals rfl
    · rw [ofChars_append_word hrest (List.cons_ne_nil d cs) hcs]
      rfl

/-- A line break is read as it was told, unless it is half of one. -/
theorem ofChars_append_lineBreak {bs rest : List Char} (hbs : Kind.Admits .lineBreak bs)
    (hrest : bs = ['\r'] → rest.head? ≠ some '\n') :
    ofChars (bs ++ rest) = lineBreak bs :: ofChars rest := by
  rcases hbs with rfl | rfl | rfl
  · rfl
  · rw [List.singleton_append, ofChars, if_pos (Or.inl rfl)]
    rintro cs - rfl
    exact hrest rfl rfl
  · rw [List.singleton_append, ofChars, if_pos (Or.inr rfl)]
    rintro _ ⟨⟩

/-- Of the tokens only a line break of its own begins with a line feed. -/
theorem eq_of_head?_chars {t : Token} (h : t.kind.Admits t.chars)
    (hhead : t.chars.head? = some '\n') : t = lineBreak ['\n'] := by
  cases t
  case lineBreak bs =>
    rcases h with hbs | hbs | hbs <;> rw [chars] at hbs hhead <;> subst hbs
    · cases hhead
    · cases hhead
    · rfl
  case space => cases hhead
  case symbol c =>
    obtain ⟨d, hd, hcd⟩ := h
    cases hcd
    cases hhead
    exact absurd hd (by decide)
  case word cs =>
    exact absurd rfl (h.2 '\n' (List.mem_of_head? hhead)).2.1

theorem ofChars_flatMap : ∀ {ts : List Token}, (∀ t ∈ ts, t.kind.Admits t.chars) →
    (ts.IsChain fun t u => Apart t.told u.told) → ofChars (ts.flatMap chars) = ts
  | [], _, _ => rfl
  | t :: ts, h, hchain => by
    obtain ⟨ht, hts⟩ := List.forall_mem_cons.1 h
    obtain ⟨hhead, htail⟩ := List.isChain_cons.1 hchain
    have ih : ofChars (ts.flatMap chars) = ts := ofChars_flatMap hts htail
    rw [List.flatMap_cons]
    cases t
    case lineBreak bs =>
      have hwhole : bs = ['\r'] → (ts.flatMap chars).head? ≠ some '\n' := by
        rintro rfl hfeed
        rcases ts with _ | ⟨u, us⟩
        · cases hfeed
        · have hu := hts u List.mem_cons_self
          rw [List.flatMap_cons, List.head?_append_of_ne_nil _ hu.ne_nil] at hfeed
          have happart := apart_told_iff.1 (hhead u rfl)
          exact happart.1 ⟨rfl, eq_of_head?_chars hu hfeed⟩
      have hbs : Kind.Admits .lineBreak bs := ht
      rw [chars, ofChars_append_lineBreak hbs hwhole, ih]
    case space =>
      rw [chars, List.singleton_append, ofChars, ih]
      · rfl
      · rintro _ ⟨⟩
    case symbol c =>
      obtain ⟨d, hd, hcd⟩ := ht
      cases hcd
      have hbreak : ¬ (c = '\r' ∨ c = '\n') := by
        rintro (rfl | rfl) <;> exact absurd hd (by decide)
      have hspace : c ≠ ' ' := by
        rintro rfl
        exact absurd hd (by decide)
      rw [chars, List.singleton_append, ofChars, if_neg hbreak, if_neg hspace,
        if_pos (isSymbol_iff.2 hd), ih]
      exact fun _ hc _ => hbreak (Or.inl hc)
    case word cs =>
      have hnext : ∀ u ∈ (ofChars (ts.flatMap chars)).head?, u.kind ≠ .word := by
        rw [ih]
        exact fun u hu hword => (hhead u hu).2 ⟨rfl, hword⟩
      have hcs : Kind.Admits .word cs := ht
      rw [chars, ofChars_append_word hnext hcs.1 hcs.2, ih]

end Token

theorem toList_join_told (us : List Token) :
    (String.join ((us.map Token.told).map Prod.snd)).toList = us.flatMap Token.chars := by
  rw [String.toList_join, List.map_map, List.flatMap_map]
  exact List.flatMap_congr fun t _ => String.toList_ofList

theorem isTokenRow_told (s : String) : IsTokenRow s ((tokens s).map Token.told) where
  join := by
    rw [← String.toList_inj, toList_join_told, tokens, Token.flatMap_chars]
  nonempty := by
    refine List.forall_mem_map.2 fun t ht hempty => ?_
    have hchars : t.chars = [] := String.ofList_injective hempty
    exact (Token.admits_ofChars _ t ht).ne_nil hchars
  admits := by
    refine List.forall_mem_map.2 fun t ht => ?_
    rw [Token.told, String.toList_ofList]
    exact Token.admits_ofChars _ t ht
  apart := (List.isChain_map _).2 (Token.isChain_ofChars _)

/-- The tokens of a text are a row of the text, and no other list of kinds and texts is one. -/
theorem isTokenRow_iff (s : String) (ts : List (Kind × String)) :
    IsTokenRow s ts ↔ ts = (tokens s).map Token.told := by
  refine ⟨fun h => ?_, fun h => h ▸ isTokenRow_told s⟩
  obtain ⟨us, rfl⟩ := Token.exists_map_told_eq h.admits
  have hadmits : ∀ u ∈ us, u.kind.Admits u.chars := fun u hu => by
    simpa [Token.told] using h.admits u.told (List.mem_map_of_mem hu)
  have hjoin : us.flatMap Token.chars = s.toList := by
    rw [← toList_join_told, h.join]
  rw [tokens, ← hjoin, Token.ofChars_flatMap hadmits ((List.isChain_map _).1 h.apart)]

example : (tokens "a\r\n\r\nb-").map Token.told = [(.word, "a"), (.lineBreak, "\r\n"),
    (.lineBreak, "\r\n"), (.word, "b"), (.symbol, "-")] := by decide

end Markwright.Text
