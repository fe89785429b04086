import Markwright.Document.Emission

/-!
# The characters of the tokens

A text is cut into tokens and nothing else: the characters of its tokens, one after the other, are
the text (`flatMap_chars`). Line breaks are told as such, and all other tokens as themselves.
-/

namespace Markwright

namespace Text.Token

theorem flatMap_chars_consWord (c : Char) : ∀ ts : List Token,
    (consWord c ts).flatMap chars = c :: ts.flatMap chars
  | [] | lineBreak _ :: _ | space :: _ | symbol _ :: _ | word _ :: _ => rfl

theorem flatMap_chars (cs : List Char) : (ofChars cs).flatMap chars = cs := by
  fun_induction ofChars cs with
  | case1 => rfl
  | case2 cs ih => simp [chars, ih]
  | case3 c cs _ hc ih => simp [chars, ih]
  | case4 cs _ _ ih => simp [chars, ih]
  | case5 c cs _ _ _ _ ih => simp [chars, ih]
  | case6 c cs _ _ _ _ ih => rw [flatMap_chars_consWord, ih]

theorem mem_consWord {c : Char} {t : Token} : ∀ {ts : List Token}, t ∈ consWord c ts →
    (∃ cs, t = word cs) ∨ t ∈ ts
  | [], h | lineBreak _ :: _, h | space :: _, h | symbol _ :: _, h => by
    rcases List.mem_cons.1 h with rfl | h
    · exact Or.inl ⟨_, rfl⟩
    · exact Or.inr h
  | word _ :: _, h => by
    rcases List.mem_cons.1 h with rfl | h
    · exact Or.inl ⟨_, rfl⟩
    · exact Or.inr (List.mem_cons_of_mem _ h)

/-- A line break is made of carriage returns and line feeds. -/
theorem lineBreak_spec {cs bs : List Char} (h : lineBreak bs ∈ ofChars cs) :
    bs ≠ [] ∧ ∀ b ∈ bs, b = '\r' ∨ b = '\n' := by
  fun_induction ofChars cs with
  | case1 => cases h
  | case2 cs ih =>
    rcases List.mem_cons.1 h with h | h
    · cases h
      simp
    · exact ih h
  | case3 c cs _ hc ih =>
    rcases List.mem_cons.1 h with h | h
    · cases h
      simpa using hc
    · exact ih h
  | case4 cs _ _ ih | case5 c cs _ _ _ _ ih =>
    rcases List.mem_cons.1 h with h | h
    · cases h
    · exact ih h
  | case6 c cs _ _ _ _ ih =>
    rcases mem_consWord h with ⟨_, h⟩ | h
    · cases h
    · exact ih h

/-- A text without line breaks has no token that is one. -/
theorem lineBreak_not_mem {cs bs : List Char} (h : ∀ c ∈ cs, c ≠ '\r' ∧ c ≠ '\n') :
    lineBreak bs ∉ ofChars cs := by
  intro hmem
  obtain ⟨hne, hbreak⟩ := lineBreak_spec hmem
  obtain ⟨b, hb⟩ := List.exists_mem_of_ne_nil bs hne
  have hcs : b ∈ cs := by
    rw [← flatMap_chars cs]
    exact List.mem_flatMap_of_mem hmem hb
  obtain ⟨hr, hn⟩ := h b hcs
  rcases hbreak b hb with rfl | rfl
  · exact hr rfl
  · exact hn rfl

end Text.Token

end Markwright
