import Markwright.Proofs.Reading
import Markwright.Session

/-!
# Where targets end

The target of a link or an image is scanned from its opening parenthesis on. An escape character
protects the character after it, a quote behind a blank opens the title, in which parentheses are
literal, and the first bare parenthesis outside of the title closes the target. The parentheses of a
reference are escaped whatever stands before them, and a title is written as it is. So a target ends
where it should exactly if no parenthesis of the reference is protected already, what is written
last does not protect what closes it, and the title has no bare quote (`target_endsWell_iff`).
-/

namespace Markwright

open Text (isBlank)
open Escape (escapeChar escapeEach opens opensAfter reading)

namespace Escape

/-- The characters that a target stands between. -/
def isParenthesis (c : Char) : Bool := c == '(' || c == ')'

/-- What stands behind the first `c` that is not protected. -/
def behindBare? (c : Char) : Bool → List Char → Option (List Char)
  | _, [] => none
  | p, d :: ds => if d = c ∧ p = false then some ds else behindBare? c (opens p d) ds

section Scans

variable {c : Char} {p : Bool} {a rest : List Char}

theorem ne_escapeChar_of_isParenthesis (h : isParenthesis c = true) : c ≠ escapeChar := by
  rintro rfl
  revert h
  decide

theorem escapeAll_parenthesis (whole : Bool) (cs : List Char) :
    Marker.parenthesis.escapeAll whole cs = escapeEach isParenthesis cs := by
  fun_induction Marker.escapeAll Marker.parenthesis whole cs with
  | case1 => rfl
  | case2 whole c cs h hh ih =>
    simp only [Marker.parenthesis] at hh
    split at hh <;> cases hh
    rename_i hc
    have hparen : isParenthesis c = true := by simpa [isParenthesis] using hc
    have hone : Hit.escape ⟨1, [some 0]⟩ [c] = [escapeChar, c] := rfl
    simpa [escapeEach_cons, hparen, hone] using ih
  | case3 whole c cs hh ih =>
    have hparen : isParenthesis c = false := by
      simpa [Marker.parenthesis, isParenthesis] using hh
    rw [ih, escapeEach_cons, hparen]
    rfl

theorem mem_reading_cons {m : Char × Bool} : m ∈ reading p (c :: a) ↔
    (opens p c = false ∧ m = (c, p)) ∨ m ∈ reading (opens p c) a := by
  rw [reading]
  cases ho : opens p c <;> simp

theorem behindBare?_append (hc : c ≠ escapeChar) (rest : List Char) :
    (c, false) ∉ reading p a →
      behindBare? c p (a ++ rest) = behindBare? c (opensAfter p a) rest := by
  induction a generalizing p with
  | nil => exact fun _ => rfl
  | cons d a ih =>
    intro h
    have hd : ¬ (d = c ∧ p = false) := by
      rintro ⟨rfl, rfl⟩
      exact h (mem_reading_cons.2 (Or.inl ⟨opens_of_ne hc, rfl⟩))
    rw [List.cons_append, behindBare?, if_neg hd, opensAfter]
    exact ih fun hmem => h (mem_reading_cons.2 (Or.inr hmem))

theorem exists_behindBare? (rest : List Char) (h : (c, false) ∈ reading p a) :
    ∃ more, behindBare? c p (a ++ rest) = some (more ++ rest) := by
  induction a generalizing p with
  | nil => cases h
  | cons d a ih =>
    rw [List.cons_append, behindBare?]
    by_cases hd : d = c ∧ p = false
    · exact ⟨a, if_pos hd⟩
    · rw [if_neg hd]
      rcases mem_reading_cons.1 h with ⟨-, heq⟩ | h
      · exact absurd ⟨(Prod.mk.inj heq).1.symm, (Prod.mk.inj heq).2.symm⟩ hd
      · exact ih h

end Scans

end Escape

/-- What a scan of a target comes to. -/
structure TargetEnd where
  /-- What stands behind the closing quote of the title, if a title opens. -/
  behindTitle : Option (List Char)
  /-- What stands behind the closing parenthesis. -/
  behind : List Char
deriving DecidableEq

/-- Scans a target behind its opening parenthesis, told whether the next character is protected and
whether a blank stands before it. -/
def scanTarget : Bool → Bool → List Char → Option TargetEnd
  | _, _, [] => none
  | p, afterBlank, c :: cs =>
    if c = ')' ∧ p = false then some ⟨none, cs⟩
    else if c = '"' ∧ p = false ∧ afterBlank = true then
      (Escape.behindBare? '"' false cs).bind fun rest =>
        (Escape.behindBare? ')' false rest).map (⟨some rest, ·⟩)
    else scanTarget (opens p c) (isBlank c) cs

/-- No quote stands behind the one that closes the title, and nothing behind the parenthesis that
closes the target. -/
def EndsWell (cs : List Char) : Prop := ∃ inner e, cs = '(' :: inner ∧
  scanTarget false false inner = some e ∧ (∀ rest, e.behindTitle = some rest → '"' ∉ rest) ∧
  e.behind = []

/-- What a reference and the title that is written after it may be for their target to end where it
should. -/
structure TargetClosed (address : List Char) (title : Option (List Char)) : Prop where
  /-- The escape character before a protected parenthesis would be protected itself. -/
  parentheses : (')', true) ∉ reading false address
  rest : title = none → opensAfter false address = false
  title : ∀ t, title = some t → ('"', false) ∉ reading false t ∧ opensAfter false t = false

/-- A blank title is not written. -/
def shownTitle (title : Option String) : Option (List Char) :=
  (title.filter (Text.strip · ≠ "")).map String.toList

section Scan

variable {p afterBlank : Bool} {c : Char} {a t rest : List Char}

theorem scanTarget_protected (afterBlank : Bool) (c : Char) (cs : List Char) :
    scanTarget true afterBlank (c :: cs) = scanTarget false (isBlank c) cs := by
  simp [scanTarget]

theorem scanTarget_bare (hclose : c ≠ ')') (hquote : c ≠ '"') (cs : List Char) :
    scanTarget p afterBlank (c :: cs) = scanTarget (opens p c) (isBlank c) cs := by
  rw [scanTarget, if_neg fun h => hclose h.1, if_neg fun h => hquote h.1]

theorem scanTarget_escaped (c : Char) (cs : List Char) :
    scanTarget false afterBlank (escapeChar :: c :: cs) = scanTarget false (isBlank c) cs := by
  rw [scanTarget_bare (by decide) (by decide)]
  exact scanTarget_protected _ c cs

/-- Where no blank stands before it, a quote opens nothing. -/
theorem scanTarget_inner (hclose : c ≠ ')') (cs : List Char) :
    scanTarget p false (c :: cs) = scanTarget (opens p c) (isBlank c) cs := by
  rw [scanTarget, if_neg fun h => hclose h.1, if_neg fun h => Bool.false_ne_true h.2.2]

/-- A parenthesis of a reference is passed unless the reference protects it. -/
theorem scanTarget_parenthesis (hc : Escape.isParenthesis c = true) (h : c = ')' → p = false)
    (rest : List Char) :
    scanTarget p false (escapeChar :: c :: rest) = scanTarget false (isBlank c) rest := by
  cases p with
  | false => exact scanTarget_escaped c rest
  | true =>
    -- The escape character is protected, and the parenthesis behind it is not.
    have hclose : c ≠ ')' := fun e => Bool.noConfusion (h e)
    have hslash : isBlank escapeChar = false := by decide
    rw [scanTarget_protected, hslash, scanTarget_inner hclose,
      Escape.opens_of_ne (Escape.ne_escapeChar_of_isParenthesis hc)]

/-- The scan goes through an escaped reference unless that protects a parenthesis itself. -/
theorem scanTarget_address (ha : ∀ c ∈ a, isBlank c = false) (rest : List Char)
    (h : (')', true) ∉ reading p a) :
    scanTarget p false (escapeEach Escape.isParenthesis a ++ rest) =
      scanTarget (opensAfter p a) false rest := by
  induction a generalizing p with
  | nil => rfl
  | cons c a ih =>
    have hblank : isBlank c = false := ha c (by simp)
    have htail : scanTarget (opens p c) false (escapeEach Escape.isParenthesis a ++ rest) =
        scanTarget (opensAfter (opens p c) a) false rest :=
      ih (fun d hd => ha d (List.mem_cons_of_mem c hd))
        fun hmem => h (Escape.mem_reading_cons.2 (Or.inr hmem))
    rw [Escape.escapeEach_cons, List.append_assoc, opensAfter, ← htail]
    by_cases hc : Escape.isParenthesis c = true
    · have hopens : opens p c = false :=
        Escape.opens_of_ne (Escape.ne_escapeChar_of_isParenthesis hc)
      have hbare : c = ')' → p = false := by
        rintro rfl
        by_contra hp
        rw [Bool.not_eq_false] at hp
        exact h (Escape.mem_reading_cons.2 (Or.inl ⟨hopens, by rw [hp]⟩))
      rw [if_pos hc, List.cons_append, List.singleton_append,
        scanTarget_parenthesis hc hbare, hblank, hopens]
    · have hclose : c ≠ ')' := by
        rintro rfl
        exact hc rfl
      rw [if_neg hc, List.singleton_append, scanTarget_inner hclose, hblank]

/-- The first parenthesis that a reference protects closes the target. -/
theorem exists_scanTarget_address (ha : ∀ c ∈ a, isBlank c = false) (rest : List Char)
    (h : (')', true) ∈ reading p a) : ∃ more,
      scanTarget p false (escapeEach Escape.isParenthesis a ++ rest) =
        some ⟨none, more ++ rest⟩ := by
  induction a generalizing p with
  | nil => cases h
  | cons c a ih =>
    have hblank : isBlank c = false := ha c (by simp)
    rw [Escape.escapeEach_cons, List.append_assoc]
    by_cases hfirst : c = ')' ∧ p = true
    · obtain ⟨rfl, rfl⟩ := hfirst
      have hparen : Escape.isParenthesis ')' = true := rfl
      refine ⟨escapeEach Escape.isParenthesis a, ?_⟩
      rw [if_pos hparen, List.cons_append, List.singleton_append, scanTarget_protected]
      rfl
    · have htail := ih (p := opens p c) (fun d hd => ha d (List.mem_cons_of_mem c hd)) <|
        (Escape.mem_reading_cons.1 h).resolve_left fun heq => hfirst
          ⟨(Prod.mk.inj heq.2).1.symm, (Prod.mk.inj heq.2).2.symm⟩
      by_cases hc : Escape.isParenthesis c = true
      · have hopens : opens p c = false :=
          Escape.opens_of_ne (Escape.ne_escapeChar_of_isParenthesis hc)
        rw [hopens] at htail
        rw [if_pos hc, List.cons_append, List.singleton_append,
          scanTarget_parenthesis hc (fun e => by simpa [e] using hfirst), hblank]
        exact htail
      · have hclose : c ≠ ')' := by
          rintro rfl
          exact hc rfl
        rw [if_neg hc, List.singleton_append, scanTarget_inner hclose, hblank]
        exact htail

/-! ## What is behind the reference -/

theorem scanTarget_close (p : Bool) :
    scanTarget p false [')'] = if p = true then none else some ⟨none, []⟩ := by
  cases p <;> rfl

theorem scanTarget_title (p : Bool) (t : List Char) :
    scanTarget p false (' ' :: '"' :: (t ++ ['"', ')'])) =
      (Escape.behindBare? '"' false (t ++ ['"', ')'])).bind fun rest =>
        (Escape.behindBare? ')' false rest).map (⟨some rest, ·⟩) := by
  rw [scanTarget_inner (by decide), Escape.opens_of_ne (by decide)]
  rfl

end Scan

/-- The target of a link or an image as characters. -/
theorem toList_target (style : Style) (r : Reference) (title : Option String) :
    (Session.target style r title).toList =
      '(' :: (escapeEach Escape.isParenthesis (style.address r).toList ++
        match shownTitle title with
        | none => [')']
        | some t => ' ' :: '"' :: (t ++ ['"', ')'])) := by
  have hreference : (Escape.reference (style.address r)).toList =
      escapeEach Escape.isParenthesis (style.address r).toList := by
    rw [Escape.reference, String.toList_ofList, Escape.escapeAll_parenthesis]
  unfold Session.target shownTitle
  rw [String.toList_append, String.toList_append, String.toList_append, hreference]
  rcases title with _ | t
  · simp
  · by_cases ht : Text.strip t = "" <;> simp [ht, Option.filter]

section Title

variable {address t : List Char}

theorem endsWell_cons_iff {inner : List Char} : EndsWell ('(' :: inner) ↔ ∃ e,
    scanTarget false false inner = some e ∧ (∀ rest, e.behindTitle = some rest → '"' ∉ rest) ∧
      e.behind = [] := by
  constructor
  · rintro ⟨_, e, heq, h⟩
    obtain rfl := (List.cons.inj heq).2
    exact ⟨e, h⟩
  · rintro ⟨e, h⟩
    exact ⟨inner, e, rfl, h⟩

/-- A title is read whole if it has no bare quote and does not protect its closing one. -/
theorem scanTarget_of_title (p : Bool) (hquote : ('"', false) ∉ reading false t)
    (hrest : opensAfter false t = false) :
    scanTarget p false (' ' :: '"' :: (t ++ ['"', ')'])) = some ⟨some [')'], []⟩ := by
  rw [scanTarget_title, Escape.behindBare?_append (by decide) _ hquote, hrest]
  rfl

theorem not_endsWell_of_title (p : Bool)
    (h : ('"', false) ∈ reading false t ∨ opensAfter false t = true) {e : TargetEnd}
    (he : scanTarget p false (' ' :: '"' :: (t ++ ['"', ')'])) = some e) :
    ∃ rest, e.behindTitle = some rest ∧ '"' ∈ rest := by
  rw [scanTarget_title] at he
  by_cases hquote : ('"', false) ∈ reading false t
  · obtain ⟨more, hmore⟩ := Escape.exists_behindBare? ['"', ')'] hquote
    rw [hmore, Option.bind_some, Option.map_eq_some_iff] at he
    obtain ⟨behind, -, rfl⟩ := he
    exact ⟨_, rfl, by simp⟩
  · -- The closing quote is protected, so the title never ends.
    rw [Escape.behindBare?_append (by decide) _ hquote, h.resolve_left hquote] at he
    cases he

end Title

/-- The target of a link or an image ends where it should exactly if its reference and its title are
closed by what is written behind them. -/
theorem target_endsWell_iff (style : Style) (r : Reference) (title : Option String)
    (h : ∀ c ∈ (style.address r).toList, isBlank c = false) :
    EndsWell (Session.target style r title).toList ↔
      TargetClosed (style.address r).toList (shownTitle title) := by
  rw [toList_target, endsWell_cons_iff]
  generalize shownTitle title = shown
  by_cases hparen : (')', true) ∈ reading false (style.address r).toList
  · obtain ⟨more, hmore⟩ := exists_scanTarget_address h _ hparen
    rw [hmore]
    refine iff_of_false ?_ fun hclosed => hclosed.parentheses hparen
    rintro ⟨e, he, -, hbehind⟩
    cases he
    cases shown <;> simp at hbehind
  rw [scanTarget_address h _ hparen]
  rcases shown with _ | t
  · rw [scanTarget_close]
    cases hrest : opensAfter false (style.address r).toList with
    | false => exact iff_of_true ⟨_, rfl, nofun, rfl⟩ ⟨hparen, fun _ => hrest, nofun⟩
    | true =>
      refine iff_of_false ?_ fun hclosed => ?_
      · rintro ⟨e, he, -⟩
        cases he
      · rw [hclosed.rest rfl] at hrest
        cases hrest
  · by_cases ht : ('"', false) ∉ reading false t ∧ opensAfter false t = false
    · refine iff_of_true ⟨_, scanTarget_of_title _ ht.1 ht.2, ?_, rfl⟩ ⟨hparen, nofun, ?_⟩
      · rintro rest hrest
        cases hrest
        decide
      · rintro t' ht'
        cases ht'
        exact ht
    · refine iff_of_false ?_ fun hclosed => ht (hclosed.title t rfl)
      rintro ⟨e, he, hquote, -⟩
      have hbad : ('"', false) ∈ reading false t ∨ opensAfter false t = true := by
        rw [not_and_or, not_not, Bool.not_eq_false] at ht
        exact ht
      obtain ⟨rest, hrest, hmem⟩ := not_endsWell_of_title _ hbad he
      exact hquote rest hrest hmem

/-- A page on the web with a parenthesis in its name. -/
def bracedPage : Reference := ⟨"a_(b)", "url", false, .empty⟩

theorem target_endsWell_bracedPage :
    (∀ c ∈ ((Style.standard {}).address bracedPage).toList, isBlank c = false) ∧
      EndsWell (Session.target (.standard {}) bracedPage (some "x :)")).toList := by
  have hnone : ((Style.standard {}).address bracedPage).toList.any isBlank = false := by
    decide +kernel
  have hblank : ∀ c ∈ ((Style.standard {}).address bracedPage).toList, isBlank c = false := by
    simpa using List.any_eq_false.1 hnone
  refine ⟨hblank, (target_endsWell_iff _ _ _ hblank).2 ⟨by decide +kernel, nofun, ?_⟩⟩
  have hshown : shownTitle (some "x :)") = some "x :)".toList := by decide +kernel
  rintro t ht
  obtain rfl := Option.some.inj (ht.symm.trans hshown)
  decide +kernel

/-- The quote in the title closes it, and another comes after that. -/
theorem quotedTitle_not_endsWell :
    Session.target (.standard {}) bracedPage (some "a\"b") = "(a_\\(b\\) \"a\"b\")" ∧
      ¬ EndsWell (Session.target (.standard {}) bracedPage (some "a\"b")).toList := by
  have htext : Session.target (.standard {}) bracedPage (some "a\"b") =
      "(a_\\(b\\) \"a\"b\")" := by decide +kernel
  refine ⟨htext, ?_⟩
  rw [htext]
  rintro ⟨inner, e, hinner, he, hquote, -⟩
  obtain rfl : inner = "a_\\(b\\) \"a\"b\")".toList := (List.cons.inj hinner).2.symm
  have hscan : scanTarget false false "a_\\(b\\) \"a\"b\")".toList =
      some ⟨some "b\")".toList, []⟩ := by decide +kernel
  rw [hscan] at he
  cases he
  exact hquote _ rfl (by decide)

end Markwright
