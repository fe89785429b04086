import Mathlib.Data.List.DropRight
import Markwright.Proofs.Bars
import Markwright.Proofs.Openings

/-!
# Text without bars, line marks and emphasis

The rules for bars, for the start of a line and for emphasis are followed by others, which put
further escape characters into the text. They undo nothing: no bar of an escaped text divides a
row, no escaped line is live, and no emphasis opens anywhere (`markdown_unmarked`).
-/

namespace Markwright.Escape

open Text (isBlank)

/-- A text protects what comes after it when the escape characters at its end are odd in number:
those before pair up. -/
theorem opensAfter_iff (a : List Char) :
    opensAfter false a = true ↔ (a.rtakeWhile (· == escapeChar)).length % 2 = 1 := by
  induction a using List.reverseRecOn with
  | nil => simp [opensAfter]
  | append_singleton a c ih =>
    rw [opensAfter_append, opensAfter, opensAfter]
    by_cases hc : c = escapeChar
    · subst hc
      rw [List.rtakeWhile_concat_pos _ _ _ (by simp), List.length_append, List.length_singleton]
      cases hopen : opensAfter false a with
      | true =>
        have hodd := ih.1 hopen
        simp only [opens_true, Bool.false_eq_true, false_iff]
        omega
      | false =>
        have heven : ¬ (a.rtakeWhile (· == escapeChar)).length % 2 = 1 := mt ih.2 (by simp [hopen])
        simp only [opens_escapeChar, true_iff]
        omega
    · rw [List.rtakeWhile_concat_neg _ _ _ (by simpa using hc), opens_of_ne hc]
      simp

theorem opensAfter_of_bars {a b : List Char} (h : bars false (a ++ '|' :: b) = 0) :
    opensAfter false a = true := by
  rw [bars_append, bars] at h
  by_contra hnot
  rw [Bool.not_eq_true] at hnot
  rw [if_pos ⟨rfl, hnot⟩] at h
  omega

/-- No emphasis opens anywhere. -/
def Unemphasized (cs : List Char) : Prop :=
  ∀ a b, cs = a ++ b → ¬ (Marker.emphasis.hit? a.isEmpty b).isSome

/-- No blank is swallowed by emphasis, so none is left to open another. -/
theorem unemphasized_escapeAll (cs : List Char) :
    Unemphasized (Marker.emphasis.escapeAll true cs) := by
  intro a b hsplit h
  have hswallowed := Marker.opens_emphasis.swallowed_of_hit true cs hsplit h
  obtain ⟨front, inner, x, outer, rest, -, -, hx, hself⟩ :=
    Marker.opens_emphasis.exists_of_swallowed hswallowed h
  have hblank := Marker.isBlank_of_emphasisLength? hself x (by simp)
  rw [hx] at hblank
  cases hblank

/-- Escape characters before other marks open no emphasis. -/
theorem Unemphasized.inserts {K u v : List Char}
    (hK : ∀ x ∈ K, Marker.isEmphasis x = false ∧ isBlank x = false) (h : Inserts K u v)
    (hu : Unemphasized u) : Unemphasized v := by
  rintro a b rfl hhit
  obtain ⟨c, d, hcd, -, -, hold⟩ := Marker.opens_emphasis.exists_hit_of_inserts
    (fun x hx => (hK x hx).2) (Marker.isSome_emphasisLength?_of_inserts hK) h hhit
  exact hu c d hcd hold

theorem unemphasized_escapeSpan (ctx : Context) (cs : List Char) :
    Unemphasized (escapeSpan ctx cs) := by
  have hscripts : ∀ x ∈ ['^', '~'], Marker.isEmphasis x = false ∧ isBlank x = false :=
    List.forall_mem_cons.2 ⟨by decide, List.forall_mem_singleton.2 (by decide)⟩
  have hlast : ∀ x ∈ [Marker.tick, ':'], Marker.isEmphasis x = false ∧ isBlank x = false :=
    List.forall_mem_cons.2 ⟨by decide, List.forall_mem_singleton.2 (by decide)⟩
  have hseven : Unemphasized (stage ctx 7 cs) := unemphasized_escapeAll (stage ctx 6 cs)
  have height : Unemphasized (stage ctx 8 cs) :=
    hseven.inserts hscripts (inserts_script true (stage ctx 7 cs))
  exact last_of_script (.inserts hlast) height

/-- What the rules for bars, line starts and emphasis have done to a text holds at the end. -/
theorem markdown_unmarked (ctx : Context) (s : String) :
    (ctx.inTable = true → ∀ a b, (markdown ctx s).toList = a ++ '|' :: b →
      (a.rtakeWhile (· == escapeChar)).length % 2 = 1) ∧
    (ctx.inLine = true ∧ ctx.onNewLine = true → ¬ IsLive (markdown ctx s).toList) ∧
    ∀ a b, (markdown ctx s).toList = a ++ b → Marker.emphasis.hit? a.isEmpty b = none := by
  rw [toList_markdown]
  refine ⟨fun htable a b hsplit => ?_, fun hline => not_isLive_escapeSpan hline s.toList,
    fun a b hsplit => ?_⟩
  · have hbars := bars_escapeSpan htable s.toList
    rw [hsplit] at hbars
    exact (opensAfter_iff a).1 (opensAfter_of_bars hbars)
  · simpa using unemphasized_escapeSpan ctx s.toList a b hsplit

theorem markdown_unmarked_barredItem :
    ("\\* a\\".toList.rtakeWhile (· == escapeChar)).length % 2 = 1 ∧
      ¬ IsLive (markdown ⟨true, true, true, false⟩ "* a| *b").toList ∧
      Marker.emphasis.hit? false " \\*b".toList = none := by
  obtain ⟨hbars, hline, hemphasis⟩ := markdown_unmarked ⟨true, true, true, false⟩ "* a| *b"
  refine ⟨hbars rfl _ " \\*b".toList (by decide +kernel), hline ⟨rfl, rfl⟩, ?_⟩
  exact hemphasis "\\* a\\|".toList _ (by decide +kernel)

end Markwright.Escape
