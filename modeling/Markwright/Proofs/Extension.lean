import Mathlib.Data.List.TakeWhile
import Markwright.Session

/-!
# What writing leaves alone

Printing only adds to what the active printer has written. It keeps its line prefixes, it does not
turn the escaping of spaces on, and it does not touch the printers below (`Printer.Extends`,
`PrinterStack.Extends`). A container may hold something on its printer while it is open, a line
prefix or the escaping of spaces (`Held`), and one that captures pushes a printer and takes it off
again; either way what lies between is an extension.
-/

namespace Markwright

/-- What of a text is not suppressed. -/
def Printer.passed (p : Printer) (s : String) : List Char :=
  if p.suppressBreaks then s.toList.dropWhile (· == '\n') else s.toList

theorem Printer.passed_of_head?_ne {p : Printer} {s : String}
    (hs : p.suppressBreaks = true → s.toList.head? ≠ some '\n') : p.passed s = s.toList := by
  rw [passed]
  split
  · rename_i hp
    rcases hcs : s.toList with _ | ⟨c, cs⟩
    · rfl
    · have hc := hs hp
      rw [hcs, List.head?_cons] at hc
      refine List.dropWhile_cons_of_neg ?_
      rw [beq_iff_eq]
      rintro rfl
      exact hc rfl
  · rfl

theorem Printer.indentation_of_nil {p : Printer} (h : p.linePrefixes = []) :
    p.indentation = [] := by
  rw [indentation, h]
  rfl

theorem Printer.write_of_passed_nil {p : Printer} {s : String} (h : p.passed s = []) :
    p.write s = p := by
  unfold Printer.passed at h
  simp [Printer.write, h]

theorem Printer.write_of_passed_ne {p : Printer} {s : String} (h : p.passed s ≠ []) :
    p.write s = { p with
      written := p.written ++ String.ofList ((if p.pageBlank then p.indentation else []) ++
        indentBreaks p.indentation (p.passed s))
      pageBlank := false
      suppressBreaks := false
      onNewLine := (p.passed s).getLast? == some '\n' } := by
  unfold Printer.passed at h ⊢
  rw [Printer.write, if_neg (by simpa using h)]

@[simp] theorem Printer.pending_write (p : Printer) (s : String) :
    (p.write s).pending = p.pending := by
  by_cases h : p.passed s = []
  · rw [Printer.write_of_passed_nil h]
  · rw [Printer.write_of_passed_ne h]

@[simp] theorem Printer.pending_flush (p : Printer) (around : Surroundings) :
    (p.flush around).pending = none := by
  unfold Printer.flush
  split
  · assumption
  · simp

@[simp] theorem Printer.pending_print (p : Printer) (around : Surroundings) (s : String) :
    (p.print around s).pending = none := by
  simp [Printer.print]

theorem Printer.flush_of_none {p : Printer} (around : Surroundings) (h : p.pending = none) :
    p.flush around = p := by
  simp [flush, h]

/-- Breaks alone are not written where breaks are suppressed. -/
theorem Printer.write_of_suppressed {p : Printer} {s : String} (h : p.suppressBreaks = true)
    (hs : ∀ c ∈ s.toList, c = '\n') : p.write s = p := by
  refine write_of_passed_nil ?_
  rw [passed, if_pos h, List.dropWhile_eq_nil_iff]
  intro c hc
  rw [hs c hc]
  rfl

theorem Printer.print_of_suppressed {p : Printer} {s : String} (around : Surroundings)
    (h : p.suppressBreaks = true) (hp : p.pending = none) (hs : ∀ c ∈ s.toList, c = '\n') :
    p.print around s = p := by
  rw [print, flush_of_none around hp, write_of_suppressed h hs]

/-- What an open container holds on its printer. -/
structure Held where
  linePrefixes : List String
  escapeSpaces : Bool

/-- Nothing is held. -/
def Held.none : Held := ⟨[], false⟩

/-- `q` has written what `p` has and perhaps more, and what is held on it besides. -/
structure Printer.Extends (held : Held) (p q : Printer) : Prop where
  written : ∃ more, q.written = p.written ++ more
  linePrefixes : q.linePrefixes = p.linePrefixes ++ held.linePrefixes
  escapeSpaces : q.escapeSpaces = true → held.escapeSpaces = true ∨ p.escapeSpaces = true

namespace Printer.Extends

variable {held : Held} {p q r : Printer}

theorem of_eq (hw : q.written = p.written) (hl : q.linePrefixes = p.linePrefixes)
    (he : q.escapeSpaces = p.escapeSpaces) : Extends .none p q :=
  ⟨⟨"", by simp [hw]⟩, by simp [hl, Held.none], fun h => Or.inr (he ▸ h)⟩

protected theorem refl (p : Printer) : Extends .none p p := of_eq rfl rfl rfl

protected theorem trans (h : Extends held p q) (k : Extends .none q r) : Extends held p r := by
  obtain ⟨m, hm⟩ := h.written
  obtain ⟨m', hm'⟩ := k.written
  refine ⟨⟨m ++ m', by rw [hm', hm, String.append_assoc]⟩, ?_, fun hr => ?_⟩
  · rw [k.linePrefixes, h.linePrefixes]
    simp [Held.none]
  · rcases k.escapeSpaces hr with hq | hq
    · cases hq
    · exact h.escapeSpaces hq

protected theorem after (h : Extends .none p q) (k : Extends held q r) : Extends held p r := by
  obtain ⟨m, hm⟩ := h.written
  obtain ⟨m', hm'⟩ := k.written
  refine ⟨⟨m ++ m', by rw [hm', hm, String.append_assoc]⟩, ?_, fun hr => ?_⟩
  · rw [k.linePrefixes, h.linePrefixes]
    simp [Held.none]
  · rcases k.escapeSpaces hr with hq | hq
    · exact Or.inl hq
    · rcases h.escapeSpaces hq with hp | hp
      · cases hp
      · exact Or.inr hp

theorem write (p : Printer) (s : String) : Extends .none p (p.write s) := by
  by_cases h : p.passed s = []
  · rw [Printer.write_of_passed_nil h]
    exact .refl p
  · rw [Printer.write_of_passed_ne h]
    exact ⟨⟨_, rfl⟩, by simp [Held.none], Or.inr⟩

theorem flush (p : Printer) (around : Surroundings) : Extends .none p (p.flush around) := by
  unfold Printer.flush
  split
  · exact .refl p
  · have h : Extends .none p { p with pending := none, flushes := p.flushes + 1 } :=
      of_eq rfl rfl rfl
    exact h.trans (.write _ _)

theorem print (p : Printer) (around : Surroundings) (s : String) :
    Extends .none p (p.print around s) :=
  (flush p around).trans (write _ s)

theorem pushPrefix (p : Printer) (s : String) : Extends ⟨[s], false⟩ p (p.pushPrefix s) :=
  ⟨⟨"", by simp [Printer.pushPrefix]⟩, rfl, Or.inr⟩

theorem popPrefix? {x : String} (h : Extends ⟨[x], false⟩ p q) :
    ∃ r, q.popPrefix? = some (x, r) ∧ Extends .none p r ∧ r.pending = q.pending := by
  have hlast : q.linePrefixes.getLast? = some x := by simp [h.linePrefixes]
  refine ⟨{ q with linePrefixes := q.linePrefixes.dropLast }, ?_, ?_, rfl⟩
  · simp [Printer.popPrefix?, hlast]
  · exact ⟨h.written, by simp [h.linePrefixes, Held.none], h.escapeSpaces⟩

end Printer.Extends

/-! ## Stacks -/

namespace PrinterStack

@[simp] theorem active_setActive (s : PrinterStack) (p : Printer) : (s.setActive p).active = p := by
  obtain ⟨root, captures⟩ := s
  cases captures <;> rfl

@[simp] theorem setActive_setActive (s : PrinterStack) (p q : Printer) :
    (s.setActive p).setActive q = s.setActive q := by
  obtain ⟨root, captures⟩ := s
  cases captures <;> rfl

@[simp] theorem setActive_active (s : PrinterStack) : s.setActive s.active = s := by
  obtain ⟨root, captures⟩ := s
  cases captures <;> rfl

theorem depth_setActive (s : PrinterStack) (p : Printer) : (s.setActive p).depth = s.depth := by
  obtain ⟨root, captures⟩ := s
  cases captures <;> rfl

/-- The active printer is extended, and those below it stay. -/
def Extends (held : Held) (s t : PrinterStack) : Prop :=
  ∃ p, Printer.Extends held s.active p ∧ t = s.setActive p

/-- `t` is `s` with a fresh capture on top. -/
def Captures (s t : PrinterStack) : Prop := ∃ p, t = { s with captures := p :: s.captures }

variable {held : Held} {s t u : PrinterStack}

protected theorem Extends.refl (s : PrinterStack) : Extends .none s s :=
  ⟨_, .refl _, (setActive_active s).symm⟩

protected theorem Extends.trans (h : Extends held s t) (k : Extends .none t u) :
    Extends held s u := by
  obtain ⟨p, hp, rfl⟩ := h
  obtain ⟨q, hq, rfl⟩ := k
  rw [active_setActive] at hq
  exact ⟨q, hp.trans hq, setActive_setActive s p q⟩

protected theorem Extends.after (h : Extends .none s t) (k : Extends held t u) :
    Extends held s u := by
  obtain ⟨p, hp, rfl⟩ := h
  obtain ⟨q, hq, rfl⟩ := k
  rw [active_setActive] at hq
  exact ⟨q, hp.after hq, setActive_setActive s p q⟩

theorem Extends.modify {f : Printer → Printer} (h : Printer.Extends held s.active (f s.active)) :
    Extends held s (s.modify f) := ⟨_, h, rfl⟩

theorem Extends.depth (h : Extends held s t) : t.depth = s.depth := by
  obtain ⟨p, -, rfl⟩ := h
  exact depth_setActive s p

theorem Extends.active (h : Extends held s t) : Printer.Extends held s.active t.active := by
  obtain ⟨p, hp, rfl⟩ := h
  rwa [active_setActive]

theorem active_eq_root (h : s.captures = []) : s.active = s.root := by
  simp [PrinterStack.active, h]

theorem Extends.captures_eq_nil (h : Extends held s t) (hs : s.captures = []) :
    t.captures = [] := by
  obtain ⟨p, -, rfl⟩ := h
  simp [setActive, hs]

theorem captures_push (s : PrinterStack) : Captures s s.push := ⟨_, rfl⟩

theorem Captures.extends (h : Captures s t) (k : Extends held t u) : Captures s u := by
  obtain ⟨p, rfl⟩ := h
  obtain ⟨q, -, rfl⟩ := k
  exact ⟨q, rfl⟩

theorem Captures.pop? (h : Captures s t) (around : Surroundings) :
    t.pop? around = some (t.active.flush around, s) := by
  obtain ⟨p, rfl⟩ := h
  rfl

end PrinterStack

end Markwright
