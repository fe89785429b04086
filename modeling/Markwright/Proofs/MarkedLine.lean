import Mathlib.Data.List.Induction
import Markwright.Proofs.Extension

/-!
# Lines that begin with marks

A printer whose line prefixes are marks of quotations and blanks begins each line with all of them,
so the line that has been begun has a mark for each that was held when it was broken last. Writing
does not take marks from a line (`Printer.Marked`), and a quotation brings one more unless its line
breaks are dropped (`Printer.Marked.quotation`).
-/

namespace Markwright

/-! ## Lines -/

/-- The line that a text ends in. -/
def lastLine (cs : List Char) : List Char := (cs.reverse.takeWhile (· ≠ '\n')).reverse

/-- The marks of quotations that a line begins with. -/
def quoteMarks : List Char → Nat
  | ' ' :: rest => quoteMarks rest
  | '>' :: ' ' :: rest => quoteMarks rest + 1
  | _ => 0

section Lines

variable {a b : List Char}

theorem lastLine_append_of_not_mem (h : '\n' ∉ b) : lastLine (a ++ b) = lastLine a ++ b := by
  have hb : ∀ c ∈ b.reverse, decide (c ≠ '\n') = true := by
    intro c hc
    exact decide_eq_true fun e => h (e ▸ List.mem_reverse.1 hc)
  rw [lastLine, List.reverse_append, List.takeWhile_append_of_pos hb, List.reverse_append,
    List.reverse_reverse, lastLine]

theorem lastLine_append_break (a b : List Char) (h : '\n' ∉ b) :
    lastLine (a ++ '\n' :: b) = b := by
  have hbreak : lastLine (a ++ ['\n']) = [] := by simp [lastLine]
  rw [List.append_cons, lastLine_append_of_not_mem h, hbreak, List.nil_append]

theorem quoteMarks_le_append (a b : List Char) : quoteMarks a ≤ quoteMarks (a ++ b) := by
  fun_induction quoteMarks a with
  | case1 rest ih => simpa [quoteMarks] using ih
  | case2 rest ih => simpa [quoteMarks] using ih
  | case3 => exact Nat.zero_le _

end Lines

/-- What a line prefix may be here: the mark of a quotation, or blanks. -/
def IsIndent (x : String) : Prop := x = "> " ∨ ∀ c ∈ x.toList, c = ' '

section Indents

variable {x : String} {prefixes : List String}

theorem quoteMarks_blanks_append : ∀ {cs : List Char} (rest : List Char), (∀ c ∈ cs, c = ' ') →
    quoteMarks (cs ++ rest) = quoteMarks rest
  | [], _, _ => rfl
  | c :: cs, rest, h => by
    obtain rfl := h c (by simp)
    rw [List.cons_append, quoteMarks]
    exact quoteMarks_blanks_append rest fun d hd => h d (by simp [hd])

theorem IsIndent.break_not_mem (h : IsIndent x) : '\n' ∉ x.toList := by
  rcases h with rfl | h
  · decide
  · exact fun hm => absurd (h _ hm) (by decide)

theorem break_not_mem_join (h : ∀ x ∈ prefixes, IsIndent x) :
    '\n' ∉ (String.join prefixes).toList := by
  induction prefixes with
  | nil => simp
  | cons x rest ih =>
    rw [String.join_cons, String.toList_append, List.mem_append, not_or]
    exact ⟨(h x (by simp)).break_not_mem, ih fun y hy => h y (by simp [hy])⟩

/-- Written out, line prefixes begin a line with as many marks as there are among them. -/
theorem quoteMarks_join (h : ∀ x ∈ prefixes, IsIndent x) :
    quoteMarks (String.join prefixes).toList = prefixes.count "> " := by
  induction prefixes with
  | nil => rfl
  | cons x rest ih =>
    have hrest := ih fun y hy => h y (by simp [hy])
    rw [String.join_cons, String.toList_append]
    by_cases hx : x = "> "
    · subst hx
      rw [List.count_cons_self, ← hrest]
      rfl
    · rw [List.count_cons_of_ne hx, ← hrest]
      exact quoteMarks_blanks_append _ ((h x (by simp)).resolve_left hx)

end Indents

/-! ## Printers -/

namespace Printer

variable {p : Printer} {k : Nat} {s x : String} {cs : List Char} {around : Surroundings}

/-- What a text is once it is escaped where it waits, but for the line breaks that are dropped. -/
def waiting (p : Printer) (around : Surroundings) : List Char :=
  p.passed (Escape.markdown (p.context around) (p.pending.getD ""))

/-- The page once the characters `cs` are written, with the line prefixes that come among them. -/
def before (p : Printer) (cs : List Char) : List Char :=
  p.written.toList ++ ((if p.pageBlank then p.indentation else []) ++ indentBreaks p.indentation cs)

theorem indentBreaks_of_not_mem {indent : List Char} (h : '\n' ∉ cs) :
    indentBreaks indent cs = cs := by
  induction cs with
  | nil => rfl
  | cons c cs ih =>
    obtain ⟨hc, hcs⟩ := not_or.1 (mt List.mem_cons.2 h)
    have hrest := ih hcs
    simp only [indentBreaks] at hrest
    simp [indentBreaks, Ne.symm hc, hrest]

theorem before_append (p : Printer) (a b : List Char) :
    p.before (a ++ b) = p.before a ++ indentBreaks p.indentation b := by
  simp [before, indentBreaks]

theorem before_concat (p : Printer) (cs : List Char) (c : Char) :
    p.before (cs ++ [c]) = p.before cs ++ if c = '\n' then '\n' :: p.indentation else [c] := by
  simp [before_append, indentBreaks]

theorem written_write (p : Printer) (s : String) (h : p.passed s ≠ []) :
    (p.write s).written.toList = p.before (p.passed s) := by
  rw [write_of_passed_ne h]
  simp [before]

/-- Line prefixes are marks and blanks, at least `k` of them marks, and the line that has been begun
has `k` marks as well. -/
structure Marked (k : Nat) (p : Printer) : Prop where
  indents : ∀ x ∈ p.linePrefixes, IsIndent x
  held : k ≤ p.linePrefixes.count "> "
  blank : p.pageBlank = true → p.written = ""
  line : p.pageBlank = false → k ≤ quoteMarks (lastLine p.written.toList)

theorem quoteMarks_indentation (h : ∀ x ∈ p.linePrefixes, IsIndent x) :
    quoteMarks p.indentation = p.linePrefixes.count "> " := quoteMarks_join h

theorem break_not_mem_indentation (h : ∀ x ∈ p.linePrefixes, IsIndent x) :
    '\n' ∉ p.indentation := break_not_mem_join h

/-- After a line break the line has all the marks. -/
theorem count_le_before (h : ∀ x ∈ p.linePrefixes, IsIndent x) (hcs : '\n' ∈ cs) :
    p.linePrefixes.count "> " ≤ quoteMarks (lastLine (p.before cs)) := by
  induction cs using List.reverseRecOn with
  | nil => cases hcs
  | append_singleton cs c ih =>
    rw [before_concat]
    split
    · rw [lastLine_append_break _ _ (break_not_mem_indentation h)]
      exact Nat.le_of_eq (quoteMarks_indentation h).symm
    · rename_i hc
      have hcs : '\n' ∈ cs := by simpa [Ne.symm hc] using hcs
      rw [lastLine_append_of_not_mem (by simpa using Ne.symm hc)]
      exact Nat.le_trans (ih hcs) (quoteMarks_le_append _ _)

theorem Marked.before (h : p.Marked k) (cs : List Char) :
    k ≤ quoteMarks (lastLine (p.before cs)) := by
  by_cases hcs : '\n' ∈ cs
  · exact Nat.le_trans h.held (count_le_before h.indents hcs)
  · rw [Printer.before, indentBreaks_of_not_mem hcs]
    by_cases hb : p.pageBlank = true
    · have hlead := break_not_mem_indentation h.indents
      rw [h.blank hb, if_pos hb, String.toList_empty, List.nil_append, ← List.nil_append (_ ++ _),
        lastLine_append_of_not_mem (by simp [hlead, hcs])]
      refine Nat.le_trans h.held ?_
      rw [← quoteMarks_indentation h.indents]
      exact quoteMarks_le_append _ _
    · rw [if_neg hb, List.nil_append, lastLine_append_of_not_mem hcs]
      exact Nat.le_trans (h.line (by simpa using hb)) (quoteMarks_le_append _ _)

theorem Marked.mono {j : Nat} (h : p.Marked k) (hj : j ≤ k) : p.Marked j :=
  ⟨h.indents, Nat.le_trans hj h.held, h.blank, fun hb => Nat.le_trans hj (h.line hb)⟩

theorem Marked.write (h : p.Marked k) (s : String) : (p.write s).Marked k := by
  by_cases hs : p.passed s = []
  · rwa [write_of_passed_nil hs]
  · have hline := h.before (p.passed s)
    rw [← written_write p s hs] at hline
    rw [write_of_passed_ne hs] at hline ⊢
    exact ⟨h.indents, h.held, nofun, fun _ => hline⟩

theorem Marked.flush (h : p.Marked k) (around : Surroundings) : (p.flush around).Marked k := by
  unfold Printer.flush
  split
  · exact h
  · have hq : Marked k { p with pending := none, flushes := p.flushes + 1 } :=
      ⟨h.indents, h.held, h.blank, h.line⟩
    exact hq.write _

theorem Marked.print (h : p.Marked k) (around : Surroundings) (s : String) :
    (p.print around s).Marked k := (h.flush around).write s

theorem passed_break (p : Printer) :
    p.passed "\n" = if p.suppressBreaks then [] else ['\n'] := by
  rw [passed]
  cases p.suppressBreaks <;> rfl

/-- A line break that is not dropped brings all the marks of the line prefixes. -/
theorem Marked.write_break (h : p.Marked k) (hp : p.suppressBreaks = false) :
    (p.write "\n").Marked (p.linePrefixes.count "> ") := by
  have hne : p.passed "\n" ≠ [] := by simp [passed_break, hp]
  have hmem : '\n' ∈ p.passed "\n" := by simp [passed_break, hp]
  have hline := count_le_before h.indents hmem
  rw [← written_write p "\n" hne] at hline
  rw [write_of_passed_ne hne] at hline ⊢
  exact ⟨h.indents, Nat.le_refl _, nofun, fun _ => hline⟩

theorem Marked.pushPrefix (h : p.Marked k) (hx : IsIndent x) : (p.pushPrefix x).Marked k := by
  refine ⟨?_, ?_, h.blank, h.line⟩
  · simpa [Printer.pushPrefix, or_imp, forall_and] using ⟨h.indents, hx⟩
  · rw [Printer.pushPrefix, List.count_append]
    exact Nat.le_add_right_of_le h.held

theorem Marked.suppress (h : p.Marked k) : Marked k { p with suppressBreaks := true } :=
  ⟨h.indents, h.held, h.blank, h.line⟩

/-- A quotation whose line breaks are not dropped starts a line with one mark more. -/
theorem Marked.quotation (h : p.Marked k) (hp : (p.suppressBreaks && !p.pageBlank) = false) :
    (((p.write "\n").pushPrefix "> ").write "\n").Marked (k + 1) := by
  by_cases hs : p.suppressBreaks = true
  · -- Both breaks are dropped, and the mark will come with the first character of the page.
    have hblank : p.pageBlank = true := by simpa [hs] using hp
    have hdropped : p.passed "\n" = [] := by simp [passed_break, hs]
    have hpush := h.pushPrefix (Or.inl rfl : IsIndent "> ")
    rw [write_of_passed_nil hdropped, write_of_passed_nil (p := p.pushPrefix "> ") hdropped]
    refine ⟨hpush.indents, ?_, h.blank, fun hb => ?_⟩
    · rw [Printer.pushPrefix, List.count_append, List.count_singleton_self]
      exact Nat.succ_le_succ h.held
    · exact absurd hblank (Bool.eq_false_iff.1 hb)
  · -- The first break ends the suppression, so the second one comes with the new mark.
    have hs : p.suppressBreaks = false := by simpa using hs
    have hne : p.passed "\n" ≠ [] := by simp [passed_break, hs]
    have hpush := (h.write "\n").pushPrefix (Or.inl rfl : IsIndent "> ")
    have hon : ((p.write "\n").pushPrefix "> ").suppressBreaks = false := by
      rw [write_of_passed_ne hne]
      rfl
    refine (hpush.write_break hon).mono ?_
    rw [write_of_passed_ne hne, Printer.pushPrefix, List.count_append, List.count_singleton_self]
    exact Nat.succ_le_succ h.held

/-- Each character that waits is written after what comes before it. -/
theorem before_prefix_flush {a b : List Char} {c : Char} (hp : p.pending ≠ none)
    (h : p.waiting around = a ++ c :: b) :
    p.before a ++ [c] <+: (p.flush around).written.toList := by
  obtain ⟨text, hp⟩ := Option.ne_none_iff_exists'.1 hp
  have hpassed : p.passed (Escape.markdown (p.context around) text) = a ++ c :: b := by
    rw [← h, waiting, hp]
    rfl
  have hflush : (p.flush around).written.toList = p.before (a ++ c :: b) := by
    rw [Printer.flush, hp, ← hpassed]
    exact written_write { p with pending := none, flushes := p.flushes + 1 } _
      (hpassed.trans_ne (by simp))
  rw [hflush, before_append, List.prefix_append_right_inj]
  by_cases hc : c = '\n' <;> simp [indentBreaks, hc]

end Printer

end Markwright
