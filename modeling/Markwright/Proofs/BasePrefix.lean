import Markwright.Printer.Script
import Markwright.Proofs.MarkedLine

/-!
# A line prefix below all others

A line prefix that is put on a fresh printer comes before every line and does nothing else. What is
done with the printer afterwards cannot tell (`Bench.bench_runAll_under`): the page is indented
(`Printer.under`), and the flags, what is pending and what is escaped are as they were without it.
The line prefixes above it must not break lines, since the lines that they broke would not be
indented, and no more of them may be taken off than were put on.
-/

namespace Markwright

/-- The text with `indent` before it and behind each of its line breaks. Nothing comes before an
empty text. -/
def indented (indent text : String) : String :=
  if text = "" then ""
  else
    indent ++ String.ofList
      (text.toList.flatMap fun c => if c = '\n' then '\n' :: indent.toList else [c])

namespace Printer

variable {p : Printer} {s x : String} {around : Surroundings} {indent : String}

/-- The printer with `indent` below its line prefixes, and its page indented. -/
def under (indent : String) (p : Printer) : Printer :=
  { p with
    written := indented indent p.written
    linePrefixes := indent :: p.linePrefixes }

/-- A page is blank as long as nothing is on it, and line prefixes do not break lines. -/
structure Plain (p : Printer) : Prop where
  blank : p.pageBlank = true ↔ p.written = ""
  prefixes : ∀ x ∈ p.linePrefixes, '\n' ∉ x.toList

theorem plain_fresh (onNewLine : Bool) : (fresh onNewLine).Plain := ⟨iff_of_true rfl rfl, nofun⟩

theorem Plain.break_not_mem_indentation (h : p.Plain) : '\n' ∉ p.indentation := by
  rw [indentation, String.toList_join, List.mem_flatMap]
  rintro ⟨x, hx, hbreak⟩
  exact h.prefixes x hx hbreak

theorem indentBreaks_append (indent a b : List Char) :
    indentBreaks indent (a ++ b) = indentBreaks indent a ++ indentBreaks indent b :=
  List.flatMap_append

theorem indentBreaks_ne_nil {indent cs : List Char} (h : cs ≠ []) :
    indentBreaks indent cs ≠ [] := by
  obtain ⟨c, cs, rfl⟩ := List.exists_cons_of_ne_nil h
  rw [indentBreaks, List.flatMap_cons]
  split <;> exact List.cons_ne_nil _ _

/-- Indenting twice puts the outer indentation before the inner one. -/
theorem indentBreaks_indentBreaks (outer : List Char) {inner : List Char} (h : '\n' ∉ inner)
    (cs : List Char) :
    indentBreaks outer (indentBreaks inner cs) = indentBreaks (outer ++ inner) cs := by
  have hinner : indentBreaks outer inner = inner := indentBreaks_of_not_mem h
  unfold indentBreaks at hinner ⊢
  rw [List.flatMap_assoc]
  congr 1
  funext c
  by_cases hc : c = '\n' <;> simp [hc, hinner]

theorem toList_indented (indent : String) {text : String} (h : text ≠ "") :
    (indented indent text).toList = indent.toList ++ indentBreaks indent.toList text.toList := by
  rw [indented, if_neg h, String.toList_append, String.toList_ofList, indentBreaks]

theorem indentation_under (indent : String) (p : Printer) :
    (p.under indent).indentation = indent.toList ++ p.indentation := by
  rw [indentation, under, String.join_cons, String.toList_append, indentation]

theorem written_write_ne (h : p.passed s ≠ []) : (p.write s).written ≠ "" := by
  intro hempty
  have hbefore := written_write p s h
  rw [hempty, before] at hbefore
  simp [indentBreaks_ne_nil h] at hbefore

/-- The page with more on it is indented as it was before. -/
theorem before_under (h : p.Plain) (cs : List Char) :
    (p.under indent).before cs =
      indent.toList ++ indentBreaks indent.toList (p.before cs) := by
  have hlead : indentBreaks indent.toList p.indentation = p.indentation :=
    indentBreaks_of_not_mem h.break_not_mem_indentation
  have hlines : indentBreaks (p.under indent).indentation cs =
      indentBreaks indent.toList (indentBreaks p.indentation cs) := by
    rw [indentBreaks_indentBreaks _ h.break_not_mem_indentation, indentation_under]
  have hwritten : (p.under indent).written = indented indent p.written := rfl
  have hblank : (p.under indent).pageBlank = p.pageBlank := rfl
  rw [before, hlines, hwritten, hblank, before, indentBreaks_append, indentBreaks_append]
  by_cases hp : p.pageBlank = true
  · rw [if_pos hp, if_pos hp, h.blank.1 hp, indentation_under, hlead, List.append_assoc]
    rfl
  · rw [if_neg hp, if_neg hp, toList_indented indent (mt h.blank.2 hp), List.append_assoc]
    rfl

theorem write_under (h : p.Plain) (s : String) :
    (p.under indent).write s = (p.write s).under indent := by
  have hpassed : (p.under indent).passed s = p.passed s := rfl
  by_cases hs : p.passed s = []
  · rw [write_of_passed_nil hs, write_of_passed_nil (hpassed.trans hs)]
  · have hs' : (p.under indent).passed s ≠ [] := hpassed ▸ hs
    have hwritten : ((p.under indent).write s).written = indented indent (p.write s).written := by
      rw [← String.toList_inj, written_write _ _ hs', hpassed, before_under h,
        toList_indented indent (written_write_ne hs), written_write p s hs]
    rw [write_of_passed_ne hs, write_of_passed_ne hs'] at hwritten ⊢
    exact congrArg (fun written => { p with
      written := written
      linePrefixes := indent :: p.linePrefixes
      pageBlank := false
      suppressBreaks := false
      onNewLine := (p.passed s).getLast? == some '\n' : Printer }) hwritten

theorem Plain.write (h : p.Plain) (s : String) : (p.write s).Plain := by
  by_cases hs : p.passed s = []
  · rwa [write_of_passed_nil hs]
  · have hnonempty := written_write_ne hs
    rw [write_of_passed_ne hs] at hnonempty ⊢
    exact ⟨iff_of_false Bool.false_ne_true hnonempty, h.prefixes⟩

/-- Escaping sees the same flags. -/
theorem flush_under (h : p.Plain) (around : Surroundings) :
    (p.under indent).flush around = (p.flush around).under indent := by
  have hpending : (p.under indent).pending = p.pending := rfl
  unfold flush
  rw [hpending]
  split
  · rfl
  · have hplain : Plain { p with pending := none, flushes := p.flushes + 1 } :=
      ⟨h.blank, h.prefixes⟩
    exact write_under hplain _

theorem Plain.flush (h : p.Plain) (around : Surroundings) : (p.flush around).Plain := by
  unfold Printer.flush
  split
  · exact h
  · have hplain : Plain { p with pending := none, flushes := p.flushes + 1 } :=
      ⟨h.blank, h.prefixes⟩
    exact hplain.write _

theorem print_under (h : p.Plain) (around : Surroundings) (s : String) :
    (p.under indent).print around s = (p.print around s).under indent := by
  rw [print, flush_under h, write_under (h.flush around), print]

theorem Plain.print (h : p.Plain) (around : Surroundings) (s : String) :
    (p.print around s).Plain := (h.flush around).write s

theorem Plain.pushPrefix (h : p.Plain) (hx : '\n' ∉ x.toList) : (p.pushPrefix x).Plain := by
  refine ⟨h.blank, fun y hy => ?_⟩
  rcases List.mem_append.1 hy with hy | hy
  · exact h.prefixes y hy
  · exact List.mem_singleton.1 hy ▸ hx

/-- The innermost line prefix is not the one below all others. -/
theorem popPrefix?_under (h : p.linePrefixes ≠ []) :
    (p.under indent).popPrefix? =
      p.popPrefix?.map fun (x, q) => (x, q.under indent) := by
  have hlast : (indent :: p.linePrefixes).getLast? = p.linePrefixes.getLast? := by
    rw [List.getLast?_cons, List.getLast?_eq_some_getLast h]
    rfl
  rw [popPrefix?, popPrefix?, Option.map_map]
  simp only [under, hlast, List.dropLast_cons_of_ne_nil h]
  rfl

theorem Plain.popPrefix? {q : Printer} (h : p.Plain) (hq : p.popPrefix? = some (x, q)) :
    q.Plain := by
  obtain ⟨y, -, hy⟩ := Option.map_eq_some_iff.1 hq
  cases hy
  exact ⟨h.blank, fun z hz => h.prefixes z (List.dropLast_subset _ hz)⟩

end Printer

namespace Action

variable {a : Action} {around : Surroundings} {p : Printer} {indent : String}

/-- What is done with one printer, or with the surroundings that it reads. A line prefix does not
break lines. -/
def OnPrinter : Action → Prop
  | .pushPrefix x => '\n' ∉ x.toList
  | .value | .rootValue | .push | .pop | .capture .. => False
  | _ => True

/-- What an action does with the active printer. -/
def apply (around : Surroundings) (p : Printer) : Action → Printer
  | .print text => p.print around text
  | .printLine text => p.print around (text ++ "\n")
  | .delay text => p.delay text
  | .flush => p.flush around
  | .pushPrefix x => p.pushPrefix x
  | .popPrefix => p.popPrefix?.elim p Prod.snd
  | .suppressBreaks => { p with suppressBreaks := true }
  | .setNewLine on => { p with onNewLine := on }
  | .setEscapeSpaces on => { p with escapeSpaces := on }
  | _ => p

/-- How many of `n` line prefixes are on the printer after an action. -/
def prefixesLeft (n : Nat) : Action → Nat
  | .pushPrefix _ => n + 1
  | .popPrefix => n - 1
  | _ => n

/-- A line prefix is taken off only where one of those that were put on is left, `n` of them at the
beginning. -/
def PopsOwn : Nat → List Action → Prop
  | _, [] => True
  | n, a :: rest => (a = .popPrefix → 0 < n) ∧ PopsOwn (a.prefixesLeft n) rest

theorem plain_apply (ha : a.OnPrinter) (hp : p.Plain) : (a.apply around p).Plain := by
  cases a
  case print | printLine => exact hp.print _ _
  case flush => exact hp.flush _
  case pushPrefix => exact hp.pushPrefix ha
  case popPrefix =>
    rw [apply]
    rcases hpop : p.popPrefix? with _ | ⟨x, q⟩
    · exact hp
    · exact hp.popPrefix? hpop
  case delay | suppressBreaks | setNewLine | setEscapeSpaces => exact ⟨hp.blank, hp.prefixes⟩
  case surround => exact hp
  case value | rootValue | push | pop | capture => exact ha.elim

theorem length_linePrefixes_apply (a : Action) (around : Surroundings) (p : Printer) :
    (a.apply around p).linePrefixes.length = a.prefixesLeft p.linePrefixes.length := by
  have hprint : ∀ text, (p.print around text).linePrefixes = p.linePrefixes := fun text => by
    simpa [Held.none] using (Printer.Extends.print p around text).linePrefixes
  have hflush : (p.flush around).linePrefixes = p.linePrefixes := by
    simpa [Held.none] using (Printer.Extends.flush p around).linePrefixes
  cases a
  case print | printLine => exact congrArg List.length (hprint _)
  case flush => exact congrArg List.length hflush
  case pushPrefix => exact List.length_append
  case popPrefix =>
    rw [apply, prefixesLeft, Printer.popPrefix?]
    rcases hlast : p.linePrefixes.getLast? with _ | x
    · rw [List.getLast?_eq_none_iff.1 hlast]
      simp [List.getLast?_eq_none_iff.1 hlast]
    · exact List.length_dropLast
  all_goals rfl

theorem apply_under (ha : a.OnPrinter) (hp : p.Plain)
    (hpop : a = .popPrefix → 0 < p.linePrefixes.length) :
    a.apply around (p.under indent) = (a.apply around p).under indent := by
  cases a
  case print | printLine => exact Printer.print_under hp _ _
  case flush => exact Printer.flush_under hp _
  case popPrefix =>
    rw [apply, Printer.popPrefix?_under (List.ne_nil_of_length_pos (hpop rfl)), apply]
    cases p.popPrefix? <;> rfl
  all_goals rfl

end Action

namespace Bench

variable {b : Bench} {a : Action} {indent : String}

/-- The bench with other printers. -/
def withStack (b : Bench) (stack : PrinterStack) : Bench := { b with stack }

/-- The bench with `indent` below the line prefixes of its active printer. -/
def under (indent : String) (b : Bench) : Bench := b.withStack (b.stack.modify (·.under indent))

/-- The bench with the depths that an action sets. -/
def surrounded (b : Bench) : Action → Bench
  | .surround inLineDepth tableDepth =>
    { b with
      inLineDepth := inLineDepth.getD b.inLineDepth
      tableDepth := tableDepth.getD b.tableDepth }
  | _ => b

theorem surrounded_withStack (b : Bench) (a : Action) (stack : PrinterStack) :
    (b.withStack stack).surrounded a = (b.surrounded a).withStack stack := by
  cases a <;> rfl

theorem bench_run (b : Bench) (ha : a.OnPrinter) : (b.run a).bench =
    (b.surrounded a).withStack (b.stack.modify fun p => a.apply b.around p) := by
  cases a
  case popPrefix =>
    rw [run]
    rcases hpop : b.stack.active.popPrefix? with _ | ⟨x, p⟩
    · have hstays : b.stack.modify (fun p => Action.popPrefix.apply b.around p) = b.stack := by
        rw [PrinterStack.modify, Action.apply, hpop]
        exact b.stack.setActive_active
      rw [hstays]
      rfl
    · have hpopped : b.stack.modify (fun p => Action.popPrefix.apply b.around p) =
          b.stack.setActive p := by
        rw [PrinterStack.modify, Action.apply, hpop]
        rfl
      rw [hpopped]
      rfl
  case surround m n =>
    have hstays : b.stack.modify (fun p => (Action.surround m n).apply b.around p) = b.stack :=
      b.stack.setActive_active
    rw [hstays]
    rfl
  case value | rootValue | push | pop | capture => exact ha.elim
  all_goals rfl

theorem active_run (b : Bench) (ha : a.OnPrinter) :
    (b.run a).bench.stack.active = a.apply b.around b.stack.active := by
  rw [bench_run b ha]
  exact PrinterStack.active_setActive _ _

/-- One action does the same above `indent`. -/
theorem bench_run_under (ha : a.OnPrinter) (hp : b.stack.active.Plain)
    (hpop : a = .popPrefix → 0 < b.stack.active.linePrefixes.length) :
    ((b.under indent).run a).bench = (b.run a).bench.under indent := by
  have hstack : (b.stack.modify (·.under indent)).modify (fun p => a.apply b.around p) =
      (b.stack.modify fun p => a.apply b.around p).modify (·.under indent) := by
    simp only [PrinterStack.modify, PrinterStack.active_setActive,
      PrinterStack.setActive_setActive, Action.apply_under ha hp hpop]
  rw [bench_run _ ha, bench_run _ ha, under, surrounded_withStack]
  exact congrArg (b.surrounded a).withStack hstack

/-- A run of actions does the same above `indent`. -/
theorem bench_runAll_under : ∀ {actions : List Action} {b : Bench}, (∀ a ∈ actions, a.OnPrinter) →
    b.stack.active.Plain → Action.PopsOwn b.stack.active.linePrefixes.length actions →
    ((b.under indent).runAll actions).bench = (b.runAll actions).bench.under indent
  | [], _, _, _, _ => rfl
  | a :: rest, b, hactions, hp, hown => by
    obtain ⟨ha, hrest⟩ := List.forall_mem_cons.1 hactions
    have hactive := active_run b ha
    have hlater : Action.PopsOwn (b.run a).bench.stack.active.linePrefixes.length rest := by
      rw [hactive, Action.length_linePrefixes_apply]
      exact hown.2
    have hplain : (b.run a).bench.stack.active.Plain := by
      rw [hactive]
      exact Action.plain_apply ha hp
    rw [runAll, bench_run_under ha hp hown.1, bench_runAll_under hrest hplain hlater, runAll]

/-- A line prefix put first on a fresh printer indents the page that the actions behind it write,
and they leave everything else of the printer as they would without it. -/
theorem base_prefix_indents {b : Bench} {onNewLine : Bool} (indent : String)
    {actions : List Action} (hfresh : b.stack.active = Printer.fresh onNewLine)
    (hactions : ∀ a ∈ actions, a.OnPrinter) (hown : Action.PopsOwn 0 actions) :
    let p := (b.runAll actions).bench.stack.active
    (b.runAll (.pushPrefix indent :: actions)).bench.stack.active =
      { p with
        written := indented indent p.written
        linePrefixes := indent :: p.linePrefixes } := by
  have hfirst : (b.run (.pushPrefix indent)).bench = b.under indent := by
    have hstack : b.stack.modify (·.pushPrefix indent) = b.stack.modify (·.under indent) := by
      rw [PrinterStack.modify, PrinterStack.modify, hfresh]
      rfl
    exact congrArg b.withStack hstack
  have hplain : b.stack.active.Plain := hfresh ▸ Printer.plain_fresh onNewLine
  have hown' : Action.PopsOwn b.stack.active.linePrefixes.length actions := by
    rw [hfresh]
    exact hown
  rw [runAll, hfirst, bench_runAll_under hactions hplain hown']
  exact PrinterStack.active_setActive _ _

end Bench

/-- An item of two lines, the second one begun by text that has to be escaped. -/
def itemActions : List Action :=
  [.print "\n\n- ", .pushPrefix "    ", .delay "*a*", .printLine "", .popPrefix, .suppressBreaks,
    .pushPrefix "  ", .print "\nb\n", .surround (some 1) none, .delay "- c", .flush]

/-- The break before the item is dropped as it is without the mark of the quotation. -/
theorem Bench.base_prefix_indents_item :
    (Bench.fresh true).stack.active = Printer.fresh true ∧
      (∀ a ∈ itemActions, a.OnPrinter) ∧ Action.PopsOwn 0 itemActions ∧
      ((Bench.fresh true).runAll itemActions).bench.stack.active.written =
        "- \\*a*\n    b\n  \\- c" ∧
      ((Bench.fresh true).runAll (.pushPrefix "> " :: itemActions)).bench.stack.active.written =
        "> - \\*a*\n>     b\n>   \\- c" := by
  have hactions : ∀ a ∈ itemActions, a.OnPrinter := by
    simp [itemActions, Action.OnPrinter]
  have hown : Action.PopsOwn 0 itemActions := by
    simp [itemActions, Action.PopsOwn, Action.prefixesLeft]
  have hwritten : ((Bench.fresh true).runAll itemActions).bench.stack.active.written =
      "- \\*a*\n    b\n  \\- c" := by decide +kernel
  refine ⟨rfl, hactions, hown, hwritten, ?_⟩
  rw [Bench.base_prefix_indents "> " rfl hactions hown, hwritten]
  decide +kernel

end Markwright
