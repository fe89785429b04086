import Markwright.Printer.Script
import Markwright.Proofs.Surroundings

/-!
# Leaving a capture

A capture pushes a printer and takes it off at the end if it is the active one then. Whatever is
done in between, however captures are nested and wherever a failure cuts them off, the printers
below stay as they are as long as none of them is taken off (`Bench.over_runAll`): only the active
printer is written to, and the ones pushed later are above. So the stack is restored if every
printer that was pushed has been taken off again; one that is left covers the printer of the
capture, which then stays where it is, with what is pending (`Bench.capture_restores_or_covered`).
-/

namespace Markwright

namespace PrinterStack

variable {base s : PrinterStack} {p : Printer}

/-- The stack with the printers `above` on top, the last one pushed first. -/
def topped (s : PrinterStack) (above : List Printer) : PrinterStack :=
  { s with captures := above ++ s.captures }

theorem depth_topped (s : PrinterStack) (above : List Printer) :
    (s.topped above).depth = above.length + s.depth := List.length_append

theorem depth_topped_concat (s : PrinterStack) (above : List Printer) (p : Printer) :
    (s.topped (above ++ [p])).depth = above.length + (s.depth + 1) := by
  rw [depth_topped, List.length_append, List.length_singleton, Nat.add_assoc, Nat.add_comm 1]

/-- The first printer pushed stands next to the top of the stack before. -/
theorem atHeight?_topped (s : PrinterStack) (above : List Printer) (p : Printer) :
    (s.topped (above ++ [p])).atHeight? (s.depth + 1) = some p := by
  rw [atHeight?, if_neg (Nat.succ_ne_zero _), depth_topped_concat, if_pos (Nat.le_add_left _ _),
    Nat.add_sub_cancel, topped, List.append_assoc]
  exact (List.getElem?_append_right (Nat.le_refl _)).trans (by rw [Nat.sub_self]; rfl)

namespace Over

theorem depth_lt (h : base.Over s) : base.depth < s.depth := by
  obtain ⟨q, more, rfl⟩ := h
  have hdepth := depth_topped base (q :: more)
  exact hdepth ▸ Nat.lt_add_of_pos_left (Nat.succ_pos more.length)

theorem setActive (h : base.Over s) (p : Printer) : base.Over (s.setActive p) := by
  obtain ⟨q, more, rfl⟩ := h
  exact ⟨p, more, rfl⟩

theorem exists_pop? (h : base.Over s) (around : Surroundings) :
    ∃ p t, s.pop? around = some (p, t) := by
  obtain ⟨q, more, rfl⟩ := h
  exact ⟨_, _, rfl⟩

/-- What is taken off is no printer of `base`, and not the first one pushed on it. -/
theorem pop? {around : Surroundings} {t : PrinterStack} (h : base.Over s)
    (hdepth : base.depth + 1 < s.depth) (ht : s.pop? around = some (p, t)) : base.Over t := by
  obtain ⟨q, more, rfl⟩ := h
  rcases more with _ | ⟨r, more⟩
  · exact absurd hdepth (Nat.lt_irrefl _)
  · obtain ⟨-, rfl⟩ := Prod.mk.inj (Option.some.inj ht)
    exact ⟨r, more, rfl⟩

end Over

end PrinterStack

namespace Bench

variable {b : Bench} {base : PrinterStack} {body : List Action} {failure : Option String}

/-- The run of the body of a capture. -/
def inside (b : Bench) (body : List Action) : Run := { b with stack := b.stack.push }.runAll body

/-- All that was taken off stood higher than `height`. -/
def TakesAbove (height : Nat) (popped : List (Nat × Printer)) : Prop :=
  ∀ x ∈ popped, height < x.1

instance (height : Nat) (popped : List (Nat × Printer)) : Decidable (TakesAbove height popped) :=
  inferInstanceAs (Decidable (∀ x ∈ popped, height < x.1))

theorem popped_capture (b : Bench) (body : List Action) (failure : Option String) :
    (b.run (.capture body failure)).popped = (b.inside body).popped := by
  rw [run]
  dsimp only
  split
  · rfl
  · split
    · split <;> rfl
    · rfl

/-- The body has taken off the printer of the capture itself. -/
theorem run_capture_of_popped {p : Printer}
    (h : (b.inside body).popped.lookup (b.stack.depth + 1) = some p) :
    (b.run (.capture body failure)).bench = (b.inside body).bench := by
  rw [inside] at h ⊢
  rw [run]
  dsimp only
  rw [h]

/-- The printer of the capture is taken off where it is the active one. -/
theorem run_capture_of_active {p : Printer} {stack : PrinterStack}
    (h : (b.inside body).popped.lookup (b.stack.depth + 1) = none)
    (hdepth : (b.inside body).bench.stack.depth = b.stack.depth + 1)
    (hpop : (b.inside body).bench.stack.pop? (b.inside body).bench.around = some (p, stack)) :
    b.run (.capture body failure) =
      ⟨[.captured ((b.inside body).steps ++ failure.toList.map .failure) p.written stack],
        { (b.inside body).bench with stack }, (b.inside body).popped⟩ := by
  rw [inside] at *
  rw [run]
  dsimp only
  rw [h]
  dsimp only
  rw [if_pos hdepth, hpop]

/-- Something else is active, and nothing is taken off. -/
theorem run_capture_of_covered
    (h : (b.inside body).popped.lookup (b.stack.depth + 1) = none)
    (hdepth : (b.inside body).bench.stack.depth ≠ b.stack.depth + 1) :
    b.run (.capture body failure) =
      ⟨[.captured ((b.inside body).steps ++ failure.toList.map .failure)
          (((b.inside body).bench.stack.atHeight? (b.stack.depth + 1)).elim "" (·.written))
          (b.inside body).bench.stack],
        (b.inside body).bench, (b.inside body).popped⟩ := by
  rw [inside] at *
  rw [run]
  dsimp only
  rw [h]
  dsimp only
  rw [if_neg hdepth]

-- The invariant goes through the bodies of nested captures, so it is carried by an action and by a
-- list of actions at once.
mutual

theorem over_run : ∀ (a : Action) {b : Bench}, base.Over b.stack →
    TakesAbove (base.depth + 1) (b.run a).popped → base.Over (b.run a).bench.stack
  | .print _, _, h, _ | .printLine _, _, h, _ | .delay _, _, h, _ | .flush, _, h, _
  | .pushPrefix _, _, h, _ | .suppressBreaks, _, h, _ | .setNewLine _, _, h, _
  | .setEscapeSpaces _, _, h, _ => h.setActive _
  | .surround .., _, h, _ => h
  | .popPrefix, _, h, _ => by
    rw [run]
    split
    · exact h.setActive _
    · exact h
  | .value, _, h, _ | .rootValue, _, h, _ => by
    rw [run]
    split <;> exact h
  | .push, _, h, _ => h.push
  | .pop, b, h, hpopped => by
    rw [run] at hpopped ⊢
    rcases hpop : b.stack.pop? b.around with _ | ⟨p, stack⟩
    · exact h
    · rw [hpop] at hpopped
      exact h.pop? (hpopped _ (List.mem_singleton_self _)) hpop
  | .capture body failure, b, h, hpopped => by
    rw [popped_capture] at hpopped
    have hinner : base.Over (b.inside body).bench.stack := over_runAll body h.push hpopped
    rcases hlookup : (b.inside body).popped.lookup (b.stack.depth + 1) with _ | p
    · by_cases hdepth : (b.inside body).bench.stack.depth = b.stack.depth + 1
      · -- The printer of this capture is above one that is above `base`.
        have hhigh : base.depth + 1 < (b.inside body).bench.stack.depth := by
          have hlower := h.depth_lt
          omega
        obtain ⟨p, stack, hpop⟩ := hinner.exists_pop? (b.inside body).bench.around
        rw [run_capture_of_active hlookup hdepth hpop]
        exact hinner.pop? hhigh hpop
      · rw [run_capture_of_covered hlookup hdepth]
        exact hinner
    · rw [run_capture_of_popped hlookup]
      exact hinner

/-- Whatever is done, the printers below the first one that was pushed stay as they are if none of
them is taken off, nor that one. -/
theorem over_runAll : ∀ (actions : List Action) {b : Bench}, base.Over b.stack →
    TakesAbove (base.depth + 1) (b.runAll actions).popped →
    base.Over (b.runAll actions).bench.stack
  | [], _, h, _ => h
  | a :: rest, b, h, hpopped => by
    rw [runAll] at hpopped ⊢
    obtain ⟨hfirst, hrest⟩ := List.forall_mem_append.1 hpopped
    exact over_runAll rest (over_run a h hfirst) hrest

end

theorem lookup_of_takesAbove {height : Nat} : ∀ {popped : List (Nat × Printer)},
    TakesAbove height popped → popped.lookup height = none
  | [], _ => rfl
  | (k, p) :: popped, h => by
    obtain ⟨hk, hpopped⟩ := List.forall_mem_cons.1 h
    rw [List.lookup_cons, beq_false_of_ne (Nat.ne_of_lt hk)]
    exact lookup_of_takesAbove hpopped

/-- If neither the printer of a capture nor one below it is taken off inside, the printers below are
as before at the end. The stack is restored, and what was captured is escaped, if nothing that was
pushed inside is left; else all stays as it is, the printer of the capture with what it holds. -/
theorem capture_restores_or_covered (failure : Option String)
    (hpopped : TakesAbove (b.stack.depth + 1) (b.inside body).popped) :
    ∃ left p, (b.inside body).bench.stack = b.stack.topped (left ++ [p]) ∧
      (left = [] →
        (b.run (.capture body failure)).bench.stack = b.stack ∧
        (b.run (.capture body failure)).steps =
          [.captured ((b.inside body).steps ++ failure.toList.map .failure)
            (p.flush (b.inside body).bench.around).written b.stack]) ∧
      (left ≠ [] →
        (b.run (.capture body failure)).bench.stack = b.stack.topped (left ++ [p]) ∧
        (b.run (.capture body failure)).steps =
          [.captured ((b.inside body).steps ++ failure.toList.map .failure) p.written
            (b.stack.topped (left ++ [p]))]) := by
  obtain ⟨q, more, hover⟩ : b.stack.Over (b.inside body).bench.stack :=
    over_runAll body (PrinterStack.captures_push b.stack).over hpopped
  obtain ⟨left, p, hlast⟩ := (List.eq_nil_or_concat (q :: more)).resolve_left (List.cons_ne_nil _ _)
  have hstack : (b.inside body).bench.stack = b.stack.topped (left ++ [p]) := by
    rw [hover, ← List.concat_eq_append, ← hlast]
    rfl
  have hlookup := lookup_of_takesAbove hpopped
  have hdepth : (b.inside body).bench.stack.depth = left.length + (b.stack.depth + 1) := by
    rw [hstack, PrinterStack.depth_topped_concat]
  refine ⟨left, p, hstack, ?_, fun hleft => ?_⟩
  · rintro rfl
    have hactive : (b.inside body).bench.stack.depth = b.stack.depth + 1 := by simpa using hdepth
    have hpop : (b.inside body).bench.stack.pop? (b.inside body).bench.around =
        some (p.flush (b.inside body).bench.around, b.stack) := by
      rw [hstack]
      rfl
    rw [run_capture_of_active hlookup hactive hpop]
    exact ⟨rfl, rfl⟩
  · have hcovered : (b.inside body).bench.stack.depth ≠ b.stack.depth + 1 := by
      have hlength := List.length_pos_iff.2 hleft
      omega
    rw [run_capture_of_covered hlookup hcovered, hstack, PrinterStack.atHeight?_topped]
    exact ⟨rfl, rfl⟩

end Bench

/-- A bench on which something is captured already, with text that waits. -/
def busyBench : Bench :=
  { Bench.fresh true with
    stack := ⟨(Printer.fresh true).write "x", [(Printer.fresh false).delay "y"]⟩ }

/-- Text is left waiting, and a capture in the capture is cut off. -/
def cutOff : List Action :=
  [.pushPrefix "> ", .delay "*a*", .capture [.print "b", .push, .pop] (some "inner"), .push, .pop]

/-- What waited is escaped as the capture is left, and the text below still waits. -/
theorem Bench.capture_restores_or_covered_cutOff :
    Bench.TakesAbove (busyBench.stack.depth + 1) (busyBench.inside cutOff).popped ∧
      (busyBench.run (.capture cutOff (some "outer"))).bench.stack = busyBench.stack ∧
      ∃ steps, (busyBench.run (.capture cutOff (some "outer"))).steps =
        [.captured steps "> \\*a*" busyBench.stack] := by
  have hpopped : Bench.TakesAbove (busyBench.stack.depth + 1) (busyBench.inside cutOff).popped := by
    decide +kernel
  obtain ⟨left, p, hstack, hrestored, -⟩ :=
    Bench.capture_restores_or_covered (some "outer") hpopped
  have hdepth : (busyBench.inside cutOff).bench.stack.depth = 0 + (busyBench.stack.depth + 1) := by
    decide +kernel
  rw [hstack, PrinterStack.depth_topped_concat, Nat.add_right_cancel_iff] at hdepth
  obtain rfl : left = [] := List.length_eq_zero_iff.1 hdepth
  have hwritten : (p.flush (busyBench.inside cutOff).bench.around).written = "> \\*a*" := by
    have hactive : (busyBench.inside cutOff).bench.stack.active = p := by
      rw [hstack]
      rfl
    rw [← hactive]
    decide +kernel
  obtain ⟨hbench, hsteps⟩ := hrestored rfl
  exact ⟨hpopped, hbench, _, hwritten ▸ hsteps⟩

/-- A printer that is pushed in a capture and left there keeps the printer of the capture on the
stack, and its text waiting. -/
theorem leftPrinter_covers_capture :
    Bench.TakesAbove ((Bench.fresh true).stack.depth + 1)
        ((Bench.fresh true).inside [.delay "a", .push]).popped ∧
      ((Bench.fresh true).run (.capture [.delay "a", .push] none)).bench.stack.depth = 2 ∧
      ((Bench.fresh true).run (.capture [.delay "a", .push] none)).bench.stack.captures.map
        (·.pending) = [none, some "a"] := by
  decide +kernel

end Markwright
