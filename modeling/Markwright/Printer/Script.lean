import Markwright.Fault
import Markwright.Printer.Basic

/-!
# Scripts of printer actions

A bench is a stack of printers together with the depths that its surroundings are read from. A
script runs on it action by action; an action that cannot be done leaves the bench as it is and the
next one follows. A capture pushes a printer for the length of a script of its own, which a failure
may cut off, and takes it off again if it is the active one at the end.
-/

namespace Markwright

/-- What can be done with a stack of printers. -/
inductive Action where
  | print (text : String)
  | printLine (text : String)
  | delay (text : String)
  | flush
  | pushPrefix (text : String)
  | popPrefix
  | suppressBreaks
  | value
  | setNewLine (on : Bool)
  | setEscapeSpaces (on : Bool)
  | surround (inLineDepth tableDepth : Option Int)
  | push
  | pop
  | rootValue
  | capture (body : List Action) (failure : Option String)

instance : Inhabited Action := ⟨.flush⟩

/-- A stack of printers with the surroundings that its printers escape by. -/
structure Bench where
  stack : PrinterStack
  inLineDepth : Int
  tableDepth : Int
  /-- What the root has written can be read. -/
  rootReadable : Bool

/-- What an action came to, and the printers after it. -/
inductive Step where
  | done (after : PrinterStack)
  | text (s : String) (after : PrinterStack)
  | context (c : Escape.Context) (after : PrinterStack)
  | captured (steps : List Step) (written : String) (after : PrinterStack)
  | fault (f : RenderFault) (after : PrinterStack)
  /-- The failure that cut a capture off. -/
  | failure (message : String)

/-- A run so far: its steps, the bench, and the printers taken off with the height of each. -/
structure Run where
  steps : List Step
  bench : Bench
  popped : List (Nat × Printer)

namespace Bench

/-- A bench on which nothing has been done. -/
def fresh (rootReadable : Bool) : Bench := ⟨.fresh, 0, 0, rootReadable⟩

/-- What the printers see of the depths. -/
def around (b : Bench) : Surroundings := ⟨decide (0 < b.inLineDepth), decide (0 < b.tableDepth)⟩

/-- One step that leaves another stack. -/
def becomes (b : Bench) (stack : PrinterStack) : Run :=
  ⟨[.done stack], { b with stack }, []⟩

/-- One step that changes nothing. -/
def stays (b : Bench) (step : PrinterStack → Step) : Run :=
  ⟨[step b.stack], b, []⟩

mutual

/-- What an action does, and what is told of it. A capture tells the steps inside it. -/
def run (b : Bench) : Action → Run
  | .print text => b.becomes (b.stack.print b.around text)
  | .printLine text => b.becomes (b.stack.print b.around (text ++ "\n"))
  | .delay text => b.becomes (b.stack.modify (·.delay text))
  | .flush => b.becomes (b.stack.flush b.around)
  | .pushPrefix text => b.becomes (b.stack.modify (·.pushPrefix text))
  | .popPrefix =>
    match b.stack.active.popPrefix? with
    | some (s, p) =>
      let stack := b.stack.setActive p
      ⟨[.text s stack], { b with stack }, []⟩
    | none => b.stays (.fault .noPrefix)
  | .suppressBreaks => b.becomes (b.stack.modify ({ · with suppressBreaks := true }))
  | .value =>
    if b.stack.depth = 0 ∧ !b.rootReadable then b.stays (.fault .unreadable)
    else b.stays (.text b.stack.active.written)
  | .setNewLine on => b.becomes (b.stack.modify ({ · with onNewLine := on }))
  | .setEscapeSpaces on => b.becomes (b.stack.modify ({ · with escapeSpaces := on }))
  | .surround inLineDepth tableDepth =>
    let b := { b with
      inLineDepth := inLineDepth.getD b.inLineDepth
      tableDepth := tableDepth.getD b.tableDepth }
    b.stays (.context (b.stack.active.context b.around))
  | .push => b.becomes b.stack.push
  | .pop =>
    match b.stack.pop? b.around with
    | some (p, stack) => ⟨[.text p.written stack], { b with stack }, [(b.stack.depth, p)]⟩
    | none => b.stays (.fault .rootPop)
  | .rootValue =>
    if b.rootReadable then b.stays (.text b.stack.root.written)
    else b.stays (.fault .unreadable)
  | .capture body failure =>
    let height := b.stack.depth + 1
    let inner := runAll { b with stack := b.stack.push } body
    let steps := inner.steps ++ failure.toList.map .failure
    match inner.popped.lookup height with
    | some p => ⟨[.captured steps p.written inner.bench.stack], inner.bench, inner.popped⟩
    | none =>
      if inner.bench.stack.depth = height then
        match inner.bench.stack.pop? inner.bench.around with
        | some (p, stack) =>
          ⟨[.captured steps p.written stack], { inner.bench with stack }, inner.popped⟩
        | none => ⟨[.captured steps "" inner.bench.stack], inner.bench, inner.popped⟩
      else
        let written := (inner.bench.stack.atHeight? height).elim "" (·.written)
        ⟨[.captured steps written inner.bench.stack], inner.bench, inner.popped⟩

/-- Actions one after the other. One that fails does not stop the others. -/
def runAll (b : Bench) : List Action → Run
  | [] => ⟨[], b, []⟩
  | a :: rest =>
    let first := run b a
    let after := runAll first.bench rest
    ⟨first.steps ++ after.steps, after.bench, first.popped ++ after.popped⟩

end

end Bench

end Markwright
