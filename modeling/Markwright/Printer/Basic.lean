import Markwright.Escape.Text

/-!
# Printers

Markup is written as it is; the text of the document is queued and escaped when it is flushed, so
that the rules see a whole span at once. Line prefixes come again after every line break and before
the first character of a page. While breaks are suppressed the line breaks at the front of what is
written are dropped, so a block may ask for empty lines before it without knowing whether anything
stands there.
-/

namespace Markwright

/-- What the document says of the place that a printer writes to. -/
structure Surroundings where
  inLine : Bool
  inTable : Bool
deriving DecidableEq

/-- What has been written and what waits, with the flags that say how the next text is written. -/
structure Printer where
  written : String
  /-- Text that waits to be escaped; an empty one waits too. -/
  pending : Option String
  /-- The outermost first. -/
  linePrefixes : List String
  /-- Nothing has been written yet. -/
  pageBlank : Bool
  suppressBreaks : Bool
  onNewLine : Bool
  escapeSpaces : Bool
  /-- How often pending text was escaped. -/
  flushes : Nat
deriving DecidableEq

namespace Printer

/-- A printer that has written nothing. Line breaks are suppressed until something is written. -/
def fresh (onNewLine : Bool) : Printer where
  written := ""
  pending := none
  linePrefixes := []
  pageBlank := true
  suppressBreaks := true
  onNewLine := onNewLine
  escapeSpaces := false
  flushes := 0

/-- What each line begins with. -/
def indentation (p : Printer) : List Char :=
  (String.join p.linePrefixes).toList

/-- The characters with the indentation after each line break. -/
def indentBreaks (indentation : List Char) (cs : List Char) : List Char :=
  cs.flatMap fun c => if c = '\n' then '\n' :: indentation else [c]

/-- Writes markup without a look at pending text. -/
def write (p : Printer) (s : String) : Printer :=
  let cs := if p.suppressBreaks then s.toList.dropWhile (· == '\n') else s.toList
  if cs.isEmpty then p
  else
    let lead := if p.pageBlank then p.indentation else []
    { p with
      written := p.written ++ String.ofList (lead ++ indentBreaks p.indentation cs)
      pageBlank := false
      suppressBreaks := false
      onNewLine := cs.getLast? == some '\n' }

/-- What is known of the place where the next span will be written. -/
def context (p : Printer) (around : Surroundings) : Escape.Context where
  inLine := around.inLine
  inTable := around.inTable
  onNewLine := p.onNewLine
  escapeSpaces := p.escapeSpaces

/-- Escapes and writes pending text. -/
def flush (p : Printer) (around : Surroundings) : Printer :=
  match p.pending with
  | none => p
  | some text =>
    { p with pending := none, flushes := p.flushes + 1 }.write
      (Escape.markdown (p.context around) text)

/-- Writes markup after what is pending. -/
def print (p : Printer) (around : Surroundings) (s : String) : Printer :=
  (p.flush around).write s

/-- Queues text of the document. -/
def delay (p : Printer) (s : String) : Printer :=
  { p with pending := some (p.pending.getD "" ++ s) }

/-- Lines begin with one more prefix, behind those before. -/
def pushPrefix (p : Printer) (s : String) : Printer :=
  { p with linePrefixes := p.linePrefixes ++ [s] }

/-- Takes off the innermost line prefix. -/
def popPrefix? (p : Printer) : Option (String × Printer) :=
  p.linePrefixes.getLast?.map fun s => (s, { p with linePrefixes := p.linePrefixes.dropLast })

end Printer

/-- The printers of a document: the root holds the document, those above it capture what is placed
later. All writing goes to the last one pushed. -/
structure PrinterStack where
  root : Printer
  /-- The last one pushed first. -/
  captures : List Printer
deriving DecidableEq

namespace PrinterStack

/-- Only the root printer, at the start of a line. -/
def fresh : PrinterStack := ⟨Printer.fresh true, []⟩

/-- How many captures are open. -/
def depth (s : PrinterStack) : Nat := s.captures.length

/-- The printer that is written to: the one of the innermost capture, or the root. -/
def active (s : PrinterStack) : Printer :=
  s.captures.headD s.root

/-- Replaces the active printer. -/
def setActive (s : PrinterStack) (p : Printer) : PrinterStack :=
  match s.captures with
  | [] => { s with root := p }
  | _ :: rest => { s with captures := p :: rest }

/-- Changes the active printer. -/
def modify (s : PrinterStack) (f : Printer → Printer) : PrinterStack :=
  s.setActive (f s.active)

/-- Prints on the active printer. -/
def print (s : PrinterStack) (around : Surroundings) (text : String) : PrinterStack :=
  s.modify (·.print around text)

/-- Escapes what waits on the active printer. -/
def flush (s : PrinterStack) (around : Surroundings) : PrinterStack :=
  s.modify (·.flush around)

/-- Pushes a printer that starts on a new line when the active one is on one. -/
def push (s : PrinterStack) : PrinterStack :=
  { s with captures := Printer.fresh s.active.onNewLine :: s.captures }

/-- Flushes the active printer and takes it off. The root stays. -/
def pop? (s : PrinterStack) (around : Surroundings) : Option (Printer × PrinterStack) :=
  match s.captures with
  | [] => none
  | p :: rest => some (p.flush around, { s with captures := rest })

/-- The printer at a height, the root being at zero. -/
def atHeight? (s : PrinterStack) (height : Nat) : Option Printer :=
  if height = 0 then some s.root
  else if height ≤ s.depth then s.captures[s.depth - height]? else none

end PrinterStack

end Markwright
