import Markwright.Call
import Markwright.Nesting
import Markwright.Options
import Markwright.Table.Layout

/-!
# Rendering sessions

A session takes events one by one and writes markdown. Two listeners share its state: one keeps
track of the nesting, the other writes. What is placed later, the label of a link or the content of
a cell, is captured by a printer of its own until its container is left. An event that cannot be
handled ends the session, which keeps what was written until then.
-/

namespace Markwright

/-- How a session renders: its options, the text of references, and the labels of images. -/
structure Style where
  options : Options
  address : Reference → String
  labels : LabelRegistry

/-- The style in which only the options are chosen. -/
def Style.standard (options : Options) : Style := ⟨options, Reference.address, .builtIn⟩

/-- What a session tells on the side. -/
inductive Note where
  | width (note : Table.WidthNote)
  | anchorSkipped (name : String)
  | rawLabel (scheme : String)

/-- The text of a note. -/
def Note.message : Note → String
  | width note => note.message
  | anchorSkipped name => "Anchor '" ++ name ++ "' has no markdown syntax, skipped"
  | rawLabel scheme => "No label generator for scheme '" ++ scheme ++ "', using raw reference"

/-- The state of a rendering between two events. -/
structure Session where
  nesting : Nesting
  printers : PrinterStack
  /-- The table that is being filled; all open tables share it. -/
  table : Table.Layout Float
  /-- A paragraph came since the last list or item began. -/
  afterParagraph : Bool
  notes : List Note

/-- A fault and the session as it was left. -/
structure Failure where
  fault : RenderFault
  session : Session

namespace Session

/-- Before the first event. The table takes its settings from the options. -/
def start (style : Style) : Session where
  nesting := .start
  printers := .fresh
  table := .empty {
    widthStop := style.options.tableWidthStop
    minPadding := style.options.tableMinPadding
    bonus := style.options.repeatedWidthBonus }
  afterParagraph := false
  notes := []

/-- The text of the document so far. -/
def written (s : Session) : String := s.printers.root.written

/-! ## Writing -/

/-- Prints markup, behind what waits. -/
def print (s : Session) (text : String) : Session :=
  { s with printers := s.printers.print s.nesting.around text }

/-- Escapes what waits. -/
def flush (s : Session) : Session :=
  { s with printers := s.printers.flush s.nesting.around }

/-- Changes the active printer. -/
def modifyPrinter (s : Session) (f : Printer → Printer) : Session :=
  { s with printers := s.printers.modify f }

/-- Text waits to be escaped with what follows it. -/
def delay (s : Session) (text : String) : Session :=
  s.modifyPrinter (·.delay text)

/-- Keeps a note. -/
def note (s : Session) (n : Note) : Session :=
  { s with notes := s.notes ++ [n] }

/-- Ends the line. -/
def breakLine (s : Session) : Session := s.print "\n"

/-- Ends the line and leaves one empty. -/
def emptyLine (s : Session) : Session := s.print "\n\n"

/-- What is printed from here on is kept apart from the page. -/
def pushCapture (s : Session) : Session :=
  { s with printers := s.printers.push }

/-- Lines begin with one more prefix from here on. -/
def pushPrefix (s : Session) (text : String) : Session :=
  s.modifyPrinter (·.pushPrefix text)

/-- Line breaks are dropped until something else is printed. -/
def suppressBreaks (s : Session) : Session :=
  s.modifyPrinter ({ · with suppressBreaks := true })

/-- Takes a line prefix off again. -/
def popPrefix (s : Session) : Except Failure Session :=
  match s.printers.active.popPrefix? with
  | some (_, p) => .ok { s with printers := s.printers.setActive p }
  | none => .error ⟨.noPrefix, s⟩

/-- Takes off the active printer and gives what it captured. -/
def popCapture (s : Session) : Except Failure (String × Session) :=
  match s.printers.pop? s.nesting.around with
  | some (p, printers) => .ok (p.written, { s with printers })
  | none => .error ⟨.rootPop, s⟩

/-! ## Formats -/

/-- The markup that opens a format. There is none for underlining, and bold is closest. -/
def openMarkup : Format → String
  | .none => ""
  | .bold => "**"
  | .italic => "_"
  | .strikedOut => "<del>"
  | .underlined => "**"
  | .superscript => "^"
  | .subscript => "~"
  | .monospace => "`"

/-- What a format ends with. All but one end with what they begin with. -/
def closeMarkup : Format → String
  | .strikedOut => "</del>"
  | f => openMarkup f

/-- Spaces inside scripts are escaped. -/
def escapesSpaces : Format → Bool
  | .superscript | .subscript => true
  | _ => false

/-- Prints the mark of a format. Spaces are escaped from where a script begins to where one ends. -/
def markFormat (s : Session) (f : Format) (markup : String) (entered : Bool) : Session :=
  if f = .none then s
  else
    let s := s.print markup
    if escapesSpaces f then s.modifyPrinter ({ · with escapeSpaces := entered }) else s

/-! ## Links, images, calls and code -/

/-- The target of a link or an image, with its title unless that is blank. -/
def target (style : Style) (r : Reference) (title : Option String) : String :=
  let titled := match title with
    | some t => if Text.strip t = "" then "" else " \"" ++ t ++ "\""
    | none => ""
  "(" ++ Escape.reference (style.address r) ++ titled ++ ")"

/-- A link with its label, or the reference alone when the label is empty. -/
def linkText (style : Style) (r : Reference) (label : String) (parameters : Option Parameters) :
    String :=
  if label.isEmpty then "[[" ++ Escape.label (style.address r) ++ "]]"
  else "[" ++ Escape.label label ++ "]" ++ target style r (lookupIn parameters "title")

/-- The text of an image that has none of its own is the label of its reference. -/
def imageLabel (style : Style) (s : Session) (r : Reference) (parameters : Option Parameters) :
    Except Failure (String × Session) :=
  match (lookupIn parameters "alt").filter (Text.strip · ≠ "") with
  | some alt => .ok (alt, s)
  | none =>
    match style.labels.label r with
    | .raw scheme text => .ok (text, s.note (.rawLabel scheme))
    | .made label => .ok (label, s)
    | .failed scheme text => .error ⟨.labelFailed scheme text, s⟩

/-- A call as text: code, the compact form or the block form. -/
def callText (style : Style) (id : String) (parameters : Option Parameters)
    (content : Option String) (inLine : Bool) : String :=
  if id = style.options.codeCallId then
    if inLine then Code.inLine (content.getD "")
    else Code.block (content.getD "") (lookupIn parameters "language")
  else
    let args := (parameters.getD .empty).entries.map fun (name, value) => (name, some value)
    if Call.isCompact content then Call.compact id args content else Call.block id args content

/-! ## The writing listener -/

/-- What the lines of an item begin with, below its marker. -/
def indentation (style : Style) : String :=
  String.ofList (List.replicate style.options.listIndentWidth ' ')

/-- The first item of a list starts where the list does. Those after it start a line, with an empty
one before it when a paragraph came. -/
def separateItem (s : Session) : Session :=
  if 0 < s.nesting.itemIndex then
    let s := s.breakLine
    if s.afterParagraph then s.breakLine else s
  else s

/-- The marker of an item of the innermost list. All items are numbered one. -/
def itemMarker (s : Session) : String :=
  match s.nesting.lists with
  | ⟨.numbered, _⟩ :: _ => "1."
  | _ => "*"

/-- What is written for a container when it is entered. -/
def writeEnter (style : Style) (s : Session) : Container → Session
  | .document _ | .definitionList _ => s
  | .header level .. =>
    let s := if level < 4 then s.print "\n\n\n" else s.emptyLine
    s.print (Text.times level.toNat "#" ++ " ")
  | .paragraph _ => { s.emptyLine with afterParagraph := true }
  | .format f _ => s.markFormat f (openMarkup f) true
  | .list .. =>
    { if s.nesting.lists.length = 1 then s.emptyLine else s.breakLine with afterParagraph := false }
  | .listItem _ =>
    let s := s.separateItem
    let s := s.print (Text.padRight style.options.listIndentWidth s.itemMarker)
    { (s.pushPrefix (indentation style)).suppressBreaks with afterParagraph := false }
  | .definitionTerm => s.emptyLine
  | .definitionDescription =>
    (s.print (Text.padRight style.options.listIndentWidth ":")).pushPrefix (indentation style)
  | .table _ => s.modifyPrinter ({ · with onNewLine := false })
  | .tableRow _ => { s with table := s.table.beginRow }
  | .tableCell _ | .tableHeadCell _ => s.pushCapture
  | .quotation _ => ((s.breakLine.pushPrefix "> ").breakLine).suppressBreaks
  | .quotationLine => if s.nesting.previous = .quotation then s else s.emptyLine
  | .link _ freeStanding _ =>
    let s := s.flush
    -- Only the outermost link captures its label.
    if s.nesting.links < 2 ∧ !freeStanding then s.pushCapture else s

/-- Puts what was captured since a cell was entered into the table. -/
def leaveCell (s : Session) (isHeader : Bool) (parameters : Option Parameters) :
    Except Failure Session :=
  match s.popCapture with
  | .error failure => .error failure
  | .ok (content, s) =>
    match s.table.addCell content isHeader parameters with
    | .error fault => .error ⟨fault, s⟩
    | .ok table => .ok { s with table }

/-- Draws the table and makes room for the next one. -/
def leaveTable (s : Session) : Session :=
  let notes := s.table.retained.2.map .width
  let s := s.emptyLine.print s.table.draw
  { s with table := s.table.clear, notes := s.notes ++ notes }

/-- What is written for a container when it is left. -/
def writeLeave (style : Style) (s : Session) : Container → Except Failure Session
  | .document _ | .header .. | .paragraph _ | .list .. | .quotationLine => .ok s.flush
  | .definitionList _ | .tableRow _ => .ok s
  | .format f _ => .ok (s.markFormat f (closeMarkup f) false)
  | .listItem _ | .quotation _ => s.popPrefix
  | .definitionTerm => .ok s.breakLine
  | .definitionDescription => s.flush.popPrefix
  | .table _ => .ok s.leaveTable
  | .tableCell parameters => s.leaveCell false parameters
  | .tableHeadCell parameters => s.leaveCell true parameters
  | .link r freeStanding parameters =>
    if freeStanding then .ok (s.print (style.address r))
    else if s.nesting.links = 1 then
      match s.popCapture with
      | .error failure => .error failure
      | .ok (label, s) => .ok (s.print (linkText style r label parameters))
    else .ok s

/-- What is written for a leaf. Of the anchors only a note is kept. -/
def writeLeaf (style : Style) (s : Session) : Leaf → Except Failure Session
  | .image r _ parameters =>
    match imageLabel style s r parameters with
    | .error failure => .error failure
    | .ok (label, s) =>
      .ok (s.print ("![" ++ Escape.label label ++ "]"
        ++ target style r (lookupIn parameters "title")))
  | .call id parameters content inLine =>
    let s := if inLine then s else s.emptyLine
    .ok (s.print (callText style id parameters content inLine))
  | .verbatim content inLine parameters =>
    if inLine then .ok (s.print (Code.inLine content))
    else .ok (s.emptyLine.print (Code.block content (lookupIn parameters "language")))
  | .rawText text _ =>
    let s := if s.nesting.isInLine then s else s.emptyLine
    .ok (s.print text)
  | .horizontalLine _ => .ok (s.emptyLine.print "---")
  | .emptyLines count => .ok (s.print (Text.times count.toNat "\n"))
  | .word text | .symbol text => .ok (s.delay text)
  | .space => .ok (s.delay " ")
  | .newLine => .ok (if s.nesting.isInLine then s.print "  \n" else s.breakLine)
  | .anchor name => .ok (s.note (.anchorSkipped name))

/-- Writes the markdown of an event. -/
def write (style : Style) (s : Session) : Event → Except Failure Session
  | .enter c => .ok (writeEnter style s c)
  | .leave c => writeLeave style s c
  | .leaf l => writeLeaf style s l

/-- Keeps track of the nesting. -/
def track (s : Session) (e : Event) : Except Failure Session :=
  match s.nesting.step e with
  | .ok nesting => .ok { s with nesting }
  | .error fault => .error ⟨fault, s⟩

/-! ## Running -/

/-- The session after an event. -/
def step (style : Style) (s : Session) (e : Event) : Except Failure Session :=
  e.dispatch [track, write style] s

/-- The session after a stream of events. -/
def run (style : Style) (events : List Event) : Except Failure Session :=
  events.foldlM (step style) (start style)

end Session

end Markwright
