import Markwright.Reference

/-!
# Events

A document is told as a stream of events. A container is entered and left, with the same arguments
both times, and what it holds comes in between; a leaf is one event. A stream is well nested when
each container is left by the event that matches the last one entered.
-/

namespace Markwright

/-- How a run of text is set. -/
inductive Format where
  | none
  | bold
  | italic
  | strikedOut
  | underlined
  | superscript
  | subscript
  | monospace
deriving DecidableEq

/-- All formats, in the order in which their names are looked up. -/
def Format.all : List Format :=
  [.none, .bold, .italic, .strikedOut, .underlined, .superscript, .subscript, .monospace]

/-- The name that a format has in stored documents. -/
def Format.name : Format → String
  | none => "none"
  | bold => "bold"
  | italic => "italic"
  | strikedOut => "strikedout"
  | underlined => "underlined"
  | superscript => "superscript"
  | subscript => "subscript"
  | monospace => "monospace"

/-- The format of that name. -/
def Format.ofName? (s : String) : Option Format :=
  Format.all.find? (·.name == s)

theorem Format.ofName?_name (f : Format) : Format.ofName? f.name = some f := by
  cases f <;> decide

/-- The kinds of lists. -/
inductive ListKind where
  | bulleted
  | numbered
deriving DecidableEq

/-- The name that a kind of lists has in stored documents. -/
def ListKind.name : ListKind → String
  | bulleted => "bulleted"
  | numbered => "numbered"

/-- The kind of lists of that name. -/
def ListKind.ofName? (s : String) : Option ListKind :=
  [ListKind.bulleted, .numbered].find? (·.name == s)

theorem ListKind.ofName?_name (k : ListKind) : ListKind.ofName? k.name = some k := by
  cases k <;> decide

/-- What can be entered and left. -/
inductive Container where
  | document (parameters : Option Parameters)
  | header (level : Int) (id : Value) (parameters : Option Parameters)
  | paragraph (parameters : Option Parameters)
  | format (format : Format) (parameters : Option Parameters)
  | list (kind : ListKind) (parameters : Option Parameters)
  | listItem (parameters : Option Parameters)
  | definitionList (parameters : Option Parameters)
  | definitionTerm
  | definitionDescription
  | table (parameters : Option Parameters)
  | tableRow (parameters : Option Parameters)
  | tableCell (parameters : Option Parameters)
  | tableHeadCell (parameters : Option Parameters)
  | quotation (parameters : Option Parameters)
  | quotationLine
  | link (reference : Reference) (freeStanding : Bool) (parameters : Option Parameters)

/-- What holds nothing. -/
inductive Leaf where
  | image (reference : Reference) (freeStanding : Bool) (parameters : Option Parameters)
  | call (id : String) (parameters : Option Parameters) (content : Option String) (inLine : Bool)
  | verbatim (content : String) (inLine : Bool) (parameters : Option Parameters)
  | rawText (text : String) (dialect : Value)
  | horizontalLine (parameters : Option Parameters)
  | emptyLines (count : Int)
  | word (text : String)
  | space
  | symbol (text : String)
  | newLine
  | anchor (name : String)

/-- What a renderer is told of: a container is entered or left, or a leaf stands there. -/
inductive Event where
  | enter (c : Container)
  | leave (c : Container)
  | leaf (l : Leaf)

/-- The order in which listeners take an event. What is entered is told from the first listener on,
so that those who keep track are inside when the others are told; all else is told from the last. -/
def Event.order {α : Type} (e : Event) (listeners : List α) : List α :=
  match e with
  | .enter _ => listeners
  | _ => listeners.reverse

/-- Tells the listeners of an event, one after the other, until one fails. -/
def Event.dispatch {σ ε : Type} (listeners : List (σ → Event → Except ε σ)) (s : σ) (e : Event) :
    Except ε σ :=
  (e.order listeners).foldlM (fun s listen => listen s e) s

end Markwright
