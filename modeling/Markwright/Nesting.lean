import Markwright.Event
import Markwright.Fault
import Markwright.Printer.Basic

/-!
# Nesting

Where in a document the stream of events stands: the lists that are open, how deep links, tables,
quotations, inline content and definition lists go, the cell, and what was completed last. Each
container counts up when it is entered and down when it is left, so a stream that is well nested
comes back to where it began. A stream that is not may count below zero.
-/

namespace Markwright

/-- What was completed last. -/
inductive Completed where
  | none
  | document
  | header
  | paragraph
  | format
  | list
  | listItem
  | definitionList
  | definitionTerm
  | definitionDescription
  | table
  | tableRow
  | tableCell
  | tableHeaderCell
  | quotation
  | quotationLine
  | link
  | image
  | call
  | verbatimInline
  | verbatimStandalone
  | rawText
  | horizontalLine
  | emptyLines
  | word
  | space
  | symbol
  | newLine
  | anchor
deriving DecidableEq

/-- The name of what was completed last. -/
def Completed.name : Completed → String
  | none => "none"
  | document => "document"
  | header => "header"
  | paragraph => "paragraph"
  | format => "format"
  | list => "list"
  | listItem => "list_item"
  | definitionList => "definition_list"
  | definitionTerm => "definition_term"
  | definitionDescription => "definition_description"
  | table => "table"
  | tableRow => "table_row"
  | tableCell => "table_cell"
  | tableHeaderCell => "table_header_cell"
  | quotation => "quotation"
  | quotationLine => "quotation_line"
  | link => "link"
  | image => "image"
  | call => "macro"
  | verbatimInline => "verbatim_inline"
  | verbatimStandalone => "verbatim_standalone"
  | rawText => "raw_text"
  | horizontalLine => "horizontal_line"
  | emptyLines => "empty_lines"
  | word => "word"
  | space => "space"
  | symbol => "special_symbol"
  | newLine => "new_line"
  | anchor => "id"

/-- An open list and the index of its item, which is -1 before the first. -/
structure OpenList where
  kind : ListKind
  item : Int
deriving DecidableEq

/-- Where in a document the events have come to. -/
structure Nesting where
  /-- The innermost first. -/
  lists : List OpenList
  links : Int
  tables : Int
  quotations : Int
  /-- Headers, paragraphs, items, terms, descriptions, cells and quotation lines. -/
  inLine : Int
  definitionLists : Int
  cellRow : Int
  cellColumn : Int
  previous : Completed
deriving DecidableEq

namespace Nesting

/-- Nothing has been entered. -/
def start : Nesting := ⟨[], 0, 0, 0, 0, 0, -1, -1, .none⟩

/-- The index of the item of the innermost list, or -1 outside of lists. -/
def itemIndex (n : Nesting) : Int :=
  (n.lists.head?.map (·.item)).getD (-1)

/-- The text that comes is in a line with other text. -/
def isInLine (n : Nesting) : Bool := decide (0 < n.inLine)

/-- What escaping has to know of the place. -/
def around (n : Nesting) : Surroundings := ⟨n.isInLine, decide (0 < n.tables)⟩

/-- The innermost list goes on to its next item. -/
def nextItem : List OpenList → List OpenList
  | [] => []
  | l :: rest => { l with item := l.item + 1 } :: rest

/-- What entering a container changes. -/
def enter (n : Nesting) : Container → Nesting
  | .document _ | .format .. => n
  | .header .. | .paragraph _ | .definitionTerm | .definitionDescription | .quotationLine =>
    { n with inLine := n.inLine + 1 }
  | .list kind _ => { n with lists := ⟨kind, -1⟩ :: n.lists }
  | .listItem _ => { n with lists := nextItem n.lists, inLine := n.inLine + 1 }
  | .definitionList _ => { n with definitionLists := n.definitionLists + 1 }
  | .table _ => { n with tables := n.tables + 1, cellRow := -1, cellColumn := -1 }
  | .tableRow _ => { n with cellRow := n.cellRow + 1, cellColumn := -1 }
  | .tableCell _ | .tableHeadCell _ =>
    { n with cellColumn := n.cellColumn + 1, inLine := n.inLine + 1 }
  | .quotation _ => { n with quotations := n.quotations + 1 }
  | .link .. => { n with links := n.links + 1 }

/-- Leaves a container that holds lines of text. -/
def leaveInLine (n : Nesting) (previous : Completed) : Nesting :=
  { n with inLine := n.inLine - 1, previous }

/-- What leaving a container changes. A list that was never entered cannot be left. -/
def leave (n : Nesting) : Container → Except RenderFault Nesting
  | .document _ => .ok { n with previous := .document }
  | .header .. => .ok (n.leaveInLine .header)
  | .paragraph _ => .ok (n.leaveInLine .paragraph)
  | .format .. => .ok { n with previous := .format }
  | .list .. =>
    match n.lists with
    | [] => .error .noList
    | _ :: rest => .ok { n with lists := rest, previous := .list }
  | .listItem _ => .ok (n.leaveInLine .listItem)
  | .definitionList _ =>
    .ok { n with definitionLists := n.definitionLists - 1, previous := .definitionList }
  | .definitionTerm => .ok (n.leaveInLine .definitionTerm)
  | .definitionDescription => .ok (n.leaveInLine .definitionDescription)
  | .table _ => .ok { n with tables := n.tables - 1, previous := .table }
  | .tableRow _ => .ok { n with previous := .tableRow }
  | .tableCell _ => .ok (n.leaveInLine .tableCell)
  | .tableHeadCell _ => .ok (n.leaveInLine .tableHeaderCell)
  | .quotation _ => .ok { n with quotations := n.quotations - 1, previous := .quotation }
  | .quotationLine => .ok (n.leaveInLine .quotationLine)
  | .link .. => .ok { n with links := n.links - 1, previous := .link }

/-- What a leaf completes. -/
def completes : Leaf → Completed
  | .image .. => .image
  | .call .. => .call
  | .verbatim _ inLine _ => if inLine then .verbatimInline else .verbatimStandalone
  | .rawText .. => .rawText
  | .horizontalLine _ => .horizontalLine
  | .emptyLines _ => .emptyLines
  | .word _ => .word
  | .space => .space
  | .symbol _ => .symbol
  | .newLine => .newLine
  | .anchor _ => .anchor

/-- The nesting after an event. -/
def step (n : Nesting) : Event → Except RenderFault Nesting
  | .enter c => .ok (n.enter c)
  | .leave c => n.leave c
  | .leaf l => .ok { n with previous := completes l }

end Nesting

end Markwright
