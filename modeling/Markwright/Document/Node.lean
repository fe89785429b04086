import Markwright.Event

/-!
# Document trees

A document as a tree of blocks and inline content. The tree does not say where a node may stand: an
item may be found outside of a list, and a table inside a cell.
-/

namespace Markwright

/-- The level of a heading, the first being the most important. -/
structure HeadingLevel where
  val : Nat
  pos : 1 ≤ val
  le_six : val ≤ 6
deriving DecidableEq

/-- A number of empty lines, at least one. -/
structure LineCount where
  val : Nat
  pos : 1 ≤ val
deriving DecidableEq

/-- The trees of documents. Which node may stand below which is not fixed by the type. -/
inductive Node where
  | document (children : List Node) (parameters : Parameters)
  | heading (level : HeadingLevel) (content : List Node) (id : Value) (parameters : Parameters)
  | paragraph (content : List Node) (parameters : Parameters)
  | list (kind : ListKind) (items : List Node) (parameters : Parameters)
  | listItem (children : List Node) (parameters : Parameters)
  | definitionList (items : List Node) (parameters : Parameters)
  | definitionTerm (content : List Node)
  | definitionDescription (children : List Node)
  | table (rows : List Node) (parameters : Parameters)
  | tableRow (cells : List Node) (parameters : Parameters)
  | tableCell (content : List Node) (header : Bool) (parameters : Parameters)
  | quotation (lines : List Node) (parameters : Parameters)
  | quotationLine (content : List Node)
  | horizontalRule (parameters : Parameters)
  | emptyLines (count : LineCount)
  | call (id : String) (parameters : Parameters) (content : Option String) (inLine : Bool)
  | verbatim (content : String) (inLine : Bool) (parameters : Parameters)
  | rawText (content : String) (dialect : Value)
  | text (content : String)
  | span (format : Format) (content : List Node) (parameters : Parameters)
  | link (reference : Reference) (content : List Node) (freeStanding : Bool)
      (parameters : Parameters)
  | image (reference : Reference) (freeStanding : Bool) (parameters : Parameters)
  | newLine
  | anchor (name : String)

/-- The name of the kind of a node. -/
def Node.kind : Node → String
  | .document .. => "Document"
  | .heading .. => "Heading"
  | .paragraph .. => "Paragraph"
  | .list .. => "List"
  | .listItem .. => "ListItem"
  | .definitionList .. => "DefinitionList"
  | .definitionTerm .. => "DefinitionTerm"
  | .definitionDescription .. => "DefinitionDescription"
  | .table .. => "Table"
  | .tableRow .. => "TableRow"
  | .tableCell .. => "TableCell"
  | .quotation .. => "Quotation"
  | .quotationLine .. => "QuotationLine"
  | .horizontalRule .. => "HorizontalRule"
  | .emptyLines .. => "EmptyLines"
  | .call .. => "Macro"
  | .verbatim .. => "Verbatim"
  | .rawText .. => "RawText"
  | .text .. => "Text"
  | .span .. => "FormatSpan"
  | .link .. => "Link"
  | .image .. => "Image"
  | .newLine => "NewLine"
  | .anchor .. => "Anchor"

end Markwright
