import Markwright.Document.Node
import Markwright.Text.Token

/-!
# The events of a document

A tree is told in document order. What holds other nodes is entered and left with the same
arguments; a text is told by its tokens.
-/

namespace Markwright

/-- The leaf that tells a token of a text. -/
def Leaf.ofToken : Text.Token → Leaf
  | .lineBreak _ => .newLine
  | .space => .space
  | .symbol c => .symbol (String.singleton c)
  | .word cs => .word (String.ofList cs)

/-- A text is told token by token. -/
def textEvents (s : String) : List Event :=
  (Text.tokens s).map fun t => .leaf (.ofToken t)

/-- The events between entering and leaving a container. -/
def Event.around (c : Container) (inner : List Event) : List Event :=
  .enter c :: inner ++ [.leave c]

mutual

/-- What is told of a tree: a container is entered, its children are told in order, and it is
left. -/
def Node.events : Node → List Event
  | .document children p => Event.around (.document p) (Node.eventsAll children)
  | .heading level content id p =>
    Event.around (.header level.val id p) (Node.eventsAll content)
  | .paragraph content p => Event.around (.paragraph p) (Node.eventsAll content)
  | .list kind items p => Event.around (.list kind p) (Node.eventsAll items)
  | .listItem children p => Event.around (.listItem p) (Node.eventsAll children)
  | .definitionList items p => Event.around (.definitionList p) (Node.eventsAll items)
  | .definitionTerm content => Event.around .definitionTerm (Node.eventsAll content)
  | .definitionDescription children =>
    Event.around .definitionDescription (Node.eventsAll children)
  | .table rows p => Event.around (.table p) (Node.eventsAll rows)
  | .tableRow cells p => Event.around (.tableRow p) (Node.eventsAll cells)
  | .tableCell content header p =>
    Event.around (if header then .tableHeadCell p else .tableCell p) (Node.eventsAll content)
  | .quotation lines p => Event.around (.quotation p) (Node.eventsAll lines)
  | .quotationLine content => Event.around .quotationLine (Node.eventsAll content)
  | .horizontalRule p => [.leaf (.horizontalLine p)]
  | .emptyLines count => [.leaf (.emptyLines count.val)]
  | .call id p content inLine => [.leaf (.call id p content inLine)]
  | .verbatim content inLine p => [.leaf (.verbatim content inLine p)]
  | .rawText content dialect => [.leaf (.rawText content dialect)]
  | .text content => textEvents content
  | .span format content p => Event.around (.format format p) (Node.eventsAll content)
  | .link r content freeStanding p =>
    Event.around (.link r freeStanding p) (Node.eventsAll content)
  | .image r freeStanding p => [.leaf (.image r freeStanding p)]
  | .newLine => [.leaf .newLine]
  | .anchor name => [.leaf (.anchor name)]

/-- The events of some trees, one tree after the other. -/
def Node.eventsAll : List Node → List Event
  | [] => []
  | n :: rest => n.events ++ Node.eventsAll rest

end

end Markwright
