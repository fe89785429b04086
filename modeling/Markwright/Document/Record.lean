import Markwright.Document.LoadFault
import Markwright.Document.Node
import Markwright.Text.Digit

/-!
# Documents as records

A node is a record of its kind under `node_type` and its fields. Writing gives every field in a
fixed order. Reading is lenient: fields may be missing, texts may be any value, and parameters
without a value are dropped. Faults are found in the order in which the fields of a kind are read,
and a node's children are read with the field that holds them.
-/

namespace Markwright

/-- Parameters as a record of texts, in their order. -/
def Parameters.toValue (p : Parameters) : Value :=
  .record (p.entries.map fun (name, value) => (.text name, .text value))

/-- A reference as a record, its own parameters in it. -/
def Reference.toValue (r : Reference) : Value :=
  .record [("reference", .text r.target), ("type", .text r.scheme), ("typed", .bool r.typed),
    ("parameters", r.parameters.toValue)]

/-- The record of a node of some kind. -/
def recordOf (kind : String) (fields : List (Scalar × Value)) : Value :=
  .record (("node_type", .text kind) :: fields)

mutual

/-- The fields of a node but for its kind, those that hold nodes with the records of these. -/
def Node.fields : Node → List (Scalar × Value)
  | .document children p =>
    [("children", .list (Node.toValues children)), ("parameters", p.toValue)]
  | .heading level content id p =>
    [("level", .int level.val), ("content", .list (Node.toValues content)), ("id", id),
      ("parameters", p.toValue)]
  | .paragraph content p =>
    [("content", .list (Node.toValues content)), ("parameters", p.toValue)]
  | .list kind items p =>
    [("list_type", .text kind.name), ("items", .list (Node.toValues items)),
      ("parameters", p.toValue)]
  | .listItem children p =>
    [("children", .list (Node.toValues children)), ("parameters", p.toValue)]
  | .definitionList items p =>
    [("items", .list (Node.toValues items)), ("parameters", p.toValue)]
  | .definitionTerm content =>
    [("content", .list (Node.toValues content))]
  | .definitionDescription children =>
    [("children", .list (Node.toValues children))]
  | .table rows p =>
    [("rows", .list (Node.toValues rows)), ("parameters", p.toValue)]
  | .tableRow cells p =>
    [("cells", .list (Node.toValues cells)), ("parameters", p.toValue)]
  | .tableCell content header p =>
    [("content", .list (Node.toValues content)), ("header", .bool header),
      ("parameters", p.toValue)]
  | .quotation lines p =>
    [("lines", .list (Node.toValues lines)), ("parameters", p.toValue)]
  | .quotationLine content =>
    [("content", .list (Node.toValues content))]
  | .horizontalRule p => [("parameters", p.toValue)]
  | .emptyLines count => [("count", .int count.val)]
  | .call id p content inLine =>
    [("id", .text id), ("parameters", p.toValue), ("content", content.elim .null .text),
      ("inline", .bool inLine)]
  | .verbatim content inLine p =>
    [("content", .text content), ("inline", .bool inLine), ("parameters", p.toValue)]
  | .rawText content dialect =>
    [("content", .text content), ("syntax", dialect)]
  | .text content => [("content", .text content)]
  | .span format content p =>
    [("format", .text format.name), ("content", .list (Node.toValues content)),
      ("parameters", p.toValue)]
  | .link r content freeStanding p =>
    [("reference", r.toValue), ("content", .list (Node.toValues content)),
      ("free_standing", .bool freeStanding), ("parameters", p.toValue)]
  | .image r freeStanding p =>
    [("reference", r.toValue), ("free_standing", .bool freeStanding),
      ("parameters", p.toValue)]
  | .newLine => []
  | .anchor name => [("name", .text name)]

/-- The records of some trees, in order. -/
def Node.toValues : List Node → List Value
  | [] => []
  | n :: rest => recordOf n.kind n.fields :: Node.toValues rest

end

/-- The record of a tree: its kind and its fields, the trees below it in them. -/
def Node.toValue (n : Node) : Value := recordOf n.kind n.fields

/-! ## Reading fields -/

/-- The integer that a value is read as. A number loses its fraction. -/
def Value.toInt? : Value → Except NumberFault Int
  | .int n => .ok n
  | .bool b => .ok (if b then 1 else 0)
  | .text s =>
    match Text.readInt? s with
    | some n => .ok n
    | none => .error (.notNumeral (Text.quoted s))
  | .real x =>
    match Decimal.exact x with
    | .nan => .error .nan
    | .infinite _ => .error .infinite
    | .finite negative m q =>
      .ok (if negative then -(Decimal.wholePart m q : Int) else Decimal.wholePart m q)
  | v => .error (.wrongKind v.kind)

/-- The parameters of a record, whose type messages give as `owner`. -/
def readParameters (owner : String) (parameters : Option Value) : Except LoadFault Parameters :=
  match parameters with
  | none => .ok .empty
  | some v =>
    if v.truth then
      match v with
      | .record entries =>
        .ok (.ofList (entries.filterMap fun (name, value) =>
          match value with
          | .null => none
          | value => some (name.display, value.display)))
      | _ => .error (.parametersNotRecord owner)
    else .ok .empty

/-- A reference is a text, or a record with a text under `reference`. -/
def readReference (v : Value) : Except LoadFault Reference :=
  match v with
  | .text target => .ok ⟨target, "url", false, .empty⟩
  | .record fields =>
    match Value.named? fields "reference" with
    | none => .error (.badReference v.shown)
    | some target => do
      let owner := ((Value.named? fields "node_type").getD .null).display
      let parameters ← readParameters owner (Value.named? fields "parameters")
      pure {
        target := target.display
        scheme := ((Value.named? fields "type").getD (.text "url")).display
        typed := ((Value.named? fields "typed").getD (.bool false)).truth
        parameters }
  | _ => .error (.badReference v.shown)

/-- One of a fixed choice of names. -/
def readChoice {α : Type} (ofName? : String → Option α) (what : String) (v : Value) :
    Except LoadFault α :=
  match v with
  | .text name =>
    match ofName? name with
    | some a => .ok a
    | none => .error (.badChoice what v.shown)
  | _ => .error (.badChoice what v.shown)

/-- A heading level, if the number is one of the six. -/
def readLevel (n : Int) : Except HeadingFault HeadingLevel :=
  if h : 1 ≤ n ∧ n ≤ 6 then .ok ⟨n.toNat, by omega, by omega⟩ else .error (.outOfRange n)

/-- A number of empty lines, which is at least one. An infinite number is a fault of its own. -/
def readLineCount (v : Value) : Except LoadFault LineCount :=
  match v.toInt? with
  | .error .infinite => .error .infiniteNumber
  | .error fault => .error (.badLineCount (.count fault))
  | .ok n =>
    if h : 1 ≤ n then .ok ⟨n.toNat, by omega⟩ else .error (.badLineCount (.notPositive n))

/-! ## Reading nodes -/

/-- A field of a record, together with the nodes that it holds if it is a list. -/
structure Field where
  value : Value
  nodes? : Option (Except LoadFault (List Node))

/-- The fields of a record by name. -/
abbrev Fields := List (String × Field)

namespace Fields

/-- The value of the first field of that name. -/
def value? (fields : Fields) (name : String) : Option Value :=
  (fields.lookup name).map Field.value

/-- The nodes of a field. A field that is not there holds none. -/
def nodes (fields : Fields) (owner name : String) : Except LoadFault (List Node) :=
  match fields.lookup name with
  | none => .ok []
  | some field => field.nodes?.getD (.error (.notList name owner))

/-- The text of a field, in place of which `default` stands when it is not there. -/
def text (fields : Fields) (name default : String) : String :=
  ((fields.value? name).map Value.display).getD default

/-- A field counts as false when it is not there. -/
def flag (fields : Fields) (name : String) : Bool :=
  ((fields.value? name).map Value.truth).getD false

/-- The parameters of a record. A record without them has none. -/
def parameters (fields : Fields) (owner : String) : Except LoadFault Parameters :=
  readParameters owner (fields.value? "parameters")

/-- A child whose type is a list or a record is the heading's fault. -/
def blameHeading : LoadFault → LoadFault
  | .compositeNodeType kind => .badHeading (.compositeChild kind)
  | fault => fault

/-- A heading from its fields. Its level is read first, and checked last to be one of the six. -/
def heading (fields : Fields) (owner : String) : Except LoadFault Node :=
  match (fields.value? "level").map Value.toInt? with
  | none => .error (.badHeading .noLevel)
  | some (.error .infinite) => .error .infiniteNumber
  | some (.error fault) => .error (.badHeading (.level fault))
  | some (.ok n) => do
    let content ← (fields.nodes owner "content").mapError blameHeading
    let parameters ← fields.parameters owner
    let level ← (readLevel n).mapError .badHeading
    pure (.heading level content ((fields.value? "id").getD .null) parameters)

/-- A call from its fields. Only its name has to be there. -/
def call (fields : Fields) (owner : String) : Except LoadFault Node :=
  match fields.value? "id" with
  | none => .error (.missingField owner "id")
  | some id => do
    let parameters ← fields.parameters owner
    let content := match (fields.value? "content").getD .null with
      | .null => none
      | content => some content.display
    pure (.call id.display parameters content (fields.flag "inline"))

/-- The node of a kind, from its fields. -/
def assemble? (fields : Fields) : String → Option (Except LoadFault Node)
  | "Document" => some do
    let children ← fields.nodes "Document" "children"
    pure (.document children (← fields.parameters "Document"))
  | "Heading" => some (fields.heading "Heading")
  | "Paragraph" => some do
    let content ← fields.nodes "Paragraph" "content"
    pure (.paragraph content (← fields.parameters "Paragraph"))
  | "List" => some do
    let items ← fields.nodes "List" "items"
    let kind ← readChoice ListKind.ofName? "list type"
      ((fields.value? "list_type").getD (.text "bulleted"))
    pure (.list kind items (← fields.parameters "List"))
  | "ListItem" => some do
    let children ← fields.nodes "ListItem" "children"
    pure (.listItem children (← fields.parameters "ListItem"))
  | "DefinitionList" => some do
    let items ← fields.nodes "DefinitionList" "items"
    pure (.definitionList items (← fields.parameters "DefinitionList"))
  | "DefinitionTerm" => some do
    pure (.definitionTerm (← fields.nodes "DefinitionTerm" "content"))
  | "DefinitionDescription" => some do
    pure (.definitionDescription (← fields.nodes "DefinitionDescription" "children"))
  | "Table" => some do
    let rows ← fields.nodes "Table" "rows"
    pure (.table rows (← fields.parameters "Table"))
  | "TableRow" => some do
    let cells ← fields.nodes "TableRow" "cells"
    pure (.tableRow cells (← fields.parameters "TableRow"))
  | "TableCell" => some do
    let content ← fields.nodes "TableCell" "content"
    pure (.tableCell content (fields.flag "header") (← fields.parameters "TableCell"))
  | "Quotation" => some do
    let lines ← fields.nodes "Quotation" "lines"
    pure (.quotation lines (← fields.parameters "Quotation"))
  | "QuotationLine" => some do
    pure (.quotationLine (← fields.nodes "QuotationLine" "content"))
  | "HorizontalRule" => some do
    pure (.horizontalRule (← fields.parameters "HorizontalRule"))
  | "EmptyLines" => some do
    pure (.emptyLines (← readLineCount ((fields.value? "count").getD (.int 1))))
  | "Macro" => some (fields.call "Macro")
  | "Verbatim" => some do
    pure (.verbatim (fields.text "content" "") (fields.flag "inline")
      (← fields.parameters "Verbatim"))
  | "RawText" => some do
    pure (.rawText (fields.text "content" "") ((fields.value? "syntax").getD .null))
  | "Text" => some do
    pure (.text (fields.text "content" ""))
  | "FormatSpan" => some do
    let format ← readChoice Format.ofName? "format"
      ((fields.value? "format").getD (.text "none"))
    let content ← fields.nodes "FormatSpan" "content"
    pure (.span format content (← fields.parameters "FormatSpan"))
  | "Link" => some do
    let reference ← readReference ((fields.value? "reference").getD .null)
    let content ← fields.nodes "Link" "content"
    pure (.link reference content (fields.flag "free_standing") (← fields.parameters "Link"))
  | "Image" => some do
    let reference ← readReference ((fields.value? "reference").getD .null)
    pure (.image reference (fields.flag "free_standing") (← fields.parameters "Image"))
  | "NewLine" => some (pure .newLine)
  | "Anchor" => some (pure (.anchor (fields.text "name" "")))
  | _ => none

/-- A child whose type is a list or a record makes its parent malformed. -/
def blameOwner (owner : String) : LoadFault → LoadFault
  | .compositeNodeType kind => .malformed owner kind
  | fault => fault

/-- The node that a record stands for. -/
def node (fields : Fields) : Except LoadFault Node :=
  let type := (fields.value? "node_type").getD .null
  if type.truth then
    match type with
    | .list _ | .record _ => .error (.compositeNodeType type.kind)
    | .text name =>
      match fields.assemble? name with
      | some r => r.mapError (blameOwner name)
      | none => .error (.unknownNodeType name)
    | _ => .error (.unknownNodeType type.display)
  else .error .noNodeType

end Fields

mutual

/-- The node that a value stands for. -/
def Node.ofValue : Value → Except LoadFault Node
  | .record fields => (readFieldNodes fields).node
  | v => .error (.notRecord v.kind)

/-- The fields of a record with the nodes that they hold. Those whose keys are no texts do not
count. -/
def readFieldNodes : List (Scalar × Value) → Fields
  | [] => []
  | (.text name, .list items) :: rest =>
    (name, ⟨.list items, some (readNodes items)⟩) :: readFieldNodes rest
  | (.text name, v) :: rest => (name, ⟨v, none⟩) :: readFieldNodes rest
  | _ :: rest => readFieldNodes rest

/-- The nodes that values stand for, up to the first fault. -/
def readNodes : List Value → Except LoadFault (List Node)
  | [] => .ok []
  | v :: rest =>
    match Node.ofValue v with
    | .error fault => .error fault
    | .ok n => (readNodes rest).map (n :: ·)

end

end Markwright
