import Markwright.Json.Reader

/-!
# What can go wrong while loading a document

A document comes as a value of a data format. Each cause says what is wrong with the value and, for
most, the stage of loading at which it was found. Two causes belong to no stage: a node type that is
a list or a record at the root of a tree, and an infinite number where an integer is due.
-/

namespace Markwright

/-- Why a value is no integer. -/
inductive NumberFault where
  | notNumeral (shown : String)
  | nan
  | infinite
  | wrongKind (kind : String)

/-- How much of a text that is no number is told. -/
def numeralTold : Nat := 200

/-- A value that is no integer, as it is told. Only the beginning of a long text is shown. -/
def NumberFault.message : NumberFault → String
  | notNumeral shown => "invalid literal for int() with base 10: "
      ++ String.ofList (shown.toList.take numeralTold)
  | nan => "cannot convert float NaN to integer"
  | infinite => "cannot convert float infinity to integer"
  | wrongKind kind =>
    "int() argument must be a string, a bytes-like object or a real number, not '" ++ kind ++ "'"

/-- A list or a record where only a scalar can be looked up. -/
private def compositeMessage (kind : String) : String := "unhashable type: '" ++ kind ++ "'"

/-- What can be wrong with a heading. -/
inductive HeadingFault where
  | noLevel
  | level (fault : NumberFault)
  | outOfRange (level : Int)
  | compositeChild (kind : String)

/-- What is told of a heading behind its own name. -/
def HeadingFault.message : HeadingFault → String
  | noLevel => "'level'"
  | level fault => fault.message
  | outOfRange got => s!"Heading level must be 1-6, got {got}"
  | compositeChild kind => compositeMessage kind

/-- What can be wrong with a number of empty lines. -/
inductive LineCountFault where
  | count (fault : NumberFault)
  | notPositive (count : Int)

/-- What is told of a number of empty lines. -/
def LineCountFault.message : LineCountFault → String
  | count fault => fault.message
  | notPositive got => s!"EmptyLines count must be positive, got {got}"

/-- Why a value is no stored document. -/
inductive LoadFault where
  | notRecord (kind : String)
  | noNodeType
  | unknownNodeType (name : String)
  | notList (field owner : String)
  | parametersNotRecord (owner : String)
  | badReference (shown : String)
  | badChoice (what shown : String)
  | missingField (owner field : String)
  /-- A node below `owner` has a list or a record for its type. -/
  | malformed (owner kind : String)
  | badHeading (fault : HeadingFault)
  | badLineCount (fault : LineCountFault)
  | rootNotRecord
  | rootNotDocument (kind : String)
  | unsupportedVersion (shown : String)
  | badJson (error : Json.ReadError)
  | badYaml
  /-- The node has a list or a record for its type. -/
  | compositeNodeType (kind : String)
  | infiniteNumber

namespace LoadFault

/-- The whole text of a fault. -/
def message : LoadFault → String
  | notRecord kind => "Node must be a mapping, got " ++ kind
  | noNodeType => "Dictionary must contain 'node_type' field"
  | unknownNodeType name => "Unknown node type: " ++ name
  | notList field owner => "Field '" ++ field ++ "' of " ++ owner ++ " must be a list"
  | parametersNotRecord owner => "Parameters of " ++ owner ++ " must be a mapping"
  | badReference shown => "Invalid resource reference: " ++ shown
  | badChoice what shown => "Invalid " ++ what ++ ": " ++ shown
  | missingField owner field => owner ++ " is missing field '" ++ field ++ "'"
  | malformed owner kind => "Malformed " ++ owner ++ ": " ++ compositeMessage kind
  | badHeading fault => "Invalid heading: " ++ fault.message
  | badLineCount fault => "Invalid empty lines: " ++ fault.message
  | rootNotRecord => "Document tree root must be a mapping"
  | rootNotDocument kind => "Root node must be a Document, got " ++ kind
  | unsupportedVersion shown =>
    "Unsupported schema version: " ++ shown ++ ". Only schema version 1 is supported."
  | badJson error => "Invalid JSON: " ++ error.message
  | badYaml => "Invalid YAML"
  | compositeNodeType kind => compositeMessage kind
  | infiniteNumber => NumberFault.infinite.message

/-- The stage of loading at which a fault is found. -/
def stage? : LoadFault → Option String
  | badReference _ => some "reference"
  | unsupportedVersion _ => some "schema"
  | badJson _ => some "json"
  | badYaml => some "yaml"
  | compositeNodeType _ | infiniteNumber => none
  | _ => some "structure"

end LoadFault

end Markwright
