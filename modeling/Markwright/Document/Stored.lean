import Markwright.Document.Record
import Markwright.Json.Writer
import Markwright.Yaml.Reader
import Markwright.Yaml.Writer

/-!
# Stored documents

A stored document is the record of a tree with the version of the format in front of its fields. A
record without a version is taken to be of the only one there is.
-/

namespace Markwright

/-- A value equal to one, which is the version of the format. -/
def isVersionOne : Value → Bool
  | .int n => n == 1
  | .bool b => b
  | .real x => Decimal.equalsInt x 1
  | _ => false

/-- The tree of a stored document. -/
def Node.ofStored : Value → Except LoadFault Node
  | .record fields =>
    let version := (Value.named? fields "schema_version").getD (.int 1)
    if isVersionOne version then
      Node.ofValue (.record (fields.filter (·.1 != .text "schema_version")))
    else .error (.unsupportedVersion version.display)
  | _ => .error .rootNotRecord

/-- The record of a tree with the version in front of its fields. -/
def Node.toStored (n : Node) : Value :=
  .record (("schema_version", .int 1) :: ("node_type", .text n.kind) :: n.fields)

/-- The tree that a JSON text stores. -/
def Node.ofJson (text : String) : Except LoadFault Node :=
  match Json.read text with
  | .error e => .error (.badJson e)
  | .ok v => Node.ofStored v

/-- The JSON text that stores a tree, indented or in one line. -/
def Node.toJson (indent : Option Nat) (n : Node) : String :=
  Json.write indent n.toStored

/-- The tree that a YAML text stores. -/
def Node.ofYaml (text : String) : Except LoadFault Node :=
  match Yaml.read? text with
  | none => .error .badYaml
  | some v => Node.ofStored v

/-- The YAML text that stores a tree. -/
def Node.toYaml (n : Node) : String :=
  Yaml.write n.toStored

end Markwright
