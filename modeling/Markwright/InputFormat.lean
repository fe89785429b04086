import Markwright.Path

/-!
# The format of an input

A document is read as JSON unless its name says that it is YAML.
-/

namespace Markwright

/-- The formats that documents are read from. -/
inductive InputFormat where
  | json
  | yaml
deriving DecidableEq

namespace InputFormat

/-- The name of a format on the command line. -/
def name : InputFormat → String
  | json => "json"
  | yaml => "yaml"

/-- All formats, in the order in which they are offered. -/
def all : List InputFormat := [json, yaml]

/-- The format of that name. -/
def ofName? (s : String) : Option InputFormat :=
  all.find? (·.name == s)

/-- The format that the name of an input tells. -/
def detect (source : String) : InputFormat :=
  let suffix := (Path.ofString source).suffix.map Char.toLower
  if suffix = ".yaml".toList ∨ suffix = ".yml".toList then yaml else json

end InputFormat

end Markwright
