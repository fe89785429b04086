import Markwright.Value

/-!
# Writing JSON

A value is written on one line, or with one item a line when an indentation is given. Characters
beyond the controls are written as they are. A key that is no text is written as the text of it.
-/

namespace Markwright.Json

/-- One character of a text between quotes. -/
def writeChar (c : Char) : List Char :=
  if c = '"' ∨ c = '\\' then ['\\', c]
  else if c = '\n' then ['\\', 'n']
  else if c = '\r' then ['\\', 'r']
  else if c = '\t' then ['\\', 't']
  else if c = '\x08' then ['\\', 'b']
  else if c = '\x0c' then ['\\', 'f']
  else if c.toNat < 0x20 then '\\' :: 'u' :: Text.hexDigits 4 c.toNat
  else [c]

/-- A text in quotes. -/
def writeText (s : String) : String :=
  String.ofList ('"' :: s.toList.flatMap writeChar ++ ['"'])

/-- A float, the three that are no finite numbers by name. -/
def writeNumber (x : Float) : String :=
  match Decimal.exact x with
  | .nan => "NaN"
  | .infinite negative => if negative then "-Infinity" else "Infinity"
  | .finite .. => Decimal.text x

/-- A value that holds no others. -/
def writeScalar : Scalar → String
  | .null => "null"
  | .bool b => if b then "true" else "false"
  | .int n => toString n
  | .real x => writeNumber x
  | .text s => writeText s

/-- A key, which is always a text. -/
def writeKey : Scalar → String
  | .text s => writeText s
  | k => writeText (writeScalar k)

/-- What stands before an item at the given depth: nothing on one line, else a break and the
indentation. -/
def lineStart (indent : Option Nat) (depth : Nat) : String :=
  match indent with
  | none => ""
  | some width => "\n" ++ String.ofList (List.replicate (width * depth) ' ')

/-- What stands between two items at the given depth. -/
def separator (indent : Option Nat) (depth : Nat) : String :=
  match indent with
  | none => ", "
  | some _ => "," ++ lineStart indent depth

/-- Items between brackets, at the given depth. -/
def enclose (indent : Option Nat) (depth : Nat) (opening closing : String) (items : List String) :
    String :=
  if items.isEmpty then opening ++ closing
  else opening ++ lineStart indent (depth + 1) ++ (separator indent (depth + 1)).intercalate items
    ++ lineStart indent depth ++ closing

/-- A value at some depth of indentation, on one line if nothing is indented. -/
def writeAt (indent : Option Nat) (depth : Nat) : Value → String
  | .scalar s => writeScalar s
  | .list items => enclose indent depth "[" "]" (writeItems items)
  | .record fields => enclose indent depth "\x7b" "\x7d" (writeFields fields)
where
  writeItems : List Value → List String
    | [] => []
    | v :: rest => writeAt indent (depth + 1) v :: writeItems rest
  writeFields : List (Scalar × Value) → List String
    | [] => []
    | (k, v) :: rest =>
      (writeKey k ++ ": " ++ writeAt indent (depth + 1) v) :: writeFields rest

/-- The text of a value, on one line without an indentation. -/
def write (indent : Option Nat) (v : Value) : String :=
  writeAt indent 0 v

end Markwright.Json
