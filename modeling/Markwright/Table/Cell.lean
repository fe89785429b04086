import Markwright.Fault
import Markwright.Parameters
import Markwright.Text.Digit

/-!
# Cells

A cell holds rendered text and covers one column or more. Its parameters may set how its column is
aligned and how many columns it covers.
-/

namespace Markwright.Table

/-- How the text of a column is aligned; the default leaves it to the reader of the page. -/
inductive Alignment where
  | left
  | right
  | center
  | default
deriving DecidableEq

/-- The name of an alignment. -/
def Alignment.name : Alignment → String
  | left => "left"
  | right => "right"
  | center => "center"
  | default => "default"

/-- An alignment by name, in any case and with blanks around it; any other text is the default. -/
def Alignment.parse (value : Option String) : Alignment :=
  match value.map fun s => (Text.trimBoth Text.isBlank s.toList).map Char.toLower with
  | some name =>
    if name = "left".toList then .left
    else if name = "right".toList then .right
    else if name = "center".toList then .center
    else .default
  | none => .default

/-- The number of columns that a text asks for, any blanks around it not counting; messages show it
as `shown`. -/
def readSpan (text shown : String) : Except RenderFault Nat :=
  match Text.readInt? (Text.strip text) with
  | none => .error (.badSpan shown)
  | some n => if n < 1 then .error (.spanBelowOne shown) else .ok n.toNat

/-- A cell covers one column unless a parameter says otherwise. -/
def spanOf (value : Option String) : Except RenderFault Nat :=
  match value with
  | none => .ok 1
  | some s => readSpan s (Text.quoted s)

/-- What a cell shows, and how many columns it covers. -/
structure Cell where
  content : String
  span : Nat
deriving DecidableEq

/-- The cells of a row, from the left. -/
abbrev Row := List Cell

/-- How many columns a row covers. -/
def Row.width : Row → Nat
  | [] => 0
  | c :: rest => c.span + Row.width rest

/-- The columns of a row one by one. A column that a cell covers beyond its first is `none`. -/
def Row.slots (r : Row) : List (Option String) :=
  r.flatMap fun c => some c.content :: List.replicate (c.span - 1) none

end Markwright.Table
