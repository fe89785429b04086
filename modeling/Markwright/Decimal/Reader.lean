import Markwright.Decimal.Dyadic
import Markwright.Text.Digit

/-!
# Reading numbers

A number is read from decimal digits with a point, an exponent and a sign, as far as each is there.
Blanks around it do not count, digits may be of any script, and a single underscore may stand
between two of them. Infinity and what is not a number are read by their names.
-/

namespace Markwright.Decimal

/-- The values of the digits at the front, and what follows them. `after` tells whether a digit
comes before them. -/
def spanDigits (after : Bool) : List Char → List Nat × List Char
  | [] => ([], [])
  | c :: rest =>
    match Text.digitValue? c with
    | some d =>
      let (ds, left) := spanDigits true rest
      (d :: ds, left)
    | none =>
      if c == '_' && after && rest.head?.any fun e => (Text.digitValue? e).isSome then
        spanDigits false rest
      else ([], c :: rest)

/-- The number that some decimal digits spell. -/
private def ofDigits (ds : List Nat) : Nat := ds.foldl (fun n d => 10 * n + d) 0

/-- The exponent that is all of `cs`, zero if nothing is left. -/
def readExponent? : List Char → Option Int
  | [] => some 0
  | e :: rest =>
    if e = 'e' ∨ e = 'E' then
      let (negative, digits) : Bool × List Char := match rest with
        | '-' :: more => (true, more)
        | '+' :: more => (false, more)
        | more => (false, more)
      match spanDigits false digits with
      | ([], _) => none
      | (ds, []) => some (if negative then -(ofDigits ds : Int) else ofDigits ds)
      | _ => none
    else none

/-- A number without its sign. -/
def readMagnitude? (cs : List Char) : Option Float :=
  let name := String.ofList (cs.map Char.toLower)
  if name = "inf" ∨ name = "infinity" then some (ofScaled 1 400)
  else if name = "nan" then some (0.0 / 0.0)
  else
    let (whole, rest) := spanDigits false cs
    let (decimals, rest) : List Nat × List Char := match rest with
      | '.' :: more => spanDigits false more
      | more => ([], more)
    if whole.isEmpty && decimals.isEmpty then none
    else (readExponent? rest).map fun e =>
      ofScaled (ofDigits (whole ++ decimals)) (e - decimals.length)

/-- The number that a text writes. -/
def read? (s : String) : Option Float :=
  match Text.trimBoth Text.isMargin s.toList with
  | '-' :: cs => (readMagnitude? cs).map fun x => -x
  | '+' :: cs => readMagnitude? cs
  | cs => readMagnitude? cs

end Markwright.Decimal
