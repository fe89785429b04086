import Markwright.Decimal.Shortest

/-!
# How numbers are written

A number is written with the fewest digits that read back, positionally while the exponent of its
leading digit is from -4 to 15 and with an exponent of two digits or more otherwise. A positional
number always has a digit after the point.
-/

namespace Markwright.Decimal

/-- A run of zeros. -/
private def zeros (n : Nat) : String := String.ofList (List.replicate n '0')

/-- The exponent of ten, with its sign and at least two digits. -/
def exponentText (e : Int) : String :=
  let digits := toString e.natAbs
  (if e < 0 then "e-" else "e+") ++ zeros (2 - digits.length) ++ digits

/-- `d * 10 ^ e` written out, for `d ≠ 0`. -/
def layout (d : Nat) (e : Int) : String :=
  let digits := Nat.toDigits 10 d
  let point : Int := digits.length + e
  if point < -3 ∨ 16 < point then
    let rest := digits.drop 1
    String.ofList (digits.take 1) ++ (if rest.isEmpty then "" else "." ++ String.ofList rest)
      ++ exponentText (point - 1)
  else if point ≤ 0 then
    "0." ++ zeros (-point).toNat ++ String.ofList digits
  else if (digits.length : Int) ≤ point then
    String.ofList digits ++ zeros (point - digits.length).toNat ++ ".0"
  else
    String.ofList (digits.take point.toNat) ++ "." ++ String.ofList (digits.drop point.toNat)

/-- The text of a number. -/
def text (x : Float) : String :=
  match exact x with
  | .nan => "nan"
  | .infinite negative => if negative then "-inf" else "inf"
  | .finite negative m q =>
    let magnitude :=
      if m = 0 then "0.0"
      else
        let (d, e) := shortest m q
        layout d e
    if negative then "-" ++ magnitude else magnitude

end Markwright.Decimal
