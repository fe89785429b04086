/-!
# The exact value of a floating-point number

A finite number is a sign and `m * 2 ^ q`. All that the library asks of a number but its product
and its order is answered on `m` and `q`, in exact integer arithmetic.
-/

namespace Markwright.Decimal

/-- What the bits of a number stand for. -/
inductive Exact where
  | nan
  | infinite (negative : Bool)
  | finite (negative : Bool) (m : Nat) (q : Int)
deriving DecidableEq

/-- `b ^ e`, and 1 for a negative `e`. -/
def power (b : Nat) (e : Int) : Nat := Nat.pow b e.toNat

/-- What a float stands for, read off its bits: the sign, the exponent and the fraction. -/
def exact (x : Float) : Exact :=
  let bits := x.toBits.toNat
  let negative := decide (power 2 63 ≤ bits)
  let field : Nat := bits / power 2 52 % power 2 11
  let fraction : Nat := bits % power 2 52
  if field = 2047 then
    if fraction = 0 then .infinite negative else .nan
  else if field = 0 then .finite negative fraction (-1074)
  else .finite negative (power 2 52 + fraction) ((field : Int) - 1075)

/-- `m * 2 ^ q` without its fraction. -/
def wholePart (m : Nat) (q : Int) : Nat :=
  m * power 2 q / power 2 (-q)

/-- Every number but a zero counts as true. -/
def isZero (x : Float) : Bool :=
  match exact x with
  | .finite _ 0 _ => true
  | _ => false

/-- The numbers are the same one, zero with a sign or without. What is not a number is the same as
itself. -/
def isSame (x y : Float) : Bool :=
  (isZero x && isZero y) || exact x == exact y

/-- The number is a finite integer equal to `n`. -/
def equalsInt (x : Float) (n : Int) : Bool :=
  match exact x with
  | .finite negative m q =>
    let v : Int := if negative then -(wholePart m q : Int) else wholePart m q
    decide (v = n) && decide (m * power 2 q % power 2 (-q) = 0)
  | _ => false

/-- The number closest to `m * 10 ^ e`. The exponent is brought into the range where it matters. -/
def ofScaled (m : Nat) (e : Int) : Float :=
  let top : Int := (Nat.toDigits 10 m).length + e
  if m = 0 ∨ top < -400 then Float.ofScientific 0 true 1
  else if 400 < top then Float.ofScientific 1 false 400
  else Float.ofScientific m (decide (e < 0)) e.natAbs

end Markwright.Decimal
