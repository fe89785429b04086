import Markwright.Decimal.Dyadic

/-!
# The fewest digits that read back

The reals that round to `m * 2 ^ q` form an interval around it. Among the decimals in the interval
those of fewest digits are taken, of two the nearer, and of two equally near the even one. For each
number of digits only the two neighbours of the value on that decimal grid need a look.
-/

namespace Markwright.Decimal

/-- Compares `a * 10 ^ e` with `b * 2 ^ q`. -/
def compareScaled (a : Nat) (e : Int) (b : Nat) (q : Int) : Ordering :=
  compare (a * power 10 e * power 2 (-q)) (b * power 2 q * power 10 (-e))

/-- `d * 10 ^ e` rounds to `m * 2 ^ q`, ties to the even `m`. Just above a power of two the gap to
the number below is half as wide. -/
def readsBack (m : Nat) (q : Int) (d : Nat) (e : Int) : Bool :=
  let low := if m = power 2 52 ∧ -1074 < q then 4 * m - 1 else 4 * m - 2
  let fromLow := compareScaled d e low (q - 2)
  let fromHigh := compareScaled d e (4 * m + 2) (q - 2)
  let ends := m % 2 == 0
  (fromLow == .gt || (ends && fromLow == .eq)) && (fromHigh == .lt || (ends && fromHigh == .eq))

/-- The number of digits before the point of `m * 2 ^ q`, negative when zeros follow the point.
No number is below `10 ^ (-400)`. -/
def pointPosition (m : Nat) (q : Int) : Int :=
  ((Nat.toDigits 10 (wholePart (m * power 10 400) q)).length : Int) - 400

/-- The neighbour of `m * 2 ^ q` among the multiples of `10 ^ e` that reads back, if one does. -/
def onGrid? (m : Nat) (q e : Int) : Option Nat :=
  let num := m * power 2 q * power 10 (-e)
  let den := power 2 (-q) * power 10 e
  let d := num / den
  match readsBack m q d e, readsBack m q (d + 1) e with
  | false, false => none
  | true, false => some d
  | false, true => some (d + 1)
  | true, true =>
    match compare (2 * num) ((2 * d + 1) * den) with
    | .lt => some d
    | .gt => some (d + 1)
    | .eq => some (if d % 2 = 0 then d else d + 1)

/-- Digits and the power of ten that their last one counts, without zeros at the end. The fuel
bounds the number of zeros dropped. -/
def dropZeros : Nat → Nat → Int → Nat × Int
  | 0, d, e => (d, e)
  | fuel + 1, d, e =>
    if d ≠ 0 ∧ d % 10 = 0 then dropZeros fuel (d / 10) (e + 1) else (d, e)

/-- Digits and exponent of the shortest decimal that rounds to `m * 2 ^ q`, for `m ≠ 0`. Seventeen
digits always do; the exact value stands in should they not. -/
def shortest (m : Nat) (q : Int) : Nat × Int :=
  let point := pointPosition m q
  let found := (List.range 17).findSome? fun (n : Nat) =>
    let e : Int := point - ((n : Int) + 1)
    (onGrid? m q e).map fun d => (d, e)
  match found with
  | some (d, e) => dropZeros 20 d e
  | none => dropZeros 1100 (m * power 2 q * power 5 (-q)) (-((-q).toNat : Int))

end Markwright.Decimal
