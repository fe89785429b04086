import Markwright.Text.Blank

/-!
# Decimal digits

The digits of every script that writes numbers in base ten. Each script has its ten digits in one
row, in order, so the row's zero gives the value of all ten. A text counts as a number when all its
characters are such digits, and an integer may be written with any of them. Blanks around a number
do not count, but for the four that separate records and fields of a file.
-/

namespace Markwright.Text

/-- The code points of the digits of value zero, one a script. -/
def zeroDigits : List Nat := [
  0x0030, 0x0660, 0x06F0, 0x07C0, 0x0966, 0x09E6, 0x0A66, 0x0AE6, 0x0B66, 0x0BE6, 0x0C66, 0x0CE6,
  0x0D66, 0x0DE6, 0x0E50, 0x0ED0, 0x0F20, 0x1040, 0x1090, 0x17E0, 0x1810, 0x1946, 0x19D0, 0x1A80,
  0x1A90, 0x1B50, 0x1BB0, 0x1C40, 0x1C50, 0xA620, 0xA8D0, 0xA900, 0xA9D0, 0xA9F0, 0xAA50, 0xABF0,
  0xFF10, 0x104A0, 0x10D30, 0x11066, 0x110F0, 0x11136, 0x111D0, 0x112F0, 0x11450, 0x114D0,
  0x11650, 0x116C0, 0x11730, 0x118E0, 0x11950, 0x11C50, 0x11D50, 0x11DA0, 0x16A60, 0x16AC0,
  0x16B50, 0x1D7CE, 0x1D7D8, 0x1D7E2, 0x1D7EC, 0x1D7F6, 0x1E140, 0x1E2F0, 0x1E950, 0x1FBF0]

/-- The value of a decimal digit, in any script. -/
def digitValue? (c : Char) : Option Nat :=
  (zeroDigits.find? fun z => decide (z ≤ c.toNat) && decide (c.toNat < z + 10)).map (c.toNat - ·)

/-- There is a character, and all of them are decimal digits. -/
def isDecimal (cs : List Char) : Bool :=
  !cs.isEmpty && cs.all fun c => (digitValue? c).isSome

/-- The value of `cs` as decimal digits, a single underscore allowed between two of them. `value`
is that of the digits read so far and `after` tells whether the last character was one. -/
def readDigits? (value : Nat) (after : Bool) : List Char → Option Nat
  | [] => if after then some value else none
  | c :: cs =>
    if c == '_' then
      if after then readDigits? value false cs else none
    else
      match digitValue? c with
      | some d => readDigits? (10 * value + d) true cs
      | none => none

/-- A blank that may stand around a number. The four separators of information may not. -/
def isMargin (c : Char) : Bool :=
  isBlank c && !inRanges [(0x1C, 0x1F)] c

/-- The integer a text writes: blanks around it, a sign and decimal digits. -/
def readInt? (s : String) : Option Int :=
  match trimBoth isMargin s.toList with
  | '-' :: cs => (readDigits? 0 false cs).map fun n => -(n : Int)
  | '+' :: cs => (readDigits? 0 false cs).map fun n => (n : Int)
  | cs => (readDigits? 0 false cs).map fun n => (n : Int)

end Markwright.Text
