/-!
# Characters of YAML

Which characters end a line or set tokens apart, which mean something where a scalar begins, and
which have a short escape between double quotes.
-/

namespace Markwright.Yaml

/-- The characters that end a line of YAML. -/
def isBreak (c : Char) : Bool := c == '\n' || c == '\x85' || c == '\u2028' || c == '\u2029'

/-- Nothing, or what sets tokens apart. -/
def isGapOrEnd : Option Char → Bool
  | none => true
  | some c => c == ' ' || c == '\t' || c == '\r' || c == '\x00' || isBreak c

/-- A character that can stand for itself. -/
def isWritable (c : Char) : Bool :=
  let n := c.toNat
  c == '\n' || c == '\x85' || (decide (0x20 ≤ n) && decide (n ≤ 0x7E)) ||
    (decide (0xA0 ≤ n) && decide (n ≤ 0xFFFD) && n != 0xFEFF) ||
    (decide (0x10000 ≤ n) && decide (n < 0x10FFFF))

/-- Characters that a plain scalar cannot begin with. -/
def leadingIndicators : List Char := "#,[]\x7b\x7d&*!|>'\"%@\x60".toList

/-- The letters of the short escapes. -/
def shortEscapes : List (Char × Char) :=
  [('\x00', '0'), ('\x07', 'a'), ('\x08', 'b'), ('\t', 't'), ('\n', 'n'), ('\x0b', 'v'),
    ('\x0c', 'f'), ('\r', 'r'), ('\x1b', 'e'), ('"', '"'), ('\\', '\\'), ('\x85', 'N'),
    ('\xa0', '_'), ('\u2028', 'L'), ('\u2029', 'P')]

end Markwright.Yaml
