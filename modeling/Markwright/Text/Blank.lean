/-!
# Blanks

The characters that separate words without being seen. The same set decides what `strip` removes
from the two ends of a text and what a marker of the markup must be followed by.
-/

namespace Markwright.Text

/-- The closed ranges of code points that hold every blank. -/
def blankRanges : List (Nat × Nat) :=
  [(0x09, 0x0D), (0x1C, 0x20), (0x85, 0x85), (0xA0, 0xA0), (0x1680, 0x1680), (0x2000, 0x200A),
    (0x2028, 0x2029), (0x202F, 0x202F), (0x205F, 0x205F), (0x3000, 0x3000)]

/-- The code point of `c` lies in one of the closed ranges. -/
def inRanges (ranges : List (Nat × Nat)) (c : Char) : Bool :=
  ranges.any fun r => decide (r.1 ≤ c.toNat) && decide (c.toNat ≤ r.2)

/-- The characters that count as white space, beyond ASCII as well. -/
def isBlank (c : Char) : Bool :=
  inRanges blankRanges c

/-- Drops from both ends the characters that satisfy `p`. -/
def trimBoth (p : Char → Bool) (cs : List Char) : List Char :=
  ((cs.dropWhile p).reverse.dropWhile p).reverse

/-- The text without the blanks at its two ends. -/
def strip (s : String) : String :=
  String.ofList (trimBoth isBlank s.toList)

/-- The text without the line breaks at its end. -/
def stripFinalBreaks (s : String) : String :=
  String.ofList ((s.toList.reverse.dropWhile (· == '\n')).reverse)

/-- The text padded on the right with spaces to at least `width` characters. -/
def padRight (width : Nat) (s : String) : String :=
  s ++ String.ofList (List.replicate (width - s.length) ' ')

/-- The text `n` times over. -/
def times (n : Nat) (s : String) : String :=
  String.join (List.replicate n s)

theorem toList_padRight (width : Nat) (s : String) :
    (padRight width s).toList = s.toList ++ List.replicate (width - s.length) ' ' := by
  rw [padRight, String.toList_append, String.toList_ofList]

theorem toList_times {s : String} (c : Char) (h : s.toList = [c]) (n : Nat) :
    (times n s).toList = List.replicate n c := by
  induction n with
  | zero => rfl
  | succ n ih =>
    rw [times] at ih ⊢
    rw [List.replicate_succ, String.join_cons, String.toList_append, ih, h]
    rfl

/-- The blank between two words of a line is a blank. -/
theorem isBlank_space : isBlank ' ' = true := by decide

end Markwright.Text
