import Markwright.Yaml.Character

/-!
# The lines of a YAML text

Blocks are told by how far their lines are indented. Only the lines that hold something count: empty
lines and lines of comment are left out. A line of three dashes opens the one document that a text
holds, and a line of three points closes it.
-/

namespace Markwright.Yaml

/-- A line that holds something: how many spaces it begins with, and what follows them. -/
structure Line where
  indent : Nat
  text : List Char
deriving DecidableEq

/-- A character that a YAML text can hold. -/
def isAllowed (c : Char) : Bool :=
  let n := c.toNat
  c == '\t' || c == '\n' || c == '\r' || c == '\x85' || (decide (0x20 ≤ n) && decide (n ≤ 0x7E)) ||
    (decide (0xA0 ≤ n) && decide (n ≤ 0xFFFD)) || decide (0x10000 ≤ n)

/-- The lines between line breaks, of which a carriage return with a line feed is one. -/
def splitLines : List Char → List (List Char)
  | [] => [[]]
  | '\r' :: '\n' :: cs => [] :: splitLines cs
  | c :: cs =>
    if isBreak c || c == '\r' then [] :: splitLines cs
    else
      match splitLines cs with
      | line :: rest => (c :: line) :: rest
      | [] => [[c]]

/-- Lines are indented with spaces only. -/
def isSpace (c : Char) : Bool := c == ' '

/-- What stands at the end of a line, or is all of it, without a meaning. -/
def isIgnored (cs : List Char) : Bool :=
  match cs.dropWhile isSpace with
  | [] => true
  | c :: _ => c == '#'

/-- A line by its indentation and the rest. -/
def Line.ofChars (cs : List Char) : Line :=
  ⟨(cs.takeWhile isSpace).length, cs.dropWhile isSpace⟩

/-- A line of three times `c`, and perhaps more behind a space. -/
def isMarker (c : Char) (line : Line) : Bool :=
  line.indent == 0 && line.text.take 3 == [c, c, c] && isGapOrEnd (line.text.drop 3).head?

/-- The lines up to the end of the document, unless more follows it. -/
def untilEnd? : List Line → Option (List Line)
  | [] => some []
  | line :: rest =>
    if isMarker '-' line then none
    else if isMarker '.' line then
      if (line :: rest).all fun l => isMarker '.' l && isIgnored (l.text.drop 3) then some []
      else none
    else (untilEnd? rest).map (line :: ·)

/-- The lines of the document of a text. A line that opens it holds nothing else. -/
def documentLines? (cs : List Char) : Option (List Line) :=
  if !cs.all isAllowed then none
  else
    let cs := match cs with
      | '\uFEFF' :: rest => rest
      | _ => cs
    let lines := ((splitLines cs).filter fun line => !isIgnored line).map Line.ofChars
    match lines with
    | line :: rest =>
      if isMarker '-' line && isIgnored (line.text.drop 3) then untilEnd? rest
      else untilEnd? (line :: rest)
    | [] => some []

end Markwright.Yaml
