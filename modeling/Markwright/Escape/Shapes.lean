import Markwright.Escape.Marker
import Markwright.Text.Blank

/-!
# The markers of the markup

Each marker says what stands at the front of a text, how far it reaches, and what of it has to be
escaped so that it is no marker any more.
-/

namespace Markwright.Escape

open Text (isBlank)

namespace Marker

/-- The character that marks code. -/
def tick : Char := '\x60'

/-- A square bracket and the character before it, which is no escape character. -/
def bracket : Marker where
  source := "bracket"
  partCount := 1
  hit? _
    | p :: b :: _ => if p ≠ escapeChar ∧ (b = '[' ∨ b = ']') then some ⟨2, [some 1]⟩ else none
    | _ => none

/-- Two dashes, or three: the first of three is a part of its own. -/
def dashes : Marker where
  source := "dashes"
  partCount := 2
  hit? _
    | '-' :: '-' :: '-' :: _ => some ⟨3, [some 0, some 1]⟩
    | '-' :: '-' :: _ => some ⟨2, [none, some 0]⟩
    | _ => none

/-- The length of code after its opening ticks, if a tick closes it. -/
def codeLength? (cs : List Char) : Option Nat :=
  match cs.span (· != tick) with
  | ([], _) => none
  | (_, []) => none
  | (code, _ :: _) => some code.length

/-- One or two ticks and code up to the closing ticks, which stay outside. -/
def codeSpan : Marker where
  source := "code span"
  partCount := 1
  hit? _ cs :=
    match cs with
    | c :: rest =>
      if c = tick then
        match (if rest.head? = some tick then codeLength? (rest.drop 1) else none) with
        | some n => some ⟨n + 2, [some 0]⟩
        | none => (codeLength? rest).map fun n => ⟨n + 1, [some 0]⟩
      else none
    | [] => none

/-- Looks for a shape at the start of the text or after a blank, which then belongs to the hit. -/
def afterBlank (shape? : List Char → Option Nat) (whole : Bool) (cs : List Char) : Option Hit :=
  match cs with
  | c :: rest =>
    if isBlank c then (shape? rest).map fun n => ⟨n + 1, [some 1]⟩
    else if whole then (shape? cs).map fun n => ⟨n, [some 0]⟩
    else none
  | [] => none

/-- The characters that emphasis is marked with. -/
def isEmphasis (c : Char) : Bool := c == '*' || c == '_'

/-- The length of one to three stars or underscores and the character after them. -/
def emphasisLength? (cs : List Char) : Option Nat :=
  match cs.span isEmphasis with
  | (run, c :: _) =>
    if 1 ≤ run.length ∧ run.length ≤ 3 ∧ !isBlank c then some (run.length + 1) else none
  | (_, []) => none

/-- Emphasis that opens: it stands after a blank and before something that is none. -/
def emphasis : Marker where
  source := "emphasis"
  partCount := 1
  hit? := afterBlank emphasisLength?

/-- The opening brackets of a label, with the mark of an image or a call before them. -/
def label : Marker where
  source := "label"
  partCount := 1
  hit? _ cs :=
    match cs with
    | c :: rest =>
      let mark := c == '#' || c == '!'
      let brackets := (if mark then rest else cs).takeWhile (· == '[')
      if brackets.isEmpty then none
      else some ⟨(if mark then 1 else 0) + brackets.length, [some 0]⟩
    | [] => none

/-- The characters that lines across the page and underlines are drawn with. -/
def isRuleChar (c : Char) : Bool := c == '=' || c == '-' || c == '*'

/-- How many rule characters stand at the front, a space allowed after each, and what follows. -/
def ruleUnits (spaceAllowed : Bool) : List Char → Nat × List Char
  | [] => (0, [])
  | c :: cs =>
    if isRuleChar c then
      let r := ruleUnits true cs
      (r.1 + 1, r.2)
    else if spaceAllowed && c == ' ' then ruleUnits false cs
    else (0, c :: cs)

/-- The whole text is a horizontal line or an underline. -/
def isRule (cs : List Char) : Bool :=
  decide (3 ≤ (ruleUnits false cs).1) && (ruleUnits false cs).2.isEmpty

/-- A horizontal line or the underline of a header, to the end of the text or its last break. -/
def rule : Marker where
  source := "rule"
  partCount := 1
  hit? whole cs :=
    let (n, rest) := ruleUnits false cs
    if whole && decide (3 ≤ n) && (rest == [] || rest == ['\n']) then
      some ⟨cs.length - rest.length, [some 0]⟩
    else none

/-- The characters that items and descriptions begin with. -/
def isBullet (c : Char) : Bool := ['*', '+', '-', ':', '~'].contains c

/-- The bullet of a list item or the mark of a definition, between blanks. -/
def bullet : Marker where
  source := "bullet"
  partCount := 1
  hit? _ cs :=
    let (lead, rest) := cs.span isBlank
    match rest with
    | c :: rest =>
      let gap := rest.takeWhile isBlank
      if isBullet c && !gap.isEmpty then some ⟨lead.length + 1 + gap.length, [some lead.length]⟩
      else none
    | [] => none

/-- The number of a list item, of which the point is escaped. -/
def number : Marker where
  source := "number"
  partCount := 1
  hit? _ cs :=
    let (lead, rest) := cs.span isBlank
    let (digits, rest) := rest.span Char.isDigit
    match rest with
    | '.' :: rest =>
      let gap := rest.takeWhile isBlank
      if !digits.isEmpty && !gap.isEmpty then
        some ⟨lead.length + digits.length + 1 + gap.length, [some (lead.length + digits.length)]⟩
      else none
    | _ => none

/-- A parenthesis, opening or closing. -/
def parenthesis : Marker where
  source := "parenthesis"
  partCount := 1
  hit? _
    | c :: _ => if c = '(' ∨ c = ')' then some ⟨1, [some 0]⟩ else none
    | [] => none

/-- The front of a text up to the first blank that no backslash stands before. -/
def unbroken (protectedBlank : Bool) : List Char → List Char
  | [] => []
  | c :: cs =>
    if isBlank c && !protectedBlank then [] else c :: unbroken (c == escapeChar) cs

/-- The place of the last `c`. -/
def lastIndex? (c : Char) (cs : List Char) : Option Nat :=
  match cs.reverse.findIdx? (· == c) with
  | some i => some (cs.length - 1 - i)
  | none => none

/-- The length of a script span, from its mark to the last such mark that it can reach. -/
def scriptLength? : List Char → Option Nat
  | c :: rest =>
    if c = '^' ∨ c = '~' then
      match lastIndex? c (unbroken false rest) with
      | some (n + 1) => some (n + 3)
      | _ => none
    else none
  | [] => none

/-- A superscript or a subscript, closed and not empty, at the start or after a blank. -/
def script : Marker where
  source := "script"
  partCount := 1
  hit? := afterBlank scriptLength?

/-- A given text, of which nothing is escaped. -/
def literal (s : String) : Marker where
  source := s
  partCount := 0
  hit? _ cs := if s.toList.isPrefixOf cs then some ⟨s.length, []⟩ else none

end Marker

end Markwright.Escape
