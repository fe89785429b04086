import Markwright.Text.Blank

/-!
# Tokens of plain text

A text is a row of words, spaces, symbols and line breaks. Every character belongs to one token, a
carriage return and the line feed after it are one break, and words are as long as can be.
-/

namespace Markwright.Text

/-- The pieces that text is told in. -/
inductive Token where
  | lineBreak (chars : List Char)
  | space
  | symbol (c : Char)
  | word (chars : List Char)
deriving DecidableEq

/-- The visible characters of ASCII that are neither letters nor digits. -/
def isSymbol (c : Char) : Bool :=
  inRanges [(0x21, 0x2F), (0x3A, 0x40), (0x5B, 0x60), (0x7B, 0x7E)] c

namespace Token

/-- The characters of a token. -/
def chars : Token → List Char
  | lineBreak cs => cs
  | space => [' ']
  | symbol c => [c]
  | word cs => cs

/-- Puts a character of a word in front. -/
def consWord (c : Char) : List Token → List Token
  | word cs :: rest => word (c :: cs) :: rest
  | ts => word [c] :: ts

/-- Cuts a text into tokens. A carriage return and a line feed behind it are one line break. -/
def ofChars : List Char → List Token
  | [] => []
  | '\r' :: '\n' :: cs => lineBreak ['\r', '\n'] :: ofChars cs
  | c :: cs =>
    if c = '\r' ∨ c = '\n' then lineBreak [c] :: ofChars cs
    else if c = ' ' then space :: ofChars cs
    else if isSymbol c then symbol c :: ofChars cs
    else consWord c (ofChars cs)

end Token

/-- The tokens of a text, in order. -/
def tokens (s : String) : List Token := Token.ofChars s.toList

end Markwright.Text
