import Markwright.Escape.Shapes
import Markwright.Text.Quoted

/-!
# Escaping a span of text

The rules run in a fixed order and each sees the backslashes that those before it put in. The
escape character itself is doubled first, so a span must be escaped once only.
-/

namespace Markwright.Escape

/-- What is known of the place that a span of text is written to. -/
structure Context where
  /-- The span is part of a paragraph, a header, an item or a cell. -/
  inLine : Bool
  inTable : Bool
  /-- The span starts a line. -/
  onNewLine : Bool
  /-- The span is part of a superscript or a subscript. -/
  escapeSpaces : Bool
deriving DecidableEq

/-- Puts the escape character before each character that satisfies `p`. -/
def escapeEach (p : Char → Bool) (cs : List Char) : List Char :=
  cs.flatMap fun c => if p c then [escapeChar, c] else [c]

/-- Escapes the text when it starts with `start`. -/
def escapeWhenStarts (start cs : List Char) : List Char :=
  if start.isPrefixOf cs then escapeChar :: cs else cs

/-- The place of the first occurrence of `part`. -/
def indexOf? (part : List Char) : List Char → Option Nat
  | [] => if part.isEmpty then some 0 else none
  | c :: cs => if part.isPrefixOf (c :: cs) then some 0 else (indexOf? part cs).map (· + 1)

/-- Escapes the last character of the first occurrence of `scheme`, which a colon ends. An empty
one is taken to end at the last character. -/
def escapeScheme (scheme cs : List Char) : List Char :=
  match indexOf? scheme cs with
  | some i =>
    if scheme.isEmpty then escapeLast cs else insertEscapes [i + scheme.length - 1] 0 cs
  | none => cs

/-- The schemes that a bare word of text must not be taken for. -/
def escapedSchemes : List String := ["image:", "attach:", "mailto:"]

/-- The marks of a block, of which a line holds at most one at its start. -/
def escapeLineStart (cs : List Char) : List Char :=
  escapeWhenStarts ['>'] <| escapeWhenStarts ['#'] <|
    Marker.rule.escapeFront <| Marker.number.escapeFront <| Marker.bullet.escapeFront cs

/-- Escapes only where the rule applies. -/
def guarded (b : Bool) (f : List Char → List Char) (cs : List Char) : List Char :=
  if b then f cs else cs

/-- A span of text with all its markers escaped. Dashes that make up a horizontal line are left to
the rule for lines. -/
def escapeSpan (ctx : Context) (cs : List Char) : List Char :=
  let cs := escapeEach (· == escapeChar) cs
  let cs := guarded ctx.escapeSpaces (escapeEach fun c => c == ' ' || c == '\t') cs
  let cs := guarded (ctx.inLine && !Marker.isRule cs) (Marker.dashes.escapeAll true) cs
  let cs := Marker.label.escapeAll true cs
  let cs := guarded (ctx.inLine && ctx.onNewLine) escapeLineStart cs
  let cs := guarded ctx.inTable (escapeEach (· == '|')) cs
  let cs := Marker.emphasis.escapeAll true cs
  let cs := Marker.script.escapeAll true cs
  let cs := Marker.codeSpan.escapeAll true cs
  escapedSchemes.foldl (fun cs scheme => escapeScheme scheme.toList cs) cs

/-- An empty text stays empty. -/
def markdown (ctx : Context) (s : String) : String :=
  if s.isEmpty then s else String.ofList (escapeSpan ctx s.toList)

/-- A label made safe between square brackets. -/
def label (s : String) : String :=
  String.ofList (Marker.bracket.escapeAll true s.toList)

/-- A reference made safe between parentheses. -/
def reference (s : String) : String :=
  String.ofList (Marker.parenthesis.escapeAll true s.toList)

/-- The text of a fault. A rule without a part is shown by its source. -/
def Fault.message : Fault → String
  | .noPart => "no such group"
  | .rule source => "Pattern must contain at least one capturing group: " ++ Text.quoted source

end Markwright.Escape
