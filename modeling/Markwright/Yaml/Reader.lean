import Markwright.Yaml.Line
import Markwright.Yaml.Scalar

/-!
# Reading YAML

A document is a block of lines: a record with a key on each line, a list with a dash before each
item, or one line. What stands on one line is a scalar, with or without quotes, or a list or a
record between brackets. The value of a key may be in the lines below it, further in, or, if it is a
list, as far in as the key. What is not of this form is no document.
-/

namespace Markwright.Yaml

/-! ## Scalars -/

/-- The characters that mean something between brackets. -/
def isFlowMark (c : Char) : Bool := c == ',' || c == '[' || c == ']' || c == '\x7b' || c == '\x7d'

/-- A character that ends a plain scalar when `rest` follows. -/
def endsPlain (inBrackets : Bool) (c : Char) (rest : List Char) : Bool :=
  c == '\t' || (c == ' ' && rest.head? == some '#') ||
    (c == ':' && (isGapOrEnd rest.head? || (inBrackets && rest.head?.any isFlowMark))) ||
    (inBrackets && (isFlowMark c || c == '?'))

/-- A plain scalar can begin here. -/
def startsPlain (inBrackets : Bool) : List Char → Bool
  | [] => false
  | c :: rest =>
    let follows := !isGapOrEnd rest.head?
    if c == '-' then follows
    else if c == '?' || c == ':' then follows && !inBrackets
    else c != '\t' && !leadingIndicators.contains c

/-- What comes before the end of a plain scalar, and the rest. -/
def spanPlain (inBrackets : Bool) : List Char → List Char × List Char
  | [] => ([], [])
  | c :: rest =>
    if endsPlain inBrackets c rest then ([], c :: rest)
    else
      let (before, after) := spanPlain inBrackets rest
      (c :: before, after)

/-- A plain scalar without the spaces behind it. -/
def readPlain? (inBrackets : Bool) (cs : List Char) : Option (Scalar × List Char) :=
  if startsPlain inBrackets cs then
    let (found, rest) := spanPlain inBrackets cs
    some (plainScalar (found.reverse.dropWhile isSpace).reverse, rest)
  else none

/-- What is left of a text between single quotes. -/
def readSingle? : List Char → Option (List Char × List Char)
  | '\x27' :: '\x27' :: rest => (readSingle? rest).map fun (s, after) => ('\x27' :: s, after)
  | '\x27' :: rest => some ([], rest)
  | c :: rest => (readSingle? rest).map fun (s, after) => (c :: s, after)
  | [] => none

/-- The character that a backslash and a letter stand for. -/
def unescape? (c : Char) : Option Char :=
  if c == '/' || c == ' ' then some c
  else if c == '\t' then some '\t'
  else (shortEscapes.find? (·.2 == c)).map Prod.fst

/-- The number of digits of an escape by number. -/
def escapeWidth? : Char → Option Nat
  | 'x' => some 2
  | 'u' => some 4
  | 'U' => some 8
  | _ => none

/-- What is left of a text between double quotes. The fuel bounds its length. -/
def readDouble? : Nat → List Char → Option (List Char × List Char)
  | 0, _ => none
  | fuel + 1, cs =>
    match cs with
    | '"' :: rest => some ([], rest)
    | '\\' :: c :: rest =>
      match escapeWidth? c with
      | some width =>
        let digits := rest.take width
        if digits.length == width && digits.all isHexDigit then
          (readDouble? fuel (rest.drop width)).map fun (s, after) =>
            (Char.ofNat (natIn 16 digits) :: s, after)
        else none
      | none => do
        let e ← unescape? c
        let (s, after) ← readDouble? fuel rest
        pure (e :: s, after)
    | c :: rest => (readDouble? fuel rest).map fun (s, after) => (c :: s, after)
    | [] => none

/-- The scalar at the front, without the spaces before what follows it. -/
def readScalar? (inBrackets : Bool) (cs : List Char) : Option (Scalar × List Char) :=
  let found : Option (Scalar × List Char) := match cs with
    | '\x27' :: rest => (readSingle? rest).map fun (s, after) => (.text (String.ofList s), after)
    | '"' :: rest =>
      (readDouble? (rest.length + 1) rest).map fun (s, after) => (.text (String.ofList s), after)
    | _ => readPlain? inBrackets cs
  found.map fun (s, after) => (s, after.dropWhile isSpace)

/-- The key that a scalar is. Lists and records are none. -/
def keyOf? : Value → Option Scalar
  | .scalar s => some s
  | _ => none

/-- How far from the start of a key its colon is looked for. -/
def keyReach : Nat := 1024

/-- The colon that `rest` begins with belongs to a key that begins with `cs`. -/
def isInReach (cs rest : List Char) : Bool :=
  decide (cs.length - rest.length ≤ keyReach)

/-! ## Lists and records between brackets -/

mutual

/-- The value at the front, inside brackets. The fuel bounds the nesting and the length. -/
def readFlow? : Nat → List Char → Option (Value × List Char)
  | 0, _ => none
  | fuel + 1, cs =>
    match cs with
    | '[' :: rest => do
      let (items, rest) ← readFlowItems? fuel (rest.dropWhile isSpace)
      pure (.list items, rest.dropWhile isSpace)
    | '\x7b' :: rest => do
      let (fields, rest) ← readFlowFields? fuel (rest.dropWhile isSpace)
      pure (.record (mergePairs fields), rest.dropWhile isSpace)
    | _ => (readScalar? true cs).map fun (s, rest) => (.scalar s, rest)

/-- The value behind a colon, nothing if what holds it goes on. -/
def readFlowValue? : Nat → List Char → Option (Value × List Char)
  | 0, _ => none
  | fuel + 1, cs =>
    match cs with
    | ',' :: _ | ']' :: _ | '\x7d' :: _ => some (.null, cs)
    | _ => readFlow? fuel cs

/-- The items up to the closing bracket. An item with a colon is a record of one field. -/
def readFlowItems? : Nat → List Char → Option (List Value × List Char)
  | 0, _ => none
  | fuel + 1, cs =>
    match cs with
    | ']' :: rest => some ([], rest)
    | _ => do
      let (v, rest) ← readFlow? fuel cs
      let (v, rest) ← match rest with
        | ':' :: after => do
          let key ← if isInReach cs rest then keyOf? v else none
          let (v, rest) ← readFlowValue? fuel (after.dropWhile isSpace)
          pure (.record [(key, v)], rest)
        | _ => some (v, rest)
      match rest with
      | ']' :: rest => some ([v], rest)
      | ',' :: rest =>
        let (vs, rest) ← readFlowItems? fuel (rest.dropWhile isSpace)
        pure (v :: vs, rest)
      | _ => none

/-- The fields up to the closing brace. A key without a colon has nothing for its value. -/
def readFlowFields? : Nat → List Char → Option (List (Scalar × Value) × List Char)
  | 0, _ => none
  | fuel + 1, cs =>
    match cs with
    | '\x7d' :: rest => some ([], rest)
    | _ => do
      let (k, rest) ← readFlow? fuel cs
      let key ← keyOf? k
      let (v, rest) ← match rest with
        | ':' :: after =>
          if isInReach cs rest then readFlowValue? fuel (after.dropWhile isSpace) else none
        | _ => some (.null, rest)
      match rest with
      | '\x7d' :: rest => some ([(key, v)], rest)
      | ',' :: rest =>
        let (fields, rest) ← readFlowFields? fuel (rest.dropWhile isSpace)
        pure ((key, v) :: fields, rest)
      | _ => none

end

/-- The value that the rest of a line holds. -/
def readInLine? (cs : List Char) : Option Value :=
  let found := match cs with
    | '[' :: _ | '\x7b' :: _ => readFlow? (4 * cs.length + 4) cs
    | _ => (readScalar? false cs).map fun (s, rest) => (.scalar s, rest)
  match found with
  | some (v, rest) => if isIgnored rest then some v else none
  | none => none

/-! ## Blocks -/

/-- What follows a dash and the spaces behind it, and the number of these. -/
def afterDash? : List Char → Option (Nat × List Char)
  | '-' :: rest =>
    if isGapOrEnd rest.head? then some ((rest.takeWhile isSpace).length, rest.dropWhile isSpace)
    else none
  | _ => none

/-- The key that a line begins with, and what follows its colon. -/
def readKey? (cs : List Char) : Option (Scalar × List Char) :=
  match readScalar? false cs with
  | some (k, ':' :: rest) =>
    if isGapOrEnd rest.head? && isInReach cs (':' :: rest) then some (k, rest.dropWhile isSpace)
    else none
  | _ => none

mutual

/-- The block that the first line begins. The fuel bounds the number of lines and the nesting. -/
def readBlock? : Nat → List Line → Option (Value × List Line)
  | 0, _ => none
  | _ + 1, [] => some (.null, [])
  | fuel + 1, line :: rest =>
    if (afterDash? line.text).isSome then do
      let (items, rest) ← readItems? fuel line.indent (line :: rest)
      pure (.list items, rest)
    else if (readKey? line.text).isSome then do
      let (fields, rest) ← readFields? fuel line.indent (line :: rest)
      pure (.record (mergePairs fields), rest)
    else do
      let v ← readInLine? line.text
      pure (v, rest)

/-- The block in the next lines if they are indented by at least `least`, else nothing. -/
def readBelow? : Nat → Nat → List Line → Option (Value × List Line)
  | 0, _, _ => none
  | fuel + 1, least, lines =>
    match lines with
    | line :: _ => if least ≤ line.indent then readBlock? fuel lines else some (.null, lines)
    | [] => some (.null, [])

/-- The items whose dashes stand at `indent`. What follows a dash is a block of its own. -/
def readItems? : Nat → Nat → List Line → Option (List Value × List Line)
  | 0, _, _ => none
  | _ + 1, _, [] => some ([], [])
  | fuel + 1, indent, line :: rest =>
    if line.indent != indent then some ([], line :: rest)
    else
      match afterDash? line.text with
      | none => some ([], line :: rest)
      | some (gap, text) => do
        let (v, rest) ←
          if isIgnored text then readBelow? fuel (indent + 1) rest
          else readBlock? fuel (⟨indent + 1 + gap, text⟩ :: rest)
        let (vs, rest) ← readItems? fuel indent rest
        pure (v :: vs, rest)

/-- The fields whose keys stand at `indent`. -/
def readFields? : Nat → Nat → List Line → Option (List (Scalar × Value) × List Line)
  | 0, _, _ => none
  | _ + 1, _, [] => some ([], [])
  | fuel + 1, indent, line :: rest =>
    if line.indent != indent then some ([], line :: rest)
    else
      match readKey? line.text with
      | none => some ([], line :: rest)
      | some (key, text) => do
        let (v, rest) ←
          if isIgnored text then
            if rest.head?.any fun next =>
                next.indent == indent && (afterDash? next.text).isSome then do
              let (items, rest) ← readItems? fuel indent rest
              pure (.list items, rest)
            else readBelow? fuel (indent + 1) rest
          else do
            let v ← readInLine? text
            pure (v, rest)
        let (fields, rest) ← readFields? fuel indent rest
        pure ((key, v) :: fields, rest)

end

/-- The value that a text writes, unless it is no document. -/
def read? (text : String) : Option Value :=
  match documentLines? text.toList with
  | none => none
  | some lines =>
    match readBlock? (4 * text.length + 4) lines with
    | some (v, []) => some v
    | _ => none

end Markwright.Yaml
