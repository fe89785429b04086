import Markwright.Value

/-!
# Reading JSON

The reader works on what is left of the text. A fault is told by how much was left where it was
found, so no position is carried along, and line and column are counted from the whole text at the
end. Besides the standard forms the three non-finite numbers are read. An integer keeps all its
digits; a number with a fraction or an exponent is rounded to the nearest floating-point number.
-/

namespace Markwright.Json

/-- What stops a reader. -/
inductive Cause where
  | valueExpected
  | nameExpected
  | colonExpected
  | commaExpected
  | unterminated
  | control
  | badEscape
  | badCodePoint
  | extraData
  | byteOrderMark
deriving DecidableEq

/-- What is told of a cause; where it is told follows. -/
def Cause.message : Cause → String
  | valueExpected => "Expecting value"
  | nameExpected => "Expecting property name enclosed in double quotes"
  | colonExpected => "Expecting ':' delimiter"
  | commaExpected => "Expecting ',' delimiter"
  | unterminated => "Unterminated string starting at"
  | control => "Invalid control character at"
  | badEscape => "Invalid \\escape"
  | badCodePoint => "Invalid \\uXXXX escape"
  | extraData => "Extra data"
  | byteOrderMark => "Unexpected UTF-8 BOM (decode using utf-8-sig)"

/-- What is wrong, and how many characters were left from there to the end. -/
structure Fault where
  cause : Cause
  left : Nat
deriving DecidableEq

/-- The reader stops with this much of the text left. -/
private def fail {α : Type} (cause : Cause) (rest : List Char) : Except Fault α :=
  .error ⟨cause, rest.length⟩

/-- Drops the blanks that JSON allows between tokens. -/
def skipBlanks (cs : List Char) : List Char :=
  cs.dropWhile fun c => c == ' ' || c == '\t' || c == '\n' || c == '\r'

/-! ## Texts -/

/-- The value of a hexadecimal digit. -/
def hexValue? (c : Char) : Option Nat :=
  if '0' ≤ c ∧ c ≤ '9' then some (c.toNat - 48)
  else if 'a' ≤ c ∧ c ≤ 'f' then some (c.toNat - 87)
  else if 'A' ≤ c ∧ c ≤ 'F' then some (c.toNat - 55)
  else none

/-- The 16-bit unit of four hexadecimal digits. -/
def unit? (a b c d : Char) : Option Nat := do
  pure (((← hexValue? a) * 16 + (← hexValue? b)) * 256 + (← hexValue? c) * 16 + (← hexValue? d))

/-- The character that a backslash and a letter stand for. -/
def escaped? : Char → Option Char
  | '"' => some '"'
  | '\\' => some '\\'
  | '/' => some '/'
  | 'b' => some '\x08'
  | 'f' => some '\x0c'
  | 'n' => some '\n'
  | 'r' => some '\r'
  | 't' => some '\t'
  | _ => none

/-- The characters of the code points and 16-bit units of a text. A high surrogate and the low one
after it are one character; a surrogate on its own is none and is replaced. -/
def joinUnits : List Nat → List Char
  | high :: low :: rest =>
    if 0xD800 ≤ high ∧ high < 0xDC00 ∧ 0xDC00 ≤ low ∧ low < 0xE000 then
      Char.ofNat (0x10000 + (high - 0xD800) * 0x400 + (low - 0xDC00)) :: joinUnits rest
    else single high :: joinUnits (low :: rest)
  | [u] => [single u]
  | [] => []
where
  single (u : Nat) : Char := if 0xD800 ≤ u ∧ u < 0xE000 then '\uFFFD' else Char.ofNat u

/-- What was read, with `u` in front. -/
def prepend (u : Nat) (r : Except Fault (List Nat × List Char)) :
    Except Fault (List Nat × List Char) :=
  r.map fun p => (u :: p.1, p.2)

/-- The rest of a text. `opening` is what was left from its opening quote on. An escape by number
must have another character after its digits. -/
def readText (opening : List Char) : List Char → Except Fault (List Nat × List Char)
  | [] => fail .unterminated opening
  | '"' :: rest => .ok ([], rest)
  | '\\' :: [] => fail .unterminated opening
  | '\\' :: 'u' :: a :: b :: c :: d :: x :: more =>
    match unit? a b c d with
    | none => fail .badCodePoint ('u' :: a :: b :: c :: d :: x :: more)
    | some u => prepend u (readText opening (x :: more))
  | '\\' :: c :: more =>
    match escaped? c with
    | some e => prepend e.toNat (readText opening more)
    | none =>
      if c = 'u' then fail .badCodePoint (c :: more) else fail .badEscape ('\\' :: c :: more)
  | c :: more =>
    if c.toNat < 0x20 then fail .control (c :: more)
    else prepend c.toNat (readText opening more)

/-! ## Numbers -/

/-- The digits of numbers, the ten of ASCII. -/
def isDigit (c : Char) : Bool := decide ('0' ≤ c) && decide (c ≤ '9')

/-- The number that some digits spell. -/
def natOf (digits : List Char) : Nat :=
  digits.foldl (fun n c => 10 * n + (c.toNat - 48)) 0

/-- The digits of the whole part: a single zero, or digits that begin with another. -/
def wholeDigits (cs : List Char) : List Char × List Char :=
  match cs with
  | '0' :: rest => (['0'], rest)
  | _ => cs.span isDigit

/-- The digits after a point, if a point and a digit follow. -/
def fractionDigits? (cs : List Char) : Option (List Char × List Char) :=
  match cs with
  | '.' :: rest =>
    match rest.span isDigit with
    | ([], _) => none
    | found => some found
  | _ => none

/-- The exponent, if its letter, perhaps a sign, and a digit follow. -/
def exponent? (cs : List Char) : Option (Int × List Char) :=
  match cs with
  | e :: rest =>
    if e = 'e' ∨ e = 'E' then
      let (negative, digits) : Bool × List Char := match rest with
        | '-' :: more => (true, more)
        | '+' :: more => (false, more)
        | more => (false, more)
      match digits.span isDigit with
      | ([], _) => none
      | (ds, after) => some (if negative then -(natOf ds : Int) else natOf ds, after)
    else none
  | [] => none

/-- The longest number at the front. -/
def readNumber? (cs : List Char) : Option (Value × List Char) :=
  let (negative, digits) : Bool × List Char := match cs with
    | '-' :: rest => (true, rest)
    | _ => (false, cs)
  match wholeDigits digits with
  | ([], _) => none
  | (whole, rest) =>
    let fraction := fractionDigits? rest
    let afterFraction := (fraction.map Prod.snd).getD rest
    let exponent := exponent? afterFraction
    if fraction.isNone && exponent.isNone then
      let n : Int := natOf whole
      some (.int (if negative then -n else n), rest)
    else
      let decimals := (fraction.map Prod.fst).getD []
      let scale := (exponent.map Prod.fst).getD 0 - decimals.length
      let x := Decimal.ofScaled (natOf (whole ++ decimals)) scale
      some (.real (if negative then -x else x), (exponent.map Prod.snd).getD afterFraction)

/-! ## Values -/

mutual

/-- The value at the front. The fuel bounds the nesting and is never used up. -/
def readValue : Nat → List Char → Except Fault (Value × List Char)
  | 0, cs => fail .valueExpected cs
  | fuel + 1, cs =>
    match cs with
    | '"' :: rest => do
      let (units, rest) ← readText cs rest
      pure (.text (String.ofList (joinUnits units)), rest)
    | '{' :: rest =>
      match skipBlanks rest with
      | '}' :: rest => pure (.record [], rest)
      | rest => do
        let (fields, rest) ← readFields fuel rest
        pure (.record (mergePairs fields), rest)
    | '[' :: rest =>
      match skipBlanks rest with
      | ']' :: rest => pure (.list [], rest)
      | rest => do
        let (items, rest) ← readItems fuel rest
        pure (.list items, rest)
    | 'n' :: 'u' :: 'l' :: 'l' :: rest => pure (.null, rest)
    | 't' :: 'r' :: 'u' :: 'e' :: rest => pure (.bool true, rest)
    | 'f' :: 'a' :: 'l' :: 's' :: 'e' :: rest => pure (.bool false, rest)
    | 'N' :: 'a' :: 'N' :: rest => pure (.real (0.0 / 0.0), rest)
    | 'I' :: 'n' :: 'f' :: 'i' :: 'n' :: 'i' :: 't' :: 'y' :: rest =>
      pure (.real (Decimal.ofScaled 1 400), rest)
    | '-' :: 'I' :: 'n' :: 'f' :: 'i' :: 'n' :: 'i' :: 't' :: 'y' :: rest =>
      pure (.real (-Decimal.ofScaled 1 400), rest)
    | _ =>
      match readNumber? cs with
      | some found => pure found
      | none => fail .valueExpected cs

/-- The items of a list up to its bracket, at least one. -/
def readItems : Nat → List Char → Except Fault (List Value × List Char)
  | 0, cs => fail .valueExpected cs
  | fuel + 1, cs => do
    let (v, rest) ← readValue fuel cs
    match skipBlanks rest with
    | ']' :: rest => pure ([v], rest)
    | ',' :: rest =>
      let (vs, rest) ← readItems fuel (skipBlanks rest)
      pure (v :: vs, rest)
    | rest => fail .commaExpected rest

/-- The fields of a record up to its brace, at least one. -/
def readFields : Nat → List Char → Except Fault (List (Scalar × Value) × List Char)
  | 0, cs => fail .valueExpected cs
  | fuel + 1, cs =>
    match cs with
    | '"' :: rest => do
      let (units, rest) ← readText cs rest
      let key := Scalar.text (String.ofList (joinUnits units))
      match skipBlanks rest with
      | ':' :: rest =>
        let (v, rest) ← readValue fuel (skipBlanks rest)
        match skipBlanks rest with
        | '}' :: rest => pure ([(key, v)], rest)
        | ',' :: rest =>
          let (fields, rest) ← readFields fuel (skipBlanks rest)
          pure ((key, v) :: fields, rest)
        | rest => fail .commaExpected rest
      | rest => fail .colonExpected rest
    | _ => fail .nameExpected cs

end

/-- The value that a whole text writes. -/
def readAll (cs : List Char) : Except Fault Value :=
  match cs with
  | '\uFEFF' :: _ => fail .byteOrderMark cs
  | _ =>
    match readValue (2 * cs.length + 2) (skipBlanks cs) with
    | .error fault => .error fault
    | .ok (v, rest) =>
      match skipBlanks rest with
      | [] => .ok v
      | rest => fail .extraData rest

/-! ## Faults in a text -/

/-- A fault with its place in the text: the characters before it, its line and its column. -/
structure ReadError where
  cause : Cause
  offset : Nat
  line : Nat
  column : Nat
deriving DecidableEq

/-- Lines and columns count from one, and a line break ends its line. -/
def Fault.locate (fault : Fault) (cs : List Char) : ReadError :=
  let before := cs.take (cs.length - fault.left)
  let onLine := before.reverse.takeWhile (· != '\n')
  ⟨fault.cause, before.length, before.count '\n' + 1, onLine.length + 1⟩

/-- A fault as it is shown, with its line, its column and its offset. -/
def ReadError.message (e : ReadError) : String :=
  s!"{e.cause.message}: line {e.line} column {e.column} (char {e.offset})"

/-- The value that a text is. A fault is located by line and column. -/
def read (text : String) : Except ReadError Value :=
  (readAll text.toList).mapError (·.locate text.toList)

end Markwright.Json
