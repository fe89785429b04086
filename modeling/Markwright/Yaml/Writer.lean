import Markwright.Yaml.Character
import Markwright.Yaml.Scalar

/-!
# Writing YAML

Records and lists are written as blocks, a line for each entry, and list items stand as far left as
the key above them. Empty ones are written as brackets. A text goes without quotes if it is read
back without them, else between single quotes, and between double quotes where only escapes can
tell its characters. Long texts are folded at a single space once a line is eighty wide.
-/

namespace Markwright.Yaml

/-- Text is folded only past this column. -/
def foldColumn : Nat := 80

/-! ## The form of a text -/

/-- How a text is written: as it is, or in quotes of one of the two kinds. -/
inductive Form where
  | plain
  | single
  | double
deriving DecidableEq

/-- Past its first character, a plain scalar cannot hold a colon before a gap or a number sign
after one. -/
def hasInnerIndicator (before : Char) : List Char → Bool
  | [] => false
  | c :: rest =>
    (c == ':' && isGapOrEnd rest.head?) || (c == '#' && isGapOrEnd (some before)) ||
      hasInnerIndicator c rest

/-- The text would be read as something else than one plain scalar. -/
def hasIndicator : List Char → Bool
  | [] => false
  | c :: rest =>
    (c :: rest).take 3 == ['-', '-', '-'] || (c :: rest).take 3 == ['.', '.', '.'] ||
      leadingIndicators.contains c ||
      ((c == '?' || c == ':' || c == '-') && isGapOrEnd rest.head?) ||
      hasInnerIndicator c rest

/-- Somewhere a space and a line break stand side by side. -/
def hasBreakBesideSpace : List Char → Bool
  | c :: d :: rest =>
    (isBreak c && d == ' ') || (c == ' ' && isBreak d) || hasBreakBesideSpace (d :: rest)
  | _ => false

/-- The plainest form in which a text is read back as itself. -/
def formOf (cs : List Char) : Form :=
  let writable := cs.all isWritable
  if readsAsText cs && writable && !cs.any isBreak && !hasIndicator cs &&
      cs.head? != some ' ' && cs.getLast? != some ' ' then .plain
  else if writable && !hasBreakBesideSpace cs then .single
  else .double

/-! ## Folding -/

/-- A run of spaces. -/
private def spaces (n : Nat) : List Char := List.replicate n ' '

/-- A new line with its indentation. -/
private def newLine (indent : Nat) : List Char := '\n' :: spaces indent

/-- A text from `column` on, `before` it the character given. A single space between two words is
where it may go on in the next line. -/
def foldPlain (indent column : Nat) (before : Option Char) : List Char → List Char
  | [] => []
  | c :: rest =>
    if c == ' ' && before.isSome && before != some ' ' && rest.head?.isSome &&
        rest.head? != some ' ' && decide (foldColumn < column) then
      newLine indent ++ foldPlain indent indent (some c) rest
    else c :: foldPlain indent (column + 1) (some c) rest

/-- A text between single quotes. A quote is written twice, and a line break with an empty line. -/
def foldSingle (indent column : Nat) (before : Option Char) : List Char → List Char
  | [] => []
  | c :: rest =>
    if isBreak c then
      (if c == '\n' && !before.any isBreak then ['\n'] else []) ++ c ::
        (if rest.head?.any isBreak then [] else spaces indent) ++
        foldSingle indent indent (some c) rest
    else if c == '\x27' then '\x27' :: '\x27' :: foldSingle indent (column + 2) (some c) rest
    else if c == ' ' && before.isSome && before != some ' ' && rest.head?.isSome &&
        rest.head? != some ' ' && decide (foldColumn < column) then
      newLine indent ++ foldSingle indent indent (some c) rest
    else c :: foldSingle indent (column + 1) (some c) rest

/-- A character that stands for itself between double quotes. -/
def isBare (c : Char) : Bool :=
  isWritable c && !isBreak c && c != '"' && c != '\\' && decide (c.toNat < 0x10000)

/-- The hexadecimal digits of a number, so many at least, in capitals. -/
private def hexCapitals (width n : Nat) : List Char := (Text.hexDigits width n).map Char.toUpper

/-- A character as an escape, by its letter or by its number. -/
def escape (c : Char) : List Char :=
  match shortEscapes.lookup c with
  | some letter => ['\\', letter]
  | none =>
    if c.toNat < 0x100 then '\\' :: 'x' :: hexCapitals 2 c.toNat
    else if c.toNat < 0x10000 then '\\' :: 'u' :: hexCapitals 4 c.toNat
    else '\\' :: 'U' :: hexCapitals 8 c.toNat

/-- A text between double quotes. It may go on in the next line before a space and next to an
escape, which a backslash at the end of the line tells. A space at the start of a line has one as
well. -/
def foldDouble (indent column : Nat) (first afterEscape : Bool) : List Char → List Char
  | [] => []
  | c :: rest =>
    let inner := !first && !rest.isEmpty
    if isBare c then
      if inner && (c == ' ' || afterEscape) && decide (foldColumn < column) then
        if c == ' ' then
          '\\' :: newLine indent ++ '\\' :: c :: foldDouble indent (indent + 2) false false rest
        else '\\' :: newLine indent ++ c :: foldDouble indent (indent + 1) false false rest
      else c :: foldDouble indent (column + 1) false false rest
    else
      let written := escape c
      let column := column + written.length
      if inner && decide (foldColumn < column - 1) then
        let folded := written ++ '\\' :: newLine indent
        if rest.head? == some ' ' then
          folded ++ '\\' :: foldDouble indent (indent + 1) false true rest
        else folded ++ foldDouble indent indent false true rest
      else written ++ foldDouble indent column false true rest

/-! ## Blocks -/

/-- A text from `column` on, the lines after the first one indented. -/
def writeText (indent column : Nat) (s : String) : List Char :=
  let cs := s.toList
  match formOf cs with
  | .plain => foldPlain indent column none cs
  | .single => '\x27' :: foldSingle indent (column + 1) none cs ++ ['\x27']
  | .double => '"' :: foldDouble indent (column + 1) true false cs ++ ['"']

/-- A float, the three that are no finite numbers by name. -/
def writeNumber (x : Float) : String :=
  match Decimal.exact x with
  | .nan => ".nan"
  | .infinite negative => if negative then "-.inf" else ".inf"
  | .finite .. =>
    let cs := (Decimal.text x).toList
    -- An exponent is read only after a point.
    if cs.contains '.' then String.ofList cs
    else String.ofList (cs.flatMap fun c => if c == 'e' then ".0e".toList else [c])

/-- A scalar from `column` on. -/
def writeScalar (indent column : Nat) : Scalar → List Char
  | .null => "null".toList
  | .bool b => (if b then "true" else "false").toList
  | .int n => (toString n).toList
  | .real x => (writeNumber x).toList
  | .text s => writeText indent column s

/-- A scalar on one line. -/
def writeKey : Scalar → List Char
  | .text s =>
    let cs := s.toList
    match formOf cs with
    | .plain => cs
    | .single => '\x27' :: cs.flatMap (fun c => if c == '\x27' then [c, c] else [c]) ++ ['\x27']
    | .double => '"' :: cs.flatMap (fun c => if isBare c then [c] else escape c) ++ ['"']
  | k => writeScalar 0 0 k

/-- A key that fits before its colon. Other keys have a line of their own. -/
def isSimpleKey (k : Scalar) : Bool :=
  let cs := match k with
    | .text s => s.toList
    | k => writeKey k
  !cs.isEmpty && !cs.any isBreak && decide (cs.length < 123)

/-- The place of a value: behind a key or behind a mark, which stands at `indent` and ends at
`column`. -/
inductive Place where
  | key (indent column : Nat)
  | mark (indent column : Nat)

namespace Place

/-- The indentation of the line that a value stands in. -/
def indent : Place → Nat
  | key indent _ | mark indent _ => indent

/-- The column that a value begins behind. -/
def column : Place → Nat
  | key _ column | mark _ column => column

/-- Where the keys of a record stand. -/
def recordIndent (p : Place) : Nat := p.indent + 2

/-- Where the dashes of a list stand: no further than the key above them. -/
def listIndent : Place → Nat
  | key indent _ => indent
  | mark indent _ => indent + 2

/-- What stands before a block at `inner`, which begins on the line of a mark but not on that of a
key. -/
def lead (inner : Nat) : Place → List Char
  | key .. => newLine inner
  | mark .. => [' ']

end Place

/-- A key with its colon, or in a line of its own between a question mark and the colon's line. -/
def writeFieldKey (indent : Nat) (k : Scalar) : List Char :=
  if isSimpleKey k then writeKey k ++ [':']
  else '?' :: ' ' :: writeScalar (indent + 2) (indent + 2) k ++ newLine indent ++ [':']

/-- The place of the value of a key at `indent`. -/
def fieldPlace (indent : Nat) (k : Scalar) : Place :=
  if isSimpleKey k then .key indent (indent + (writeKey k).length + 1)
  else .mark indent (indent + 1)

mutual

/-- A value behind its key or its dash, on the same line or on lines of its own. -/
def writeValue (p : Place) : Value → List Char
  | .scalar s => ' ' :: writeScalar (p.indent + 2) (p.column + 1) s
  | .list items =>
    if items.isEmpty then " []".toList
    else p.lead p.listIndent ++ writeItems p.listIndent items
  | .record fields =>
    if fields.isEmpty then " \x7b\x7d".toList
    else p.lead p.recordIndent ++ writeFields p.recordIndent fields

/-- The items of a list whose dashes stand at `indent`, where the first of them begins. -/
def writeItems (indent : Nat) : List Value → List Char
  | [] => []
  | v :: rest =>
    '-' :: writeValue (.mark indent (indent + 1)) v ++
      (if rest.isEmpty then [] else newLine indent) ++ writeItems indent rest

/-- The entries of a record whose keys stand at `indent`, where the first of them begins. -/
def writeFields (indent : Nat) : List (Scalar × Value) → List Char
  | [] => []
  | (k, v) :: rest =>
    writeFieldKey indent k ++ writeValue (fieldPlace indent k) v ++
      (if rest.isEmpty then [] else newLine indent) ++ writeFields indent rest

end

/-- The text of a value. A block begins at the left, and all else stands on the first line. -/
def write (v : Value) : String :=
  let cs := match v with
    | .record (f :: fields) => writeFields 0 (f :: fields)
    | .list (item :: items) => writeItems 0 (item :: items)
    | v => (writeValue (.mark 0 0) v).drop 1
  String.ofList (cs ++ ['\n'])

end Markwright.Yaml
