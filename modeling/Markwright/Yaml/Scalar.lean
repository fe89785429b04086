import Markwright.Value

/-!
# Plain scalars

A scalar without quotes is taken for nothing, a truth value or a number when it is written like one,
and for a text otherwise. Some texts are taken for values that documents do not have: dates, and two
marks that records may hold. A text of any of these forms needs quotes to be read back as a text.
-/

namespace Markwright.Yaml

/-! ## Names -/

/-- The spellings of a name: in small letters, with a capital, and in capitals. -/
def spellings (name : String) : List String := [name, name.capitalize, name.toUpper]

/-- What is read as null. -/
def nullNames : List String := "" :: "~" :: spellings "null"

/-- What is read as true. -/
def trueNames : List String := ["yes", "true", "on"].flatMap spellings

/-- What is read as false. -/
def falseNames : List String := ["no", "false", "off"].flatMap spellings

/-! ## Digits -/

/-- The ten digits of ASCII. -/
def isDigit (c : Char) : Bool := decide ('0' ≤ c) && decide (c ≤ '9')

/-- Digits may be set apart by underscores. -/
def isSpacedDigit (c : Char) : Bool := isDigit c || c == '_'

/-- The value of a hexadecimal digit, whatever it is of other characters. -/
def hexValue (c : Char) : Nat :=
  if isDigit c then c.toNat - 48 else if 'a' ≤ c then c.toNat - 87 else c.toNat - 55

/-- The hexadecimal digits, in any case. -/
def isHexDigit (c : Char) : Bool :=
  isDigit c || (decide ('a' ≤ c) && decide (c ≤ 'f')) || (decide ('A' ≤ c) && decide (c ≤ 'F'))

/-- The number that digits of a base write, underscores aside. -/
def natIn (base : Nat) (cs : List Char) : Nat :=
  (cs.filter (· != '_')).foldl (fun n c => base * n + hexValue c) 0

/-- Whether a number is negative, and what follows its sign. -/
def splitSign : List Char → Bool × List Char
  | '-' :: rest => (true, rest)
  | '+' :: rest => (false, rest)
  | cs => (false, cs)

/-! ## Numbers to the base sixty -/

/-- The numbers below sixty after the first one, each with a colon before it. -/
def sixtieths? : List Char → Option (List Nat)
  | [] => some []
  | ':' :: a :: rest =>
    if !isDigit a then none
    else
      match rest with
      | b :: more =>
        if isDigit b && decide (a ≤ '5') then (sixtieths? more).map (natIn 10 [a, b] :: ·)
        else (sixtieths? (b :: more)).map (hexValue a :: ·)
      | [] => some [hexValue a]
  | _ => none

/-! ## Integers -/

/-- A nonempty list of characters that all satisfy `p`. -/
def allOf (p : Char → Bool) (cs : List Char) : Bool := !cs.isEmpty && cs.all p

/-- An integer without its sign, in base two, sixteen, eight, ten or sixty. -/
def readNat? (cs : List Char) : Option Nat :=
  match cs with
  | ['0'] => some 0
  | '0' :: 'b' :: digits =>
    if allOf (fun c => c == '0' || c == '1' || c == '_') digits then some (natIn 2 digits) else none
  | '0' :: 'x' :: digits =>
    if allOf (fun c => isHexDigit c || c == '_') digits then some (natIn 16 digits) else none
  | '0' :: digits =>
    if allOf (fun c => (isDigit c && decide (c ≤ '7')) || c == '_') digits then
      some (natIn 8 digits)
    else none
  | c :: _ =>
    if isDigit c then
      let (first, rest) := cs.span isSpacedDigit
      (sixtieths? rest).map fun parts => parts.foldl (fun n d => 60 * n + d) (natIn 10 first)
    else none
  | [] => none

/-- The integer that a text spells in one of the notations of YAML. -/
def readInt? (cs : List Char) : Option Int :=
  let (negative, rest) := splitSign cs
  (readNat? rest).map fun n => if negative then -(n : Int) else n

/-! ## Numbers with a point -/

/-- An exponent always has a sign. -/
def readExponent? : List Char → Option Int
  | [] => some 0
  | e :: sign :: digits =>
    if (e == 'e' || e == 'E') && allOf isDigit digits then
      if sign == '-' then some (-(natIn 10 digits : Int))
      else if sign == '+' then some (natIn 10 digits)
      else none
    else none
  | _ => none

/-- A number with the given digits before the point and the rest after it. -/
def readDecimals? (whole rest : List Char) : Option Float :=
  let (decimals, tail) := rest.span isSpacedDigit
  (readExponent? tail).map fun e =>
    let places := (decimals.filter (· != '_')).length
    Decimal.ofScaled (natIn 10 (whole ++ decimals)) (e - places)

/-- A number to the base sixty whose last part goes on after the point. -/
def readSixtieths? (first : List Char) (rest : List Char) : Option Float :=
  let (parts, tail) := rest.span (· != '.')
  match tail with
  | '.' :: decimals =>
    if parts.isEmpty || !decimals.all isSpacedDigit then none
    else (sixtieths? parts).bind fun numbers =>
      let digits := decimals.filter (· != '_')
      match numbers.reverse with
      | last :: before =>
        let seconds :=
          Decimal.ofScaled (last * Decimal.power 10 digits.length + natIn 10 digits)
            (-(digits.length : Int))
        let upper := (natIn 10 first :: before.reverse).foldl (fun n d => 60 * n + d) 0
        some (seconds + Float.ofNat upper * 60.0)
      | [] => none
  | _ => none

/-- A number without its sign. -/
def readMagnitude? (cs : List Char) : Option Float :=
  if [".inf", ".Inf", ".INF"].contains (String.ofList cs) then some (Decimal.ofScaled 1 400)
  else
    match cs with
    | c :: _ =>
      if isDigit c then
        match cs.span isSpacedDigit with
        | (whole, '.' :: rest) => readDecimals? whole rest
        | (first, rest) => readSixtieths? first rest
      else none
    | [] => none

/-- A number that begins with its point has no sign. -/
def readReal? (cs : List Char) : Option Float :=
  if [".nan", ".NaN", ".NAN"].contains (String.ofList cs) then some (0.0 / 0.0)
  else
    match cs with
    | '.' :: d :: rest =>
      if isDigit d then readDecimals? [] (d :: rest) else readMagnitude? cs
    | _ =>
      let (negative, rest) := splitSign cs
      (readMagnitude? rest).map fun x => if negative then -x else x

/-! ## Dates -/

/-- What follows `least` digits, and as many more up to `most` as there are. -/
def skipDigits? (least most : Nat) (cs : List Char) : Option (List Char) :=
  let count := ((cs.take most).takeWhile isDigit).length
  if least ≤ count then some (cs.drop count) else none

/-- What follows a character, if it comes first. -/
def skipChar? (c : Char) : List Char → Option (List Char)
  | d :: rest => if c = d then some rest else none
  | [] => none

/-- What may stand before a time or a time zone. -/
private def isGap (c : Char) : Bool := c == ' ' || c == '\t'

/-- A time zone, or nothing. -/
def isZone (cs : List Char) : Bool :=
  match cs.dropWhile isGap with
  | [] => cs.isEmpty
  | ['Z'] => true
  | sign :: rest =>
    (sign == '-' || sign == '+') &&
      match skipDigits? 1 2 rest with
      | some [] => true
      | some (':' :: minutes) => skipDigits? 2 2 minutes == some []
      | _ => false

/-- The time of a day, after its date. -/
def isTime (cs : List Char) : Bool :=
  let clock? : Option (List Char) := do
    let rest ← match cs with
      | 'T' :: rest | 't' :: rest => some rest
      | c :: rest => if isGap c then some (rest.dropWhile isGap) else none
      | [] => none
    let rest ← skipDigits? 1 2 rest
    let rest ← skipDigits? 2 2 (← skipChar? ':' rest)
    skipDigits? 2 2 (← skipChar? ':' rest)
  match clock? with
  | some ('.' :: fraction) => isZone (fraction.dropWhile isDigit)
  | some rest => isZone rest
  | none => false

/-- A date, with the time of the day or without. Without it, month and day have two digits. -/
def isDate (cs : List Char) : Bool :=
  let digitsThen (least : Nat) (rest : List Char) : Option (List Char) := do
    let rest ← skipDigits? least 2 (← skipChar? '-' rest)
    pure rest
  match skipDigits? 4 4 cs with
  | some rest =>
    (((digitsThen 2 rest).bind (digitsThen 2)) == some []) ||
      match (digitsThen 1 rest).bind (digitsThen 1) with
      | some time => isTime time
      | none => false
  | none => false

/-! ## Resolving -/

/-- The value that a plain scalar is taken for, unless it is a text. -/
def resolve? (cs : List Char) : Option Scalar :=
  let s := String.ofList cs
  if nullNames.contains s then some .null
  else if trueNames.contains s then some (.bool true)
  else if falseNames.contains s then some (.bool false)
  else
    match readInt? cs with
    | some n => some (.int n)
    | none => (readReal? cs).map .real

/-- What a plain scalar is taken for. A date is kept as it is written. -/
def plainScalar (cs : List Char) : Scalar :=
  (resolve? cs).getD (.text (String.ofList cs))

/-- A plain scalar that is taken for a text. -/
def readsAsText (cs : List Char) : Bool :=
  (resolve? cs).isNone && !isDate cs && cs != ['='] && cs != ['<', '<']

end Markwright.Yaml
