import Markwright.CommandLine.Flag
import Markwright.Text.Digit

/-!
# The words of a command line

A word that begins with a dash is a flag, perhaps with its value attached: behind an equals sign,
or, for a flag of one letter, right behind the letter. A long flag may be cut short as long as one
spelling alone begins that way. Negative numbers and words with a space are no flags, nor is
anything behind a word of two dashes.
-/

namespace Markwright.CommandLine

/-- What a word of the command line is by its looks. -/
inductive Word where
  | operand (text : String)
  | flag (flag : Flag) (attached : Option String)
  /-- A flag of one letter with more behind the letter, an equals sign between them not counting. -/
  | short (flag : Flag) (behind : String)
  /-- A word that begins with a dash and is no flag. -/
  | unknown (text : String)
  /-- Two dashes. Nothing behind them is a flag. -/
  | separator
deriving DecidableEq

/-- A cut flag that could be any of some spellings. -/
structure Ambiguity where
  given : String
  candidates : List String
deriving DecidableEq

/-- What stands before the first equals sign, and behind it if there is one. -/
def splitAttached (cs : List Char) : List Char × Option (List Char) :=
  match cs.span (· != '=') with
  | (before, '=' :: after) => (before, some after)
  | (before, _) => (before, none)

/-- Decimal digits with a dash before them, and perhaps a point among them. -/
def isNegativeNumber (cs : List Char) : Bool :=
  let isDigit (c : Char) : Bool := (Text.digitValue? c).isSome
  -- A line break may stand at the end.
  let cs := if cs.getLast? = some '\n' then cs.dropLast else cs
  match cs with
  | '-' :: rest =>
    match rest.span isDigit with
    | (whole, []) => !whole.isEmpty
    | (_, '.' :: decimals) => !decimals.isEmpty && decimals.all isDigit
    | _ => false
  | _ => false

/-- The spellings that a cut flag could be. -/
def candidates (cut : List Char) : List (String × Flag) :=
  Flag.spelled.filter fun p => cut.isPrefixOf p.1.toList

/-- A word with two dashes or more that is spelled like no flag. -/
private def cutFlag (s : String) (cs : List Char) : Except Ambiguity (Option Word) :=
  let (cut, attached) := splitAttached cs
  match candidates cut with
  | [] => .ok none
  | [(_, f)] => .ok (some (.flag f (attached.map String.ofList)))
  | several => .error ⟨s, several.map Prod.fst⟩

/-- A word that begins with a dash and is no flag. -/
private def nonFlag (s : String) (cs : List Char) : Word :=
  if isNegativeNumber cs || cs.contains ' ' then .operand s else .unknown s

/-- What a word before the separator is. -/
def Word.ofString (s : String) : Except Ambiguity Word :=
  let cs := s.toList
  match cs with
  | '-' :: second :: rest =>
    match Flag.ofSpelling? s with
    | some f => .ok (.flag f none)
    | none =>
      let (before, attached) := splitAttached cs
      match attached, Flag.ofSpelling? (String.ofList before) with
      | some value, some f =>
        let value := String.ofList value
        .ok (if second = '-' then .flag f (some value) else .short f value)
      | _, _ =>
        if second = '-' then (cutFlag s cs).map fun word => word.getD (nonFlag s cs)
        else
          match Flag.ofSpelling? (String.ofList ['-', second]) with
          | some f => .ok (.short f (String.ofList rest))
          | none => .ok (nonFlag s cs)
  | _ => .ok (.operand s)

/-- The words of a command line, in which nothing behind the separator is a flag. -/
def readWords : List String → Except Ambiguity (List Word)
  | [] => .ok []
  | s :: rest =>
    if s = "--" then .ok (.separator :: rest.map .operand)
    else do
      let word ← Word.ofString s
      pure (word :: (← readWords rest))

/-- A word as it was given, if it is no flag. -/
def Word.text : Word → String
  | operand s | unknown s => s
  | separator => "--"
  | flag .. | short .. => ""

end Markwright.CommandLine
