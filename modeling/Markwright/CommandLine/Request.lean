import Markwright.CommandLine.Word
import Markwright.Decimal.Reader
import Markwright.InputFormat
import Markwright.Log
import Markwright.Options
import Markwright.Text.Quoted

/-!
# Requests

What a command line asks for. Of a flag given more than once the last value counts. A fault in a
value is found when its flag is reached, so the first one in the line is told. Only then is it told
that there is no input, or that words are left over.
-/

namespace Markwright.CommandLine

/-- What the words of a command line ask for. -/
structure Request where
  /-- The file to read, or a dash for standard input. -/
  input : String
  /-- The file to write, empty for standard output. -/
  out : String := ""
  format? : Option InputFormat := none
  level : LogLevel := .warning
  /-- The file that log records are added to, or nothing. -/
  logFile : String := ""
  trace : Bool := false
  rich : Bool := false
  options : OptionValues := {}
  /-- Flags that were given without the value that they take. -/
  valueless : List Flag := []

/-- The kinds of numbers that flags take. -/
inductive NumberKind where
  | int
  | float
deriving DecidableEq

/-- The name of a kind of number in messages. -/
def NumberKind.name : NumberKind → String
  | int => "int"
  | float => "float"

/-- What is wrong with the words of a command line. -/
inductive UsageFault where
  | ambiguous (word : Ambiguity)
  | valueExpected (flag : Flag)
  | valueIgnored (flag : Flag) (value : String)
  | badNumber (flag : Flag) (kind : NumberKind) (value : String)
  | badChoice (flag : Flag) (value : String) (choices : List String)
  | noInput
  | leftOver (words : List String)
deriving DecidableEq

namespace UsageFault

/-- A message about a flag, which is named by all its spellings. -/
private def about (f : Flag) (message : String) : String :=
  "argument " ++ f.title ++ ": " ++ message

/-- What is shown behind the usage line. -/
def message : UsageFault → String
  | ambiguous word =>
    "ambiguous option: " ++ word.given ++ " could match " ++ ", ".intercalate word.candidates
  | valueExpected f => about f "expected one argument"
  | valueIgnored f value => about f ("ignored explicit argument " ++ Text.quoted value)
  | badNumber f kind value => about f ("invalid " ++ kind.name ++ " value: " ++ Text.quoted value)
  | badChoice f value choices =>
    about f ("invalid choice: " ++ Text.quoted value ++ " (choose from "
      ++ ", ".intercalate (choices.map Text.quoted) ++ ")")
  | noInput => "the following arguments are required: input"
  | leftOver words => "unrecognized arguments: " ++ " ".intercalate words

end UsageFault

/-- Why the words of a command line make no request: a fault, or a flag that asks for something
else. -/
inductive Ending where
  | help
  | version
  | fault (fault : UsageFault)
deriving DecidableEq

/-- The words are read no further. -/
private def refused {α : Type} (fault : UsageFault) : Except Ending α := .error (.fault fault)

/-- The integer that a flag is given. -/
private def intFor (f : Flag) (value : String) : Except Ending Int :=
  match Text.readInt? value with
  | some n => .ok n
  | none => refused (.badNumber f .int value)

/-- The number that a flag is given. -/
private def floatFor (f : Flag) (value : String) : Except Ending Float :=
  match Decimal.read? value with
  | some x => .ok x
  | none => refused (.badNumber f .float value)

/-- The choice that a flag is given, which has to be named exactly. -/
private def choiceFor {α : Type} (f : Flag) (name : α → String) (choices : List α)
    (value : String) : Except Ending α :=
  match choices.find? (name · == value) with
  | some a => .ok a
  | none => refused (.badChoice f value (choices.map name))

namespace Request

/-- The request with a flag that takes no value. -/
def switchOn (r : Request) : Flag → Except Ending Request
  | .help => .error .help
  | .version => .error .version
  | .trace => .ok { r with trace := true }
  | .rich => .ok { r with rich := true }
  | .stripFinalBreaks => .ok { r with options := { r.options with stripFinalBreaks := true } }
  | f => refused (.valueExpected f)

/-- The request with the value of a flag. -/
def set (r : Request) (f : Flag) (value : String) : Except Ending Request :=
  let r := { r with valueless := r.valueless.filter (· != f) }
  match f with
  | .out => .ok { r with out := value }
  | .inputFormat => do
    pure { r with format? := some (← choiceFor f InputFormat.name InputFormat.all value) }
  | .logLevel => do
    pure { r with level := ← choiceFor f LogLevel.name LogLevel.all value }
  | .logFile => .ok { r with logFile := value }
  | .tableWidth => do
    pure { r with options := { r.options with tableWidthStop := ← intFor f value } }
  | .minPadding => do
    pure { r with options := { r.options with tableMinPadding := ← intFor f value } }
  | .widthBonus => do
    pure { r with options := { r.options with
      repeatedWidthBonus := .real (← floatFor f value) } }
  | .listIndent => do
    pure { r with options := { r.options with listIndentWidth := ← intFor f value } }
  | .codeCallId => .ok { r with options := { r.options with codeCallId := value } }
  | f => refused (.valueIgnored f value)

/-- The request with a flag that is given without a value. Where a text is due an empty one stands
in. -/
def unset (r : Request) : Flag → Request
  | .out => { r with out := "" }
  | .logFile => { r with logFile := "" }
  | .codeCallId => { r with options := { r.options with codeCallId := "" } }
  | f => { r with valueless := f :: r.valueless }

/-- The request with a flag and the value attached to it. Two dashes attached are no value. -/
def setAttached (r : Request) (f : Flag) (value : String) : Except Ending Request :=
  if f.takesValue && value == "--" then .ok (r.unset f) else r.set f value

/-- What letters behind a flag that takes no value come to. They are flags of their own, and all of
them are looked at before the first one is done: one may lack its value, unless the word is
`followed` by one. What is no flag is a value that is not wanted. -/
def behindSwitch (f : Flag) (followed : Bool) : List Char → Except Ending Unit
  | [] => .ok ()
  | c :: rest =>
    match Flag.ofSpelling? (String.ofList ['-', c]) with
    | none => refused (.valueIgnored f (String.ofList (c :: rest)))
    | some g =>
      if g.takesValue then
        if rest.isEmpty && !followed then refused (.valueExpected g) else .ok ()
      else behindSwitch g followed rest

/-- The request with a flag of one letter and what stands behind it. -/
def setShort (r : Request) (f : Flag) (behind : String) (followed : Bool) :
    Except Ending Request :=
  if f.takesValue then r.setAttached f behind
  else if behind = "" then refused (.valueIgnored f behind)
  else do
    behindSwitch f followed behind.toList
    r.switchOn f

/-- The request that words make of `r`. The first operand is the input, the separator before or
behind it not counting; `left` are the words left over so far. -/
def ofWords (r : Request) (input : Option String) (left : List String) :
    List Word → Except Ending Request
  | [] =>
    match input with
    | none => refused .noInput
    | some input => if left.isEmpty then .ok { r with input } else refused (.leftOver left)
  | .flag f (some value) :: rest => do
    ofWords (← r.setAttached f value) input left rest
  | .short f behind :: rest => do
    let followed := match rest with
      | .operand _ :: _ => true
      | _ => false
    ofWords (← r.setShort f behind followed) input left rest
  | .flag f none :: rest =>
    if f.takesValue then
      match rest with
      | .operand value :: rest => do
        ofWords (← r.set f value) input left rest
      | _ => refused (.valueExpected f)
    else do
      ofWords (← r.switchOn f) input left rest
  | .unknown s :: rest => ofWords r input (left ++ [s]) rest
  | word :: rest =>
    match input, word, rest with
    | none, .operand s, .separator :: rest => ofWords r (some s) left rest
    | none, .operand s, rest => ofWords r (some s) left rest
    | none, .separator, .operand s :: rest => ofWords r (some s) left rest
    | _, word, rest => ofWords r input (left ++ [word.text]) rest

/-- The request of a command line. -/
def ofArguments (arguments : List String) : Except Ending Request :=
  match readWords arguments with
  | .error word => refused (.ambiguous word)
  | .ok words => ofWords { input := "" } none [] words

/-- The last thing said of a flag is that it has no value. -/
def lacks (r : Request) (f : Flag) : Bool := r.valueless.contains f

end Request

/-! ## The options of a request -/

/-- The flags of options that can be out of range, in the order in which they are looked at. -/
def checkedFlags : List Flag := [.tableWidth, .minPadding, .widthBonus, .listIndent, .codeCallId]

/-- The flag that sets what is out of range. -/
def flagOf : OptionFault → Flag
  | .widthStop _ => .tableWidth
  | .minPadding _ => .minPadding
  | .bonus _ => .widthBonus
  | .indent _ => .listIndent
  | .emptyCallId => .codeCallId

/-- Why a request has no options. -/
inductive OptionRefusal where
  | outOfRange (fault : OptionFault)
  | noValue (flag : Flag)

/-- The options of a request. The first value that is missing or out of range is told. -/
def Request.checkOptions (r : Request) : Except OptionRefusal Options :=
  match r.options.check, checkedFlags.find? r.lacks with
  | .ok options, none => .ok options
  | .ok _, some f => .error (.noValue f)
  | .error fault, none => .error (.outOfRange fault)
  | .error fault, some f =>
    if checkedFlags.idxOf f ≤ checkedFlags.idxOf (flagOf fault) then .error (.noValue f)
    else .error (.outOfRange fault)

end Markwright.CommandLine
