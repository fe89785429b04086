import Markwright.Text.Digit

/-!
# Calls and code

A call names what is called and may carry parameters and content. It is written in a compact form
when its content allows, else as a block with an opening and a closing tag. Code is written between
ticks, or between fences with the name of its language.
-/

namespace Markwright.Call

/-- What a call carries: values under names, a value that is not given being skipped. -/
abbrev Arguments := List (String × Option String)

/-- A text with a backslash before each backslash and each double quote. -/
def protectQuotes (cs : List Char) : List Char :=
  cs.flatMap fun c => if c = '\\' ∨ c = '"' then ['\\', c] else [c]

/-- A name and its value, which is quoted unless it is a number. -/
def argument (name value : String) : String :=
  let protectedValue := protectQuotes value.toList
  if Text.isDecimal protectedValue then name ++ "=" ++ String.ofList protectedValue
  else name ++ "=\"" ++ String.ofList protectedValue ++ "\""

/-- All arguments with a value, in order. -/
def arguments (args : Arguments) : String :=
  " ".intercalate (args.filterMap fun (name, value) => value.map (argument name))

/-- The content of a call, an empty one counting as none. -/
def given? (content : Option String) : Option String :=
  content.filter fun s => !s.isEmpty

/-- The block form: a tag, and with content a line break, the content and the closing tag. -/
def block (id : String) (args : Arguments) (content : Option String) : String :=
  let opening := "\x7b\x7b" ++ id ++ (if args.isEmpty then "" else " " ++ arguments args)
  match given? content with
  | none => opening ++ "/\x7d\x7d"
  | some s => opening ++ "\x7d\x7d\n" ++ s ++ "\x7b\x7b/" ++ id ++ "\x7d\x7d"

/-- The content can stand in the compact form. -/
def isCompact (content : Option String) : Bool :=
  match content with
  | none => true
  | some s => !s.toList.contains '\n' && !s.toList.contains ')'

/-- The compact form: the name between brackets, and what it carries between parentheses. -/
def compact (id : String) (args : Arguments) (content : Option String) : String :=
  let opening := "#[" ++ id ++ "]"
  match args.isEmpty, given? content with
  | true, none => opening
  | true, some s => opening ++ "(" ++ s ++ ")"
  | false, none => opening ++ "(" ++ arguments args ++ ")"
  | false, some s => opening ++ "(" ++ arguments args ++ " \"" ++ s ++ "\")"

end Markwright.Call

namespace Markwright.Code

/-- Three backticks, alone on the first and the last line of a block of code. -/
def fence : String := "```"

/-- Code between ticks, two of them when it holds one. -/
def inLine (code : String) : String :=
  let marker := if code.toList.contains '\x60' then "``" else "`"
  marker ++ code ++ marker

/-- Code between fences, the first with the name of the language. -/
def block (code : String) (language : Option String) : String :=
  fence ++ language.getD "" ++ "\n" ++ code ++ "\n" ++ fence

end Markwright.Code
