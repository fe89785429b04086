/-!
# Log levels

A record is shown when its level is at least the level asked for. Levels are asked for by number or
by name, in any case.
-/

namespace Markwright

/-- How much a log record matters. -/
inductive LogLevel where
  | debug
  | info
  | warning
  | error
  | critical
deriving DecidableEq

namespace LogLevel

/-- The name of a level in log records. -/
def name : LogLevel → String
  | debug => "DEBUG"
  | info => "INFO"
  | warning => "WARNING"
  | error => "ERROR"
  | critical => "CRITICAL"

/-- The number by which levels are compared. -/
def number : LogLevel → Nat
  | debug => 10
  | info => 20
  | warning => 30
  | error => 40
  | critical => 50

/-- All levels, the least first. -/
def all : List LogLevel := [debug, info, warning, error, critical]

end LogLevel

/-- The number of a level by its name in capitals. -/
def levelNumbers : List (String × Nat) :=
  [("CRITICAL", 50), ("FATAL", 50), ("ERROR", 40), ("WARNING", 30), ("WARN", 30), ("INFO", 20),
    ("DEBUG", 10), ("NOTSET", 0)]

/-- A letter as a capital, as far as the names of levels need it: two letters beyond ASCII have
capitals among theirs. -/
def capital (c : Char) : Char :=
  if c = 'ı' then 'I' else if c = 'ſ' then 'S' else c.toUpper

/-- The number of the level of that name, in any case. -/
def readLevel? (name : String) : Option Nat :=
  levelNumbers.lookup (String.ofList (name.toList.map capital))

/-- Something that happened, told at a level. -/
structure LogRecord where
  level : LogLevel
  message : String

namespace LogRecord

/-- The line of a record. A traced record has its level between brackets. -/
def line (r : LogRecord) (traced : Bool) : String :=
  if traced then "[" ++ r.level.name ++ "] " ++ r.message else r.level.name ++ ": " ++ r.message

end LogRecord

end Markwright
