/-!
# The flags of the command line

A flag has one or two spellings, and many take a value. What the flags about rendering set is an
option of the renderer.
-/

namespace Markwright.CommandLine

/-- The flags of the command line. -/
inductive Flag where
  | help
  | out
  | inputFormat
  | logLevel
  | logFile
  | trace
  | rich
  | version
  | stripFinalBreaks
  | tableWidth
  | minPadding
  | widthBonus
  | listIndent
  | codeCallId
deriving DecidableEq

namespace Flag

/-- All flags, in the order in which they are looked through. -/
def all : List Flag :=
  [help, out, inputFormat, logLevel, logFile, trace, rich, version, stripFinalBreaks, tableWidth,
    minPadding, widthBonus, listIndent, codeCallId]

/-- All that a flag may be written as, the short form first where there is one. -/
def spellings : Flag → List String
  | help => ["-h", "--help"]
  | out => ["-o", "--out"]
  | inputFormat => ["--input-format"]
  | logLevel => ["--log-level"]
  | logFile => ["--log-file"]
  | trace => ["--trace"]
  | rich => ["--rich"]
  | version => ["--version"]
  | stripFinalBreaks => ["--markdown-strip-trailing-newlines"]
  | tableWidth => ["--table-width", "--markdown-table-width-stop"]
  | minPadding => ["--markdown-table-min-padding"]
  | widthBonus => ["--markdown-repeated-width-bonus"]
  | listIndent => ["--markdown-list-indent-width"]
  | codeCallId => ["--markdown-code-macro-id"]

/-- A flag that takes a value has it in the same word or in the next one. -/
def takesValue : Flag → Bool
  | help | trace | rich | version | stripFinalBreaks => false
  | _ => true

/-- A flag in a message. -/
def title (f : Flag) : String := "/".intercalate f.spellings

/-- Every spelling with its flag. -/
def spelled : List (String × Flag) :=
  all.flatMap fun f => f.spellings.map fun s => (s, f)

/-- The flag that is written so, if there is one. -/
def ofSpelling? (s : String) : Option Flag := spelled.lookup s

end Flag

/-- No two flags share a spelling. -/
theorem Flag.spelled_nodup : (Flag.spelled.map Prod.fst).Nodup := by decide +kernel

end Markwright.CommandLine
