import Markwright.CommandLine.Request
import Markwright.Document.Stored
import Markwright.Output
import Markwright.Render

/-!
# Plans

What is done for a command line, as a tree: each node is one effect, and the answer to it selects
what comes next. A plan says all that a run does and in which order, so the same plan can be carried
out in a file system or in a folder that is a mere value. Every run ends with an exit code or is cut
short by a fault that nothing handles.
-/

namespace Markwright.CommandLine

/-- The name that the program gives itself. -/
def programName : String := "events2md"

/-- What the version flag prints. -/
def programVersion : String := "1.0.0"

/-- Why a file cannot be used, by the number that systems give the cause. -/
structure FileFault where
  code : Nat
  cause : String
deriving DecidableEq

namespace FileFault

/-- Neither a file nor a directory stands there. -/
def notFound : FileFault := ⟨2, "No such file or directory"⟩

/-- A file stands where the path goes on. -/
def notDirectory : FileFault := ⟨20, "Not a directory"⟩

/-- A directory stands where a file is asked for. -/
def isDirectory : FileFault := ⟨21, "Is a directory"⟩

/-- The fault as it is shown, with the path that was asked for. -/
def message (f : FileFault) (path : String) : String :=
  s!"[Errno {f.code}] {f.cause}: {Text.quoted path}"

end FileFault

/-- A fault that nothing handles. -/
inductive Abort where
  | load (fault : LoadFault)
  | render (fault : RenderFault)
  /-- A flag lacks its value where this is needed. -/
  | noValue (flag : Flag)

/-- What is said of a flag without its value. An empty list stands where the value is due. -/
def missingValue : Flag → String
  | .logLevel => "'list' object has no attribute 'upper'"
  | .inputFormat => "Unsupported input format: []"
  | .widthBonus => "'<' not supported between instances of 'int' and 'list'"
  | _ => "'<' not supported between instances of 'list' and 'int'"

/-- What is shown of a run that ends early. -/
def Abort.message : Abort → String
  | load fault => fault.message
  | render fault => fault.message
  | noValue flag => missingValue flag

/-- What the program does, step by step. What it is told on the way decides how it goes on. -/
inductive Plan where
  | exit (code : Nat)
  | abort (cause : Abort)
  /-- Writes to standard output. -/
  | print (text : String) (next : Plan)
  /-- Writes a line to standard error. -/
  | complain (line : String) (next : Plan)
  /-- Writes a line to standard error, and to the log file if there is one. -/
  | log (line : String) (next : Plan)
  /-- Opens the log file, to add to its end. -/
  | openLog (path : Path) (next : Option FileFault → Plan)
  | readInput (next : String → Plan)
  | readFile (path : Path) (next : Except FileFault String → Plan)
  | writeFile (path : Path) (text : String) (next : Option FileFault → Plan)

/-- A fault of the command line is the last line on standard error, and the exit code is two. -/
def UsageFault.plan (f : UsageFault) : Plan :=
  .complain (programName ++ ": error: " ++ f.message) (.exit 2)

/-- How the program is called. -/
def helpText : String :=
  "usage: " ++ programName ++ " [flags] input\n\nflags:\n"
    ++ String.join (Flag.all.map fun f => "  " ++ ", ".intercalate f.spellings
      ++ (if f.takesValue then " VALUE" else "") ++ "\n")

namespace Request

/-- Logs a record if its level is high enough. Everything is logged in a trace. -/
def tell (r : Request) (record : LogRecord) (next : Plan) : Plan :=
  let least := if r.trace then 0 else r.level.number
  if least ≤ record.level.number then .log (record.line r.trace) next else next

/-- Tells the records one after the other, and goes on. -/
def tellAll (r : Request) (records : List LogRecord) (next : Plan) : Plan :=
  records.foldr r.tell next

/-- Ends the run with the message of an error. -/
def fail (message : String) : Plan := .complain ("Error: " ++ message) (.exit 1)

/-- Ends the run because the document cannot be rendered. -/
def refuse (r : Request) (message : String) : Plan :=
  r.tell ⟨.debug, "Rendering failed"⟩ (fail message)

/-- Log records go to the log file as well once it is open. Without it the run goes on. -/
def openingLog (r : Request) (directory : String) (next : Plan) : Plan :=
  if r.logFile = "" then next
  else
    let path := (Path.ofString r.logFile).straight
    .openLog path fun
      | none => r.tell ⟨.info, "Logging to file: " ++ r.logFile⟩ next
      | some fault => r.tell ⟨.warning, "Could not create log file " ++ r.logFile ++ ": "
          ++ fault.message (path.absolute directory)⟩ next

/-- Puts the rendered text where it is asked for. -/
def delivering (r : Request) (markdown : String) : Plan :=
  if r.out = "" then .print markdown (.exit 0)
  else
    let path := Path.ofString r.out
    .writeFile path markdown fun
      | none => r.tell ⟨.info, "Wrote " ++ r.out⟩ (.exit 0)
      | some _ => r.refuse (OutputFault.notWritten path.text).message

/-- The notes of a rendering, which are told on the lowest level. -/
private def debugNotes (s : Session) : List LogRecord :=
  s.notes.map fun n => ⟨.debug, n.message⟩

/-- A tree is rendered if it is a whole document. -/
def rendering (r : Request) (options : Options) (loaded : Except LoadFault Node) : Plan :=
  match loaded with
  | .error fault =>
    if fault.stage?.isSome then r.refuse fault.message else .abort (.load fault)
  | .ok n =>
    if n.kind ≠ "Document" then r.refuse (LoadFault.rootNotDocument n.kind).message
    else
      match n.session (.standard options) with
      | .ok s => r.tellAll (debugNotes s) (r.delivering (options.finish s.written))
      | .error failure =>
        r.tellAll (debugNotes failure.session)
          (match failure.fault with
          | .noPrefix | .noList => .abort (.render failure.fault)
          | fault => r.refuse fault.message)

/-- What is done with the text of the input. -/
def loading (r : Request) (options : Options) (format : InputFormat) (text : String) : Plan :=
  match format with
  | .json => r.rendering options (Node.ofJson text)
  | .yaml =>
    match Yaml.read? text with
    | none => r.refuse LoadFault.badYaml.message
    | some v =>
      r.tell ⟨.debug, "Loaded YAML document tree"⟩ (r.rendering options (Node.ofStored v))

/-- Reads the input and goes on with its text. -/
def reading (r : Request) (next : String → Plan) : Plan :=
  if r.input = "-" then .readInput next
  else
    let path := Path.ofString r.input
    .readFile path fun
      | .ok text => next text
      | .error fault => fail (fault.message path.text)

/-- The plan of a request made in the given directory. -/
def plan (r : Request) (directory : String) : Plan :=
  if r.lacks .logLevel && !r.trace then .abort (.noValue .logLevel)
  else r.openingLog directory <|
    match r.checkOptions with
    | .error (.outOfRange fault) => fail fault.message
    | .error (.noValue f) => .abort (.noValue f)
    | .ok options =>
      if r.lacks .inputFormat then .abort (.noValue .inputFormat)
      else
        let format := r.format?.getD (InputFormat.detect r.input)
        r.tell ⟨.debug, "Reading " ++ r.input ++ " as " ++ format.name⟩
          (r.reading (r.loading options format))

end Request

/-- The plan of a command line. -/
def planOf (directory : String) (arguments : List String) : Plan :=
  match Request.ofArguments arguments with
  | .ok r => r.plan directory
  | .error .help => .print helpText (.exit 0)
  | .error .version => .print (programName ++ " " ++ programVersion ++ "\n") (.exit 0)
  | .error (.fault fault) => fault.plan

end Markwright.CommandLine
