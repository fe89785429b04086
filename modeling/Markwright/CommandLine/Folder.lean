import Markwright.CommandLine.Plan

/-!
# Plans carried out in a folder

A folder that is a mere value: files by their parts from the folder on, whose directories are those
that some file is in. Files are read with all line breaks alike. A plan carried out in a folder ends
with what it has written to the three outputs and with the folder as it leaves it.
-/

namespace Markwright.CommandLine

/-- Text files by where they stand. A directory is there if a file stands in it. -/
structure Folder where
  files : List (List String × String)

namespace Folder

/-- There is a file at a place. -/
def isFile (f : Folder) (place : List String) : Bool := (f.files.lookup place).isSome

/-- A file is below the place. The folder itself is always there. -/
def isDirectory (f : Folder) (place : List String) : Bool :=
  place.isEmpty || f.files.any fun file =>
    place.isPrefixOf file.1 && decide (place.length < file.1.length)

/-- The place that a path from `start` on leads to. All but its last part must be directories. -/
def locate (f : Folder) (start : List String) : List String → Except FileFault (List String)
  | [] => .ok start
  | part :: rest =>
    if part = ".." then
      if start.isEmpty then .error (if rest.all (· = "..") then .isDirectory else .notFound)
      else f.locate start.dropLast rest
    else
      let place := start ++ [part]
      if rest.isEmpty || f.isDirectory place then f.locate place rest
      else if f.isFile place then .error .notDirectory
      else .error .notFound

/-- The place of a file, there or not. Outside of the folder there are only directories. -/
def placeOf (f : Folder) (path : Path) : Except FileFault (List String) :=
  if path.root != "" then .error (if path.parts.isEmpty then .isDirectory else .notFound)
  else
    match f.locate [] path.parts with
    | .error fault => .error fault
    | .ok place => if f.isDirectory place then .error .isDirectory else .ok place

/-- The text of a file, each of its line breaks read as one line feed. -/
def read (f : Folder) (path : Path) : Except FileFault String :=
  match f.placeOf path with
  | .error fault => .error fault
  | .ok place =>
    match f.files.lookup place with
    | some text => .ok (unifyBreaks text)
    | none => .error .notFound

/-- Sets the text of a file, which is last in the folder if it is new. -/
def setIn (place : List String) (text : String) :
    List (List String × String) → List (List String × String)
  | [] => [(place, text)]
  | file :: rest => if file.1 = place then (place, text) :: rest else file :: setIn place text rest

/-- Sets the text of a file to what `change` makes of it, nothing if there is no file yet. -/
def update (f : Folder) (path : Path) (change : String → String) : Except FileFault Folder :=
  (f.placeOf path).map fun place =>
    ⟨setIn place (change ((f.files.lookup place).getD "")) f.files⟩

/-- The folder with a file that holds the text and nothing else. -/
def write (f : Folder) (path : Path) (text : String) : Except FileFault Folder :=
  f.update path fun _ => text

/-- The folder with the text behind what the file held before. -/
def append (f : Folder) (path : Path) (text : String) : Except FileFault Folder :=
  f.update path (· ++ text)

end Folder

/-- What a run has written, and the folder as it is. -/
structure Outcome where
  folder : Folder
  output : String := ""
  errors : List String := []
  logFile? : Option Path := none

namespace Outcome

/-- The outcome with a line in the log file, if there is one. -/
def addToLog (o : Outcome) (line : String) : Outcome :=
  match o.logFile? with
  | none => o
  | some path =>
    match o.folder.append path (line ++ "\n") with
    | .ok folder => { o with folder }
    | .error _ => o

end Outcome

/-- The exit code of a plan and its outcome, with `input` on standard input. -/
def Plan.runIn (input : String) (o : Outcome) : Plan → Except Abort (Nat × Outcome)
  | .exit code => .ok (code, o)
  | .abort cause => .error cause
  | .print text next => next.runIn input { o with output := o.output ++ text }
  | .complain line next => next.runIn input { o with errors := o.errors ++ [line] }
  | .log line next =>
    next.runIn input ({ o with errors := o.errors ++ [line] }.addToLog line)
  | .openLog path next =>
    match o.folder.append path "" with
    | .ok folder => (next none).runIn input { o with folder, logFile? := some path }
    | .error fault => (next (some fault)).runIn input o
  | .readInput next => (next input).runIn input o
  | .readFile path next => (next (o.folder.read path)).runIn input o
  | .writeFile path text next =>
    match o.folder.write path text with
    | .ok folder => (next none).runIn input { o with folder }
    | .error fault => (next (some fault)).runIn input o

end Markwright.CommandLine
