import Markwright.Text.Blank

/-!
# Where rendered text goes

Text goes to a file or to a stream. Files and streams of bytes hold its encoding; streams of text
take it as it is. A file is read back with all its line breaks alike.
-/

namespace Markwright

/-- Where a page is written to. -/
inductive Destination where
  | file (path : String)
  | textStream
  | byteStream
  /-- A value of some kind that cannot be written to. -/
  | other (kind : String)

/-- What a destination is given. -/
inductive Delivery where
  | text (s : String)
  | bytes (b : ByteArray)

/-- Why a page is not written. -/
inductive OutputFault where
  | unsupported (kind : String)
  /-- The file cannot be written. -/
  | notWritten (path : String)

namespace OutputFault

/-- The text of a fault. -/
def message : OutputFault → String
  | unsupported kind => "Unsupported output type: <class '" ++ kind ++ "'>"
  | notWritten path => "Failed to write output file: " ++ path

/-- The stage that a fault names, if it names one. -/
def stage? : OutputFault → Option String
  | unsupported _ => none
  | notWritten _ => some "file_write"

end OutputFault

/-- What a destination gets of a text. `writable` tells of a path whether a file can be there. -/
def Destination.deliver (writable : String → Bool) (text : String) :
    Destination → Except OutputFault Delivery
  | .file path => if writable path then .ok (.bytes text.toUTF8) else .error (.notWritten path)
  | .textStream => .ok (.text text)
  | .byteStream => .ok (.bytes text.toUTF8)
  | .other kind => .error (.unsupported kind)

/-- The characters with every line break written as a line feed. -/
def unifyBreakChars : List Char → List Char
  | [] => []
  | '\r' :: '\n' :: cs => '\n' :: unifyBreakChars cs
  | c :: cs => (if c = '\r' then '\n' else c) :: unifyBreakChars cs

/-- The text of a file as it is read. -/
def unifyBreaks (s : String) : String :=
  String.ofList (unifyBreakChars s.toList)

end Markwright
