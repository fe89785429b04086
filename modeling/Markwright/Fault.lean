import Markwright.Text.Quoted

/-!
# What can go wrong while rendering

A stream of events may be ill nested, a cell may ask for a span that is none, and a label generator
may fail. Each cause has its text and, where it belongs to a stage of rendering, the stage's name.
-/

namespace Markwright

/-- Why a document cannot be rendered. -/
inductive RenderFault where
  /-- The printer of the document itself cannot be taken off the stack. -/
  | rootPop
  /-- The printer writes to a place that cannot be read. -/
  | unreadable
  | noPrefix
  | noList
  | cellOutsideRow
  /-- A column span that is no integer, as shown. -/
  | badSpan (shown : String)
  /-- A column span below one, as shown. -/
  | spanBelowOne (shown : String)
  | labelFailed (scheme target : String)
deriving DecidableEq

namespace RenderFault

/-- The text of a fault. -/
def message : RenderFault → String
  | rootPop => "Cannot pop the root printer"
  | unreadable => "Printer output is not held in memory"
  | noPrefix => "pop from an empty deque"
  | noList => "pop from empty list"
  | cellOutsideRow => "Table cell added before any table row"
  | badSpan shown => "Invalid value for parameter 'colspan': " ++ shown
  | spanBelowOne shown => "colspan must be a positive integer, got " ++ shown
  | labelFailed scheme target =>
    "Label generator for scheme '" ++ scheme ++ "' failed on reference: " ++ Text.quoted target

/-- The stage of rendering that a fault belongs to. -/
def stage? : RenderFault → Option String
  | rootPop | unreadable => some "printer"
  | cellOutsideRow => some "table"
  | labelFailed .. => some "reference_label"
  | _ => none

end RenderFault

end Markwright
