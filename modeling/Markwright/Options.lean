import Markwright.Decimal.Notation

/-!
# Options

How documents are rendered. Options are given as values that may be out of range; options proper are
what the check of such values lets through.
-/

namespace Markwright

/-- A number as it was given, whole or not. -/
inductive Number where
  | int (n : Int)
  | real (x : Float)

namespace Number

/-- The number as a float. -/
def toFloat : Number → Float
  | int n => Float.ofInt n
  | real x => x

/-- The number as it is shown. -/
def text : Number → String
  | int n => toString n
  | real x => Decimal.text x

end Number

/-- Options as given. -/
structure OptionValues where
  tableWidthStop : Int := 100
  tableMinPadding : Int := 1
  repeatedWidthBonus : Number := .real 0.8
  listIndentWidth : Int := 4
  codeCallId : String := "code"
  stripFinalBreaks : Bool := false

/-- How documents are rendered. The values that are refused cannot be built. -/
structure Options where
  /-- The width that tables should not exceed, padding included. -/
  tableWidthStop : Nat := 100
  /-- Spaces on each side of a table cell. -/
  tableMinPadding : Nat := 1
  /-- What the weight of a cell length is scaled by each time it comes again in its column. -/
  repeatedWidthBonus : Float := 0.8
  /-- The width of list markers and of the indentation under them. -/
  listIndentWidth : Nat := 4
  /-- The call that is rendered as code. -/
  codeCallId : String := "code"
  stripFinalBreaks : Bool := false
  widthStop_pos : 1 ≤ tableWidthStop := by decide
  bonus_pos : 0.0 < repeatedWidthBonus := by decide
  bonus_le_one : repeatedWidthBonus ≤ 1.0 := by decide
  /-- A marker needs a space after it. -/
  three_le_indent : 3 ≤ listIndentWidth := by decide
  codeCallId_ne : codeCallId ≠ "" := by decide

/-- A value out of range, the first in the order of the fields. -/
inductive OptionFault where
  | widthStop (got : Int)
  | minPadding (got : Int)
  | bonus (got : Number)
  | indent (got : Int)
  | emptyCallId

/-- What is told of a value that is refused. -/
def OptionFault.message : OptionFault → String
  | widthStop got => s!"table_width_stop must be positive, got {got}"
  | minPadding got => s!"table_min_padding must be non-negative, got {got}"
  | bonus got => s!"repeated_width_bonus must be in (0, 1], got {got.text}"
  | indent got => s!"list_indent_width must be at least 3, got {got}"
  | emptyCallId => "code_macro_id must not be empty"

/-- Lets through what is in range. -/
def OptionValues.check (v : OptionValues) : Except OptionFault Options :=
  if hw : v.tableWidthStop < 1 then .error (.widthStop v.tableWidthStop)
  else if v.tableMinPadding < 0 then .error (.minPadding v.tableMinPadding)
  else if hb : ¬ (0.0 < v.repeatedWidthBonus.toFloat ∧ v.repeatedWidthBonus.toFloat ≤ 1.0) then
    .error (.bonus v.repeatedWidthBonus)
  else if hi : v.listIndentWidth < 3 then .error (.indent v.listIndentWidth)
  else if hc : v.codeCallId = "" then .error .emptyCallId
  else .ok {
    tableWidthStop := v.tableWidthStop.toNat
    tableMinPadding := v.tableMinPadding.toNat
    repeatedWidthBonus := v.repeatedWidthBonus.toFloat
    listIndentWidth := v.listIndentWidth.toNat
    codeCallId := v.codeCallId
    stripFinalBreaks := v.stripFinalBreaks
    widthStop_pos := by omega
    bonus_pos := (Classical.not_not.1 hb).1
    bonus_le_one := (Classical.not_not.1 hb).2
    three_le_indent := by omega
    codeCallId_ne := hc }

/-- The values of options, which are all in range. -/
def Options.values (o : Options) : OptionValues where
  tableWidthStop := o.tableWidthStop
  tableMinPadding := o.tableMinPadding
  repeatedWidthBonus := .real o.repeatedWidthBonus
  listIndentWidth := o.listIndentWidth
  codeCallId := o.codeCallId
  stripFinalBreaks := o.stripFinalBreaks

/-- The options with some values set anew, and checked again. -/
def Options.updated (o : Options) (f : OptionValues → OptionValues) : Except OptionFault Options :=
  (f o.values).check

end Markwright
