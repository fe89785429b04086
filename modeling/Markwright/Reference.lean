import Markwright.Parameters
import Markwright.Text.Quoted

/-!
# References

The target of a link or an image: a raw text and the scheme that tells how to read it. A typed
reference had its scheme written out and shows it again. An image without a text of its own gets a
label made from its reference by the generator of the scheme.
-/

namespace Markwright

/-- What a link or an image points to. -/
structure Reference where
  target : String
  scheme : String
  typed : Bool
  parameters : Parameters
deriving DecidableEq

namespace Reference

/-- The reference as text. -/
def address (r : Reference) : String :=
  if r.typed then r.scheme ++ ":" ++ r.target else r.target

/-- A mail address without its query. -/
def mailLabel (r : Reference) : String :=
  String.ofList (r.target.toList.takeWhile (· != '?'))

end Reference

/-- Makes a label, or fails. -/
abbrev LabelGenerator := Reference → Option String

/-- The generators by scheme. -/
abbrev LabelRegistry := List (String × LabelGenerator)

/-- What came of a label. -/
inductive LabelOutcome where
  /-- No generator is registered, so the raw target stands in. -/
  | raw (scheme target : String)
  | made (label : String)
  | failed (scheme target : String)

namespace LabelRegistry

/-- Only addresses of mail are labelled by a scheme of their own. -/
def builtIn : LabelRegistry := [("mailto", fun r => some r.mailLabel)]

/-- The registry with a generator set for a scheme. -/
def register (registry : LabelRegistry) (scheme : String) (g : LabelGenerator) : LabelRegistry :=
  upsert scheme g registry

/-- The label of a reference, by the generator of its scheme. -/
def label (registry : LabelRegistry) (r : Reference) : LabelOutcome :=
  match registry.lookup r.scheme with
  | none => .raw r.scheme r.target
  | some g =>
    match g r with
    | some s => .made s
    | none => .failed r.scheme r.target

end LabelRegistry

end Markwright
