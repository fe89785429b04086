/-!
# Escaping markers

Text must not be read back as markup, so the markers it happens to hold are escaped by a backslash.
A marker is a shape that a text may take at some place. A hit has a length and parts, and the
escape character goes before the first character of each part. Hits are looked for from left to
right and do not overlap.
-/

namespace Markwright.Escape

/-- The character that takes from the next one what it would mean. -/
def escapeChar : Char := '\\'

/-- A marker found in a text: its length and where its parts begin, an optional part that is not
there giving `none`. -/
structure Hit where
  length : Nat
  parts : List (Option Nat)

/-- A shape that is looked for in a text. -/
structure Marker where
  /-- The shape as messages name it. -/
  source : String
  partCount : Nat
  /-- The hit at the front of what is left of a text, told whether that is the whole text. -/
  hit? : Bool → List Char → Option Hit

/-- Puts the escape character before each of the ascending positions, counted from `i`. -/
def insertEscapes : List Nat → Nat → List Char → List Char
  | [], _, cs => cs
  | _, _, [] => []
  | p :: ps, i, c :: cs =>
    if p = i then escapeChar :: c :: insertEscapes ps (i + 1) cs
    else c :: insertEscapes (p :: ps) (i + 1) cs

/-- Puts the escape character before the last character. -/
def escapeLast (cs : List Char) : List Char :=
  cs.dropLast ++ escapeChar :: cs.getLast?.toList

/-- The characters of a hit with all its parts escaped. -/
def Hit.escape (h : Hit) (cs : List Char) : List Char :=
  insertEscapes (h.parts.filterMap id) 0 cs

/-- Escapes every hit. A hit is at least one character long. -/
def Marker.escapeAll (m : Marker) (whole : Bool) : List Char → List Char
  | [] => []
  | c :: cs =>
    match m.hit? whole (c :: cs) with
    | some h =>
      h.escape (c :: cs.take (h.length - 1)) ++ m.escapeAll false (cs.drop (h.length - 1))
    | none => c :: m.escapeAll false cs
termination_by cs => cs.length
decreasing_by all_goals simp only [List.length_cons, List.length_drop]; omega

/-- Escapes the first part of a hit at the front. A part that is not there counts as the last
character of the text. -/
def Marker.escapeFront (m : Marker) (cs : List Char) : List Char :=
  match m.hit? true cs with
  | some ⟨_, some p :: _⟩ => insertEscapes [p] 0 cs
  | some ⟨_, none :: _⟩ => escapeLast cs
  | _ => cs

/-! ## Markers given by a caller -/

/-- A rule that does not say which part of a match it protects. -/
inductive Fault where
  | noPart
  | rule (source : String)

/-- As `escapeFront`, refusing a hit without parts. -/
def Marker.escapeFront? (m : Marker) (cs : List Char) : Except Fault (List Char) :=
  if m.partCount = 0 ∧ (m.hit? true cs).isSome then .error .noPart else .ok (m.escapeFront cs)

/-- As `escapeAll`, refusing a marker without parts. -/
def Marker.escapeAll? (m : Marker) (cs : List Char) : Except Fault (List Char) :=
  if m.partCount = 0 then .error (.rule m.source) else .ok (m.escapeAll true cs)

/-! ## Reading escaped text -/

/-- Drops each escape character and keeps the one after it. An escape character at the end has
nothing to protect. -/
def unescape? : List Char → Option (List Char)
  | [] => some []
  | c :: cs =>
    if c = escapeChar then
      match cs with
      | [] => none
      | d :: rest => (unescape? rest).map (d :: ·)
    else (unescape? cs).map (c :: ·)

end Markwright.Escape
