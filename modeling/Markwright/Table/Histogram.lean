/-!
# Lengths seen in the columns of a table

A column keeps the lengths of its cells, each with a weight. A length seen for the first time
weighs as much as its value, and each time it comes again its weight is scaled, so that lengths seen
often weigh less. Only the comparison of two weights is ever used.
-/

namespace Markwright.Table

/-- Numbers that lengths are weighed in. -/
class Weight (ω : Type) where
  ofLength : Nat → ω
  scale : ω → ω → ω
  exceeds : ω → ω → Bool

instance : Weight Float where
  ofLength := Float.ofNat
  scale := (· * ·)
  exceeds a b := decide (b < a)

/-- What the columns of a table hold, by ascending column. -/
abbrev Columns (α : Type) := List (Nat × α)

/-- Sets what a column holds from what it held before. -/
def Columns.alter {α : Type} (col : Nat) (f : Option α → α) : Columns α → Columns α
  | [] => [(col, f none)]
  | (c, a) :: rest =>
    if c = col then (c, f (some a)) :: rest
    else if col < c then (col, f none) :: (c, a) :: rest
    else (c, a) :: Columns.alter col f rest

/-- Lengths and their weights. -/
abbrev Histogram (ω : Type) := List (Nat × ω)

namespace Histogram

variable {ω : Type} [Weight ω]

/-- The histogram after a length was seen once more. -/
def record (bonus : ω) (length : Nat) : Histogram ω → Histogram ω
  | [] => [(length, Weight.ofLength length)]
  | (l, w) :: rest =>
    if l = length then (l, Weight.scale w bonus) :: rest else (l, w) :: record bonus length rest

/-- The largest length, zero when there is none. -/
def largest (h : Histogram ω) : Nat :=
  h.foldl (fun m p => max m p.1) 0

/-- The histogram without a length. -/
def drop (length : Nat) (h : Histogram ω) : Histogram ω :=
  h.filter (·.1 != length)

end Histogram

end Markwright.Table
