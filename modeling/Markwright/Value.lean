import Markwright.Decimal.Notation
import Markwright.Text.Quoted

/-!
# Values of a data format

What a document file holds before it is known to be a document: scalars, lists and records. A
record is keyed by scalars, which for a document are texts. It keeps its fields in the order in
which their keys first came, each with the value that came last. Messages show a value in one line,
texts inside lists and records between quotes.
-/

namespace Markwright

/-! ## Scalars -/

/-- A value that holds no others. Any of them can be a key of a record. -/
inductive Scalar where
  | null
  | bool (b : Bool)
  | int (n : Int)
  | real (x : Float)
  | text (s : String)

namespace Scalar

instance : Coe String Scalar := ⟨text⟩

/-- The integer that a scalar counts as among keys: truth values count as zero and one. -/
def integer? : Scalar → Option Int
  | bool b => some (if b then 1 else 0)
  | int n => some n
  | _ => none

/-- Two scalars are the same key. Numbers are compared by value, whole or not. -/
def isSameKey : Scalar → Scalar → Bool
  | null, null => true
  | text s, text t => s == t
  | real x, real y => Decimal.isSame x y
  | real x, k | k, real x => k.integer?.any (Decimal.equalsInt x)
  | k, l => k.integer?.isSome && k.integer? == l.integer?

instance : BEq Scalar := ⟨isSameKey⟩

@[simp] theorem text_beq_text (s t : String) : (text s == text t) = (s == t) := rfl

/-- A scalar in one line, a text between quotes. -/
def shown : Scalar → String
  | null => "None"
  | bool b => if b then "True" else "False"
  | int n => toString n
  | real x => Decimal.text x
  | text s => Text.quoted s

/-- A scalar as text: a text is itself, and all else is as shown. -/
def display : Scalar → String
  | text s => s
  | k => shown k

end Scalar

/-! ## Records -/

section Pairs

variable {κ : Type} [BEq κ]

/-- Sets the value under `key`: in its place if the key is there, else at the end. -/
def upsert {α : Type} (key : κ) (a : α) : List (κ × α) → List (κ × α)
  | [] => [(key, a)]
  | (k, b) :: rest => if k == key then (k, a) :: rest else (k, b) :: upsert key a rest

/-- The pairs with each key once, at its first place and with its last value. -/
def mergePairs {α : Type} (pairs : List (κ × α)) : List (κ × α) :=
  pairs.foldl (fun acc p => upsert p.1 p.2 acc) []

theorem upsert_of_new {α : Type} {key : κ} {a : α} :
    ∀ {l : List (κ × α)}, (∀ p ∈ l, (p.1 == key) = false) → upsert key a l = l ++ [(key, a)]
  | [], _ => rfl
  | (k, b) :: rest, h => by
    rw [upsert, h (k, b) (by simp), upsert_of_new fun p hp => h p (by simp [hp])]
    rfl

/-- Pairs with different keys stay as they are. -/
theorem mergePairs_eq_self {α : Type} {pairs : List (κ × α)}
    (h : pairs.Pairwise fun p q => (p.1 == q.1) = false) : mergePairs pairs = pairs := by
  suffices key : ∀ (acc rest : List (κ × α)),
      (acc ++ rest).Pairwise (fun p q => (p.1 == q.1) = false) →
      rest.foldl (fun acc p => upsert p.1 p.2 acc) acc = acc ++ rest from key [] pairs h
  intro acc rest
  induction rest generalizing acc with
  | nil => simp
  | cons p rest ih =>
    intro hp
    have hnew : ∀ q ∈ acc, (q.1 == p.1) = false := fun q hq =>
      (List.pairwise_append.1 hp).2.2 q hq p (by simp)
    have happ : acc ++ p :: rest = acc ++ [p] ++ rest := by simp
    rw [List.foldl_cons, upsert_of_new hnew, happ]
    exact ih (acc ++ [p]) (happ ▸ hp)

end Pairs

/-! ## Values -/

/-- What a stored document is read as before it is checked. Fields keep their order. -/
inductive Value where
  | scalar (s : Scalar)
  | list (items : List Value)
  | record (fields : List (Scalar × Value))

namespace Value

/-- The value that stands for nothing. -/
@[match_pattern] abbrev null : Value := .scalar .null

/-- A truth value. -/
@[match_pattern] abbrev bool (b : Bool) : Value := .scalar (.bool b)

/-- An integer. -/
@[match_pattern] abbrev int (n : Int) : Value := .scalar (.int n)

/-- A float. -/
@[match_pattern] abbrev real (x : Float) : Value := .scalar (.real x)

/-- A text. -/
@[match_pattern] abbrev text (s : String) : Value := .scalar (.text s)

instance : Inhabited Value := ⟨null⟩

/-- The name of the kind of a value, as messages give it. -/
def kind : Value → String
  | null => "NoneType"
  | bool _ => "bool"
  | int _ => "int"
  | real _ => "float"
  | text _ => "str"
  | list _ => "list"
  | record _ => "dict"

/-- Nothing, false, zero and what is empty count as false; all else counts as true. -/
def truth : Value → Bool
  | null => false
  | bool b => b
  | int n => n != 0
  | real x => !Decimal.isZero x
  | text s => !s.isEmpty
  | list items => !items.isEmpty
  | record fields => !fields.isEmpty

/-- A value in one line, texts between quotes. -/
def shown : Value → String
  | scalar s => s.shown
  | list items => "[" ++ ", ".intercalate (shownItems items) ++ "]"
  | record fields => "\x7b" ++ ", ".intercalate (shownFields fields) ++ "\x7d"
where
  shownItems : List Value → List String
    | [] => []
    | v :: rest => shown v :: shownItems rest
  shownFields : List (Scalar × Value) → List String
    | [] => []
    | (k, v) :: rest => (k.shown ++ ": " ++ shown v) :: shownFields rest

/-- A value as text: a text is itself, and all else is as shown. -/
def display : Value → String
  | scalar s => s.display
  | v => shown v

/-- The value of the field of a record that has a name. -/
def named? (fields : List (Scalar × Value)) (name : String) : Option Value :=
  fields.lookup (.text name)

end Value

end Markwright
