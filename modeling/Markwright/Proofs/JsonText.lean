import Mathlib.Data.List.Basic
import Markwright.Json.Reader
import Markwright.Json.Writer
import Markwright.Proofs.Cutting

/-!
# Written JSON reads back

The reader takes exactly what the writer wrote for a value and leaves what follows it
(`readValue_write`), if that cannot be taken for more of a number. So it is by induction on the
value: the items of a list and the fields of a record are told apart by the commas between them, and
the blanks of an indentation are skipped. Fuel is used for nesting and for items; twice the length
of its text is more than a value needs (`cost_lt_length`).

Numbers with a fraction are left out: values without them are called portable.
-/

namespace Markwright.Json

/-- Nothing in the value is a number with a fraction, and the keys of its records are texts, each
there once. -/
inductive Portable : Value → Prop where
  | null : Portable .null
  | bool (b : Bool) : Portable (.bool b)
  | int (n : Int) : Portable (.int n)
  | text (s : String) : Portable (.text s)
  | list {items : List Value} (h : ∀ v ∈ items, Portable v) : Portable (.list items)
  | record {fields : List (String × Value)} (hkeys : (fields.map Prod.fst).Nodup)
      (h : ∀ f ∈ fields, Portable f.2) :
      Portable (.record (fields.map fun f => (.text f.1, f.2)))

/-! ## Blanks -/

/-- What may stand between two values. -/
def isGap (c : Char) : Bool := c == ' ' || c == '\t' || c == '\n' || c == '\r'

theorem skipBlanks_append {gap rest : List Char} (h : ∀ c ∈ gap, isGap c = true) :
    skipBlanks (gap ++ rest) = skipBlanks rest := by
  induction gap with
  | nil => rfl
  | cons c gap ih =>
    have hc : isGap c = true := h c (by simp)
    rw [← ih fun d hd => h d (by simp [hd])]
    exact List.dropWhile_cons_of_pos hc

theorem skipBlanks_cons {c : Char} {rest : List Char} (h : isGap c = false) :
    skipBlanks (c :: rest) = c :: rest :=
  List.dropWhile_cons_of_neg (by simpa [isGap] using h)

theorem isGap_lineStart (indent : Option Nat) (depth : Nat) :
    ∀ c ∈ (lineStart indent depth).toList, isGap c = true := by
  intro c hc
  cases indent with
  | none => simp [lineStart] at hc
  | some width =>
    simp only [lineStart, String.toList_append, String.toList_ofList, List.mem_append,
      List.mem_replicate] at hc
    rcases hc with hc | ⟨-, rfl⟩
    · obtain rfl : c = '\n' := by simpa using hc
      decide
    · decide

theorem isGap_of_mem_space : ∀ c ∈ [' '], isGap c = true := List.forall_mem_singleton.2 rfl

theorem separator_spec (indent : Option Nat) (depth : Nat) :
    ∃ gap, (separator indent depth).toList = ',' :: gap ∧ ∀ c ∈ gap, isGap c = true := by
  cases indent with
  | none => exact ⟨[' '], by simp [separator], isGap_of_mem_space⟩
  | some width =>
    exact ⟨(lineStart (some width) depth).toList, by simp [separator], isGap_lineStart _ _⟩

/-! ## Texts -/

theorem hexDigits_control : ∀ n < 32, ∃ a b, Text.hexDigits 4 n = ['0', '0', a, b] ∧
    unit? '0' '0' a b = some n := by
  have h : ∀ n < 32, Text.hexDigits 4 n = ['0', '0', (n / 16).digitChar, (n % 16).digitChar] ∧
      unit? '0' '0' (n / 16).digitChar (n % 16).digitChar = some n := by decide
  exact fun n hn => ⟨_, _, h n hn⟩

/-- A written character is read as its code point, whatever follows it but nothing. -/
theorem readText_writeChar (opening : List Char) (c x : Char) (more : List Char) :
    readText opening (writeChar c ++ x :: more) =
      prepend c.toNat (readText opening (x :: more)) := by
  unfold writeChar
  split
  · rename_i h
    rcases h with rfl | rfl <;> rfl
  split
  · subst_vars
    rfl
  split
  · subst_vars
    rfl
  split
  · subst_vars
    rfl
  split
  · subst_vars
    rfl
  split
  · subst_vars
    rfl
  split
  · rename_i h
    obtain ⟨a, b, hd, hu⟩ := hexDigits_control c.toNat h
    rw [hd]
    simp only [List.cons_append, List.nil_append, readText, hu]
  · rename_i hplain _ _ _ _ _ hcontrol
    have hquote : c ≠ '"' ∧ c ≠ '\\' := not_or.1 hplain
    rw [List.singleton_append, readText, if_neg hcontrol]
    · exact hquote.1
    · exact fun h => absurd h hquote.2
    · exact fun _ _ _ _ _ _ h => absurd h hquote.2
    · exact fun _ _ h => absurd h hquote.2

theorem readText_write (opening rest : List Char) : ∀ cs : List Char,
    readText opening (cs.flatMap writeChar ++ '"' :: rest) = .ok (cs.map Char.toNat, rest)
  | [] => by simp [readText]
  | c :: cs => by
    have ih := readText_write opening rest cs
    have hmore : ∃ x more, cs.flatMap writeChar ++ '"' :: rest = x :: more := by
      rcases hw : cs.flatMap writeChar with _ | ⟨x, more⟩
      · exact ⟨_, _, rfl⟩
      · exact ⟨x, _, rfl⟩
    obtain ⟨x, more, hx⟩ := hmore
    rw [List.flatMap_cons, List.append_assoc, hx, readText_writeChar, ← hx, ih]
    rfl

theorem not_surrogate (c : Char) : ¬ (0xD800 ≤ c.toNat ∧ c.toNat < 0xE000) := by
  have h := c.valid
  simp only [UInt32.isValidChar, Nat.isValidChar] at h
  change ¬ (0xD800 ≤ c.val.toNat ∧ c.val.toNat < 0xE000)
  omega

theorem single_toNat (c : Char) : joinUnits.single c.toNat = c := by
  rw [joinUnits.single, if_neg (not_surrogate c), Char.ofNat_toNat]

theorem joinUnits_toNat : ∀ cs : List Char, joinUnits (cs.map Char.toNat) = cs
  | [] => rfl
  | [c] => by simp [joinUnits, single_toNat]
  | c :: d :: cs => by
    have hc := not_surrogate c
    have ih := joinUnits_toNat (d :: cs)
    rw [List.map_cons] at ih
    rw [List.map_cons, List.map_cons, joinUnits, if_neg (by omega), single_toNat, ih]

theorem writeText_toList (s : String) :
    (writeText s).toList = '"' :: (s.toList.flatMap writeChar ++ ['"']) := by
  simp [writeText]

/-! ## Numbers -/

/-- What follows cannot be taken for more of an integer. -/
def Stops (rest : List Char) : Prop :=
  ∀ c ∈ rest.head?, isDigit c = false ∧ c ≠ '.' ∧ c ≠ 'e' ∧ c ≠ 'E'

theorem isDigit_iff {c : Char} : isDigit c = true ↔ c.isDigit = true := by
  simp [isDigit, Char.isDigit, Char.le_def]

theorem isDigit_of_mem {n : Nat} {c : Char} (h : c ∈ Nat.toDigits 10 n) : isDigit c = true :=
  isDigit_iff.2 (Nat.isDigit_of_mem_toDigits (by decide) (by decide) h)

theorem head_toDigits_ne (n : Nat) (h : 0 < n) (rest : List Char) :
    Nat.toDigits 10 n ≠ '0' :: rest := by
  induction n using Nat.strongRecOn generalizing rest with
  | _ n ih =>
  rw [Nat.toDigits_eq_if (by decide)]
  split
  · rename_i hlt
    intro he
    simp only [List.cons.injEq] at he
    have hall : ∀ m < 10, m.digitChar = '0' → m = 0 := by decide
    have := hall n hlt he.1
    omega
  · intro he
    rcases hd : Nat.toDigits 10 (n / 10) with _ | ⟨c, more⟩
    · exact Nat.toDigits_ne_nil hd
    · rw [hd, List.cons_append] at he
      simp only [List.cons.injEq] at he
      exact ih (n / 10) (by omega) (by omega) more (he.1 ▸ hd)

theorem span_digits {ds rest : List Char} (hd : ∀ c ∈ ds, isDigit c = true) (hr : Stops rest) :
    (ds ++ rest).span isDigit = (ds, rest) :=
  span_append hd fun c hc => (hr c hc).1

theorem wholeDigits_toDigits (n : Nat) {rest : List Char} (hr : Stops rest) :
    wholeDigits (Nat.toDigits 10 n ++ rest) = (Nat.toDigits 10 n, rest) := by
  rcases Nat.eq_zero_or_pos n with rfl | hn
  · rfl
  · unfold wholeDigits
    split
    · rename_i more he
      rcases hd : Nat.toDigits 10 n with _ | ⟨c, ds⟩
      · exact absurd hd Nat.toDigits_ne_nil
      · rw [hd, List.cons_append] at he
        cases he
        exact absurd hd (head_toDigits_ne n hn ds)
    · exact span_digits (fun c => isDigit_of_mem) hr

theorem fractionDigits?_of_stops {rest : List Char} (hr : Stops rest) :
    fractionDigits? rest = none := by
  unfold fractionDigits?
  split
  · exact absurd rfl (hr '.' rfl).2.1
  · rfl

theorem exponent?_of_stops {rest : List Char} (hr : Stops rest) : exponent? rest = none := by
  cases rest with
  | nil => rfl
  | cons c rest =>
    have h := hr c rfl
    simp [exponent?, h.2.2.1, h.2.2.2]

theorem natOf_toDigits (n : Nat) : natOf (Nat.toDigits 10 n) = n := Nat.ofDigitChars_ten_toDigits

theorem readNumber?_unsigned (n : Nat) {rest : List Char} (hr : Stops rest) :
    readNumber? (Nat.toDigits 10 n ++ rest) = some (.int n, rest) := by
  rcases hd : Nat.toDigits 10 n with _ | ⟨c, ds⟩
  · exact absurd hd Nat.toDigits_ne_nil
  have hminus : c ≠ '-' := by
    rintro rfl
    have h := isDigit_of_mem (n := n) (c := '-') (by simp [hd])
    revert h
    decide
  unfold readNumber?
  rw [List.cons_append]
  split
  rename_i negative digits hsign
  split at hsign
  · rename_i h
    cases h
    exact absurd rfl hminus
  · cases hsign
    rw [← List.cons_append, ← hd, wholeDigits_toDigits n hr, hd]
    simp [fractionDigits?_of_stops hr, exponent?_of_stops hr, ← hd, natOf_toDigits]

theorem readNumber?_signed (n : Nat) {rest : List Char} (hr : Stops rest) :
    readNumber? ('-' :: (Nat.toDigits 10 n ++ rest)) = some (.int (-n), rest) := by
  rcases hd : Nat.toDigits 10 n with _ | ⟨c, ds⟩
  · exact absurd hd Nat.toDigits_ne_nil
  simp only [readNumber?, ← hd, wholeDigits_toDigits n hr]
  rw [hd]
  simp [fractionDigits?_of_stops hr, exponent?_of_stops hr, ← hd, natOf_toDigits]

theorem toList_toString (n : Int) : (toString n).toList =
    if 0 ≤ n then Nat.toDigits 10 n.toNat else '-' :: Nat.toDigits 10 (-n).toNat := by
  rw [Int.toString_eq_repr, Int.repr_eq_if]
  split
  · rw [Nat.repr_eq_ofList_toDigits, String.toList_ofList]
  · simp [Nat.repr_eq_ofList_toDigits]

theorem readNumber?_int (n : Int) {rest : List Char} (hr : Stops rest) :
    readNumber? ((toString n).toList ++ rest) = some (.int n, rest) := by
  rw [toList_toString]
  split
  · rename_i h
    rw [readNumber?_unsigned _ hr, Int.toNat_of_nonneg h]
  · rename_i h
    have hn : (((-n).toNat : Nat) : Int) = -n := Int.toNat_of_nonneg (by omega)
    rw [List.cons_append, readNumber?_signed _ hr, hn, Int.neg_neg]

/-! ## Values -/

/-- How deep reading a value goes, every item counted as a level of its own. -/
def cost : Value → Nat
  | .scalar _ => 1
  | .list items => 1 + costItems items
  | .record fields => 1 + costFields fields
where
  costItems : List Value → Nat
    | [] => 0
    | v :: rest => 1 + cost v + costItems rest
  costFields : List (Scalar × Value) → Nat
    | [] => 0
    | (_, v) :: rest => 1 + cost v + costFields rest

/-- The text of the value is read as the value, at any depth and whatever follows. -/
def ReadsBack (indent : Option Nat) (v : Value) : Prop :=
  ∀ fuel depth rest, cost v ≤ fuel → Stops rest →
    readValue fuel ((writeAt indent depth v).toList ++ rest) = .ok (v, rest)

variable {indent : Option Nat}

theorem stops_of_isGap {c : Char} {rest : List Char} (h : isGap c = true) : Stops (c :: rest) := by
  intro d hd
  obtain rfl : c = d := by simpa using hd
  simp only [isGap, Bool.or_eq_true, beq_iff_eq] at h
  rcases h with ((rfl | rfl) | rfl) | rfl <;> decide

theorem stops_append {gap rest : List Char} (hgap : ∀ c ∈ gap, isGap c = true)
    (hrest : Stops rest) : Stops (gap ++ rest) := by
  cases gap with
  | nil => exact hrest
  | cons c gap => exact stops_of_isGap (hgap c (by simp))

/-- Texts with what stands between them. -/
def joined (indent : Option Nat) (depth : Nat) (texts : List String) : List Char :=
  (separator indent depth).toList.intercalate (texts.map String.toList)

theorem joined_cons_cons (depth : Nat) (s t : String) (more : List String) :
    joined indent depth (s :: t :: more) =
      s.toList ++ ((separator indent depth).toList ++ joined indent depth (t :: more)) := by
  simp [joined, List.intercalate_cons_cons]

theorem joined_cons (indent : Option Nat) (depth : Nat) (s : String) : ∀ more : List String,
    ∃ tail, joined indent depth (s :: more) = s.toList ++ tail
  | [] => ⟨[], by simp [joined]⟩
  | t :: more => ⟨_, joined_cons_cons depth s t more⟩

theorem toList_enclose {depth : Nat} {opening closing : String} {items : List String}
    (h : items ≠ []) : (enclose indent depth opening closing items).toList =
      opening.toList ++ ((lineStart indent (depth + 1)).toList ++ (joined indent (depth + 1)
        items ++ ((lineStart indent depth).toList ++ closing.toList))) := by
  simp [enclose, h, joined]

/-- A value begins with no blank, no closing bracket and no mark of an encoding. -/
theorem exists_head (indent : Option Nat) {v : Value} (h : Portable v) (depth : Nat) :
    ∃ c more, (writeAt indent depth v).toList = c :: more ∧ isGap c = false ∧ c ≠ ']' ∧
      c ≠ '\uFEFF' := by
  cases h with
  | null =>
    exact ⟨'n', ['u', 'l', 'l'], by simp [writeAt, writeScalar], by decide, by decide, by decide⟩
  | bool b =>
    cases b
    · exact ⟨'f', ['a', 'l', 's', 'e'], by simp [writeAt, writeScalar], by decide, by decide,
        by decide⟩
    · exact ⟨'t', ['r', 'u', 'e'], by simp [writeAt, writeScalar], by decide, by decide, by decide⟩
  | int n =>
    simp only [writeAt, writeScalar, toList_toString]
    split
    · rcases hd : Nat.toDigits 10 n.toNat with _ | ⟨c, ds⟩
      · exact absurd hd Nat.toDigits_ne_nil
      · have hc : isDigit c = true := isDigit_of_mem (n := n.toNat) (by simp [hd])
        have hne : ∀ d, isDigit d = false → c ≠ d := by
          rintro d hno rfl
          rw [hc] at hno
          cases hno
        refine ⟨c, ds, rfl, Bool.eq_false_iff.2 fun hg => ?_, hne ']' (by decide),
          hne '\uFEFF' (by decide)⟩
        have hstop : Stops [c] := stops_of_isGap hg
        exact absurd rfl (hne c (hstop c rfl).1)
    · exact ⟨_, _, rfl, by decide, by decide, by decide⟩
  | text s => exact ⟨'"', _, writeText_toList s, by decide, by decide, by decide⟩
  | @list items h =>
    rw [writeAt]
    by_cases hnil : writeAt.writeItems indent depth items = []
    · exact ⟨'[', [']'], by rw [hnil]; simp [enclose], by decide, by decide, by decide⟩
    · exact ⟨'[', _, toList_enclose hnil, by decide, by decide, by decide⟩
  | @record fields hkeys h =>
    rw [writeAt]
    by_cases hnil : writeAt.writeFields indent depth
        (fields.map fun f => (.text f.1, f.2)) = []
    · exact ⟨'\x7b', ['\x7d'], by rw [hnil]; simp [enclose], by decide, by decide, by decide⟩
    · exact ⟨'\x7b', _, toList_enclose hnil, by decide, by decide, by decide⟩

theorem writeItems_eq_map (depth : Nat) : ∀ items : List Value,
    writeAt.writeItems indent depth items = items.map (writeAt indent (depth + 1))
  | [] => rfl
  | v :: rest => by rw [writeAt.writeItems, writeItems_eq_map depth rest, List.map_cons]

/-- A field as text. -/
def writeField (indent : Option Nat) (depth : Nat) (f : String × Value) : String :=
  writeText f.1 ++ ": " ++ writeAt indent (depth + 1) f.2

theorem writeFields_eq_map (depth : Nat) : ∀ fields : List (String × Value),
    writeAt.writeFields indent depth (fields.map fun f => (.text f.1, f.2)) =
      fields.map (writeField indent depth)
  | [] => rfl
  | f :: rest => by
    rw [List.map_cons, writeAt.writeFields, writeFields_eq_map depth rest]
    rfl

/-- After a comma the next item or key is found behind the blanks. -/
theorem skipBlanks_separator (indent : Option Nat) (depth : Nat) {rest : List Char}
    (h : skipBlanks rest = rest) :
    ∃ gap, (separator indent depth).toList ++ rest = ',' :: (gap ++ rest) ∧
      skipBlanks (gap ++ rest) = rest := by
  obtain ⟨gap, hsep, hgap⟩ := separator_spec indent depth
  exact ⟨gap, by rw [hsep, List.cons_append], by rw [skipBlanks_append hgap, h]⟩

theorem skipBlanks_joined (indent : Option Nat) (depth : Nat) {c : Char} {s : String}
    {head : List Char} (hs : s.toList = c :: head) (hc : isGap c = false) (texts : List String)
    (rest : List Char) :
    skipBlanks (joined indent depth (s :: texts) ++ rest) =
      joined indent depth (s :: texts) ++ rest := by
  obtain ⟨tail, htail⟩ := joined_cons indent depth s texts
  rw [htail, hs]
  exact skipBlanks_cons hc

theorem stops_comma (rest : List Char) : Stops (',' :: rest) := by
  intro c hc
  obtain rfl : ',' = c := by simpa using hc
  decide

theorem readItems_write (depth : Nat) {gap : List Char} (hgap : ∀ c ∈ gap, isGap c = true)
    (rest : List Char) : ∀ (items : List Value) (fuel : Nat), items ≠ [] →
      (∀ v ∈ items, Portable v ∧ ReadsBack indent v) → cost.costItems items ≤ fuel →
      readItems fuel (joined indent (depth + 1) (items.map (writeAt indent (depth + 1))) ++
        (gap ++ ']' :: rest)) = .ok (items, rest)
  | [], _, hne, _, _ => absurd rfl hne
  | v :: items, 0, _, _, hfuel => by
    simp only [cost.costItems] at hfuel
    omega
  | [v], fuel + 1, _, h, hfuel => by
    simp only [cost.costItems] at hfuel
    have hend : Stops (gap ++ ']' :: rest) := by
      refine stops_append hgap fun c hc => ?_
      obtain rfl : ']' = c := by simpa using hc
      decide
    have hv := (h v (by simp)).2 fuel (depth + 1) (gap ++ ']' :: rest) (by omega) hend
    simp only [joined, List.map_cons, List.map_nil, List.intercalate_singleton, readItems, hv]
    simp only [bind, Except.bind, skipBlanks_append hgap]
    rfl
  | v :: w :: items, fuel + 1, _, h, hfuel => by
    simp only [cost.costItems] at hfuel
    have ih := readItems_write depth hgap rest (w :: items) fuel (by simp)
      (fun x hx => h x (by simp [hx])) (by simp only [cost.costItems]; omega)
    obtain ⟨c, more, hhead, hblank, -⟩ :=
      exists_head indent (h w (by simp)).1 (depth + 1)
    have hstart := skipBlanks_joined indent (depth + 1) hhead hblank
      (items.map (writeAt indent (depth + 1))) (gap ++ ']' :: rest)
    rw [List.map_cons] at ih
    rw [List.map_cons, List.map_cons, joined_cons_cons, List.append_assoc, List.append_assoc]
    generalize joined indent (depth + 1) _ ++ (gap ++ ']' :: rest) = after at ih hstart ⊢
    obtain ⟨gap', hsep, hskip⟩ := skipBlanks_separator indent (depth + 1) hstart
    have hv := (h v (by simp)).2 fuel (depth + 1) _ (by omega) (stops_comma (gap' ++ after))
    rw [hsep, readItems, hv]
    simp only [bind, Except.bind]
    rw [skipBlanks_cons (by decide)]
    simp only [hskip, ih]
    rfl

theorem toList_writeField (depth : Nat) (f : String × Value) (rest : List Char) :
    (writeField indent depth f).toList ++ rest = '"' :: (f.1.toList.flatMap writeChar ++
      '"' :: ':' :: ' ' :: ((writeAt indent (depth + 1) f.2).toList ++ rest)) := by
  simp [writeField, writeText_toList]

/-- A field is read up to what follows its value. -/
theorem readFields_writeField (depth : Nat) {f : String × Value} {fuel : Nat} {rest : List Char}
    (hp : Portable f.2) (hf : ReadsBack indent f.2) (hfuel : cost f.2 ≤ fuel) (hr : Stops rest) :
    readFields (fuel + 1) ((writeField indent depth f).toList ++ rest) =
      match skipBlanks rest with
      | '}' :: rest => pure ([(.text f.1, f.2)], rest)
      | ',' :: rest => do
        let (fields, rest) ← readFields fuel (skipBlanks rest)
        pure ((.text f.1, f.2) :: fields, rest)
      | rest => .error ⟨.commaExpected, rest.length⟩ := by
  obtain ⟨c, more, hhead, hblank, -⟩ := exists_head indent hp (depth + 1)
  have hv := hf fuel (depth + 1) rest hfuel hr
  have hcolon : skipBlanks (':' :: ' ' :: ((writeAt indent (depth + 1) f.2).toList ++ rest)) =
      ':' :: ' ' :: ((writeAt indent (depth + 1) f.2).toList ++ rest) := skipBlanks_cons (by decide)
  have hvalue : skipBlanks (' ' :: ((writeAt indent (depth + 1) f.2).toList ++ rest)) =
      (writeAt indent (depth + 1) f.2).toList ++ rest := by
    rw [hhead]
    exact (skipBlanks_append isGap_of_mem_space).trans (skipBlanks_cons hblank)
  rw [toList_writeField, readFields]
  simp only [readText_write, bind, Except.bind, hcolon, joinUnits_toNat, String.ofList_toList]
  simp only [hvalue, hv]
  rfl

theorem readFields_write (depth : Nat) {gap : List Char} (hgap : ∀ c ∈ gap, isGap c = true)
    (rest : List Char) : ∀ (fields : List (String × Value)) (fuel : Nat), fields ≠ [] →
      (∀ f ∈ fields, Portable f.2 ∧ ReadsBack indent f.2) →
      cost.costFields (fields.map fun f => (.text f.1, f.2)) ≤ fuel →
      readFields fuel (joined indent (depth + 1) (fields.map (writeField indent depth)) ++
        (gap ++ '}' :: rest)) = .ok (fields.map fun f => (.text f.1, f.2), rest)
  | [], _, hne, _, _ => absurd rfl hne
  | f :: fields, 0, _, _, hfuel => by
    simp only [List.map_cons, cost.costFields] at hfuel
    omega
  | [f], fuel + 1, _, h, hfuel => by
    simp only [List.map_cons, cost.costFields] at hfuel
    have hend : Stops (gap ++ '}' :: rest) := by
      refine stops_append hgap fun c hc => ?_
      obtain rfl : '}' = c := by simpa using hc
      decide
    obtain ⟨hp, hf⟩ := h f (by simp)
    have hcost : cost f.2 ≤ fuel := by omega
    have hfield := readFields_writeField depth hp hf hcost hend
    simp only [joined, List.map_cons, List.map_nil, List.intercalate_singleton, hfield,
      skipBlanks_append hgap]
    rfl
  | f :: g :: fields, fuel + 1, _, h, hfuel => by
    simp only [List.map_cons, cost.costFields] at hfuel
    have ih := readFields_write depth hgap rest (g :: fields) fuel (by simp)
      (fun x hx => h x (by simp [hx])) (by simp only [List.map_cons, cost.costFields]; omega)
    have hhead : (writeField indent depth g).toList = _ :=
      (List.append_nil _).symm.trans (toList_writeField depth g [])
    have hstart := skipBlanks_joined indent (depth + 1) hhead (by decide)
      (fields.map (writeField indent depth)) (gap ++ '}' :: rest)
    rw [List.map_cons] at ih
    rw [List.map_cons, List.map_cons, joined_cons_cons, List.append_assoc, List.append_assoc]
    generalize joined indent (depth + 1) _ ++ (gap ++ '}' :: rest) = after at ih hstart ⊢
    obtain ⟨gap', hsep, hskip⟩ := skipBlanks_separator indent (depth + 1) hstart
    obtain ⟨hp, hf⟩ := h f (by simp)
    have hcost : cost f.2 ≤ fuel := by omega
    have hfield := readFields_writeField depth hp hf hcost
      (stops_comma (gap' ++ after))
    rw [hsep, hfield, skipBlanks_cons (by decide)]
    simp only [hskip, ih]
    rfl

theorem pairwise_keys {fields : List (String × Value)} (h : (fields.map Prod.fst).Nodup) :
    (fields.map fun f => (Scalar.text f.1, f.2)).Pairwise fun p q => (p.1 == q.1) = false := by
  rw [List.pairwise_map]
  refine (List.pairwise_map.1 h).imp fun hne => ?_
  simpa using hne

theorem readValue_of_digit {c : Char} {more rest : List Char} {v : Value} (hc : isDigit c = true)
    (fuel : Nat) (h : readNumber? (c :: more) = some (v, rest)) :
    readValue (fuel + 1) (c :: more) = .ok (v, rest) := by
  rw [readValue, h]
  · rfl
  all_goals
    intros
    rename_i heq
    cases heq
    exact absurd hc (by decide)

theorem readValue_of_minus {c : Char} {more rest : List Char} {v : Value} (hc : isDigit c = true)
    (fuel : Nat) (h : readNumber? ('-' :: c :: more) = some (v, rest)) :
    readValue (fuel + 1) ('-' :: c :: more) = .ok (v, rest) := by
  rw [readValue, h]
  · rfl
  case x_11 =>
    intro _ heq
    cases heq
    exact absurd hc (by decide)
  all_goals
    intros
    rename_i heq
    simp at heq

theorem readValue_list {c : Char} {gap more rest : List Char} {items : List Value}
    (hgap : ∀ c ∈ gap, isGap c = true) (hc : isGap c = false) (hne : c ≠ ']') (fuel : Nat)
    (h : readItems fuel (c :: more) = .ok (items, rest)) :
    readValue (fuel + 1) ('[' :: (gap ++ c :: more)) = .ok (.list items, rest) := by
  simp only [readValue, skipBlanks_append hgap, skipBlanks_cons hc]
  split
  · rename_i heq
    cases heq
    exact absurd rfl hne
  · rw [h]
    rfl

theorem readValue_record {gap more rest : List Char} {fields : List (Scalar × Value)}
    (hgap : ∀ c ∈ gap, isGap c = true) (fuel : Nat)
    (h : readFields fuel ('"' :: more) = .ok (fields, rest)) :
    readValue (fuel + 1) ('\x7b' :: (gap ++ '"' :: more)) =
      .ok (.record (mergePairs fields), rest) := by
  simp only [readValue, skipBlanks_append hgap, skipBlanks_cons (c := '"') (by decide)]
  split
  · rename_i heq
    simp at heq
  · rw [h]
    rfl

theorem readsBack_of_succ {v : Value} (h : ∀ fuel depth rest, cost v ≤ fuel + 1 → Stops rest →
    readValue (fuel + 1) ((writeAt indent depth v).toList ++ rest) = .ok (v, rest)) :
    ReadsBack indent v := by
  intro fuel depth rest hfuel hr
  cases fuel with
  | zero => cases v <;> simp only [cost] at hfuel <;> omega
  | succ fuel => exact h fuel depth rest hfuel hr

/-- The text of a portable value is read back, and what follows it is left. -/
theorem readValue_write (indent : Option Nat) {v : Value} (h : Portable v) :
    ReadsBack indent v := by
  induction h with
  | null =>
    refine readsBack_of_succ fun fuel depth rest _ _ => ?_
    simp [writeAt, writeScalar, readValue, pure, Except.pure]
  | bool b =>
    refine readsBack_of_succ fun fuel depth rest _ _ => ?_
    cases b <;> simp [writeAt, writeScalar, readValue, pure, Except.pure]
  | int n =>
    refine readsBack_of_succ fun fuel depth rest _ hr => ?_
    have hn := readNumber?_int n hr
    have hdigit : ∀ m : Nat, ∃ c ds, Nat.toDigits 10 m = c :: ds ∧ isDigit c = true := by
      intro m
      rcases hd : Nat.toDigits 10 m with _ | ⟨c, ds⟩
      · exact absurd hd Nat.toDigits_ne_nil
      · exact ⟨c, ds, rfl, isDigit_of_mem (n := m) (by simp [hd])⟩
    simp only [writeAt, writeScalar]
    rw [toList_toString] at hn ⊢
    by_cases hsign : 0 ≤ n
    · rw [if_pos hsign] at hn ⊢
      obtain ⟨c, ds, hd, hc⟩ := hdigit n.toNat
      rw [hd] at hn ⊢
      exact readValue_of_digit hc fuel hn
    · rw [if_neg hsign] at hn ⊢
      obtain ⟨c, ds, hd, hc⟩ := hdigit (-n).toNat
      rw [hd] at hn ⊢
      exact readValue_of_minus hc fuel hn
  | text s =>
    refine readsBack_of_succ fun fuel depth rest _ _ => ?_
    simp only [writeAt, writeScalar, writeText_toList, List.cons_append, List.append_assoc,
      List.nil_append, readValue, readText_write, bind, Except.bind, joinUnits_toNat,
      String.ofList_toList]
    rfl
  | @list items h ih =>
    refine readsBack_of_succ fun fuel depth rest hfuel _ => ?_
    rw [cost] at hfuel
    rw [writeAt, writeItems_eq_map]
    rcases items with _ | ⟨v, items⟩
    · simp [enclose, readValue, skipBlanks, pure, Except.pure]
    · have hall : ∀ w ∈ v :: items, Portable w ∧ ReadsBack indent w := fun w hw =>
        ⟨h w hw, ih w hw⟩
      have hitems := readItems_write depth (isGap_lineStart indent depth) rest (v :: items) fuel
        (by simp) hall (by omega)
      obtain ⟨c, more, hhead, hblank, hne, -⟩ :=
        exists_head indent (h v (by simp)) (depth + 1)
      obtain ⟨tail, htail⟩ := joined_cons indent (depth + 1)
        (writeAt indent (depth + 1) v) (items.map (writeAt indent (depth + 1)))
      rw [List.map_cons, htail, hhead] at hitems
      rw [List.map_cons, toList_enclose (by simp), htail, hhead]
      simp only [List.append_assoc, List.cons_append] at hitems ⊢
      exact readValue_list (isGap_lineStart indent (depth + 1)) hblank hne fuel hitems
  | @record fields hkeys h ih =>
    refine readsBack_of_succ fun fuel depth rest hfuel _ => ?_
    rw [cost] at hfuel
    rw [writeAt, writeFields_eq_map]
    rcases fields with _ | ⟨f, fields⟩
    · simp [enclose, readValue, skipBlanks, pure, Except.pure]
    · have hall : ∀ g ∈ f :: fields, Portable g.2 ∧ ReadsBack indent g.2 := fun g hg =>
        ⟨h g hg, ih g hg⟩
      have hfields := readFields_write depth (isGap_lineStart indent depth) rest (f :: fields) fuel
        (by simp) hall (by omega)
      obtain ⟨tail, htail⟩ := joined_cons indent (depth + 1)
        (writeField indent depth f) (fields.map (writeField indent depth))
      rw [List.map_cons, htail, List.append_assoc, toList_writeField] at hfields
      rw [List.map_cons, toList_enclose (by simp), htail]
      simp only [List.append_assoc]
      rw [toList_writeField]
      have hrecord := readValue_record (isGap_lineStart indent (depth + 1)) fuel hfields
      rw [mergePairs_eq_self (pairwise_keys hkeys)] at hrecord
      exact hrecord

/-! ## Whole texts -/

theorem length_joined_cons_cons (indent : Option Nat) (depth : Nat) (s t : String)
    (more : List String) :
    s.toList.length + (joined indent depth (t :: more)).length ≤
      (joined indent depth (s :: t :: more)).length := by
  rw [joined_cons_cons]
  simp only [List.length_append]
  omega

theorem costItems_le (indent : Option Nat) (depth : Nat) : ∀ items : List Value,
    (∀ v ∈ items, cost v + 1 ≤ 2 * (writeAt indent (depth + 1) v).toList.length) →
    cost.costItems items ≤
      2 * (joined indent (depth + 1) (items.map (writeAt indent (depth + 1)))).length
  | [], _ => by simp [cost.costItems]
  | [v], h => by
    have hv := h v (by simp)
    simp only [cost.costItems, joined, List.map_cons, List.map_nil, List.intercalate_singleton]
    omega
  | v :: w :: items, h => by
    have hv := h v (by simp)
    have ih := costItems_le indent depth (w :: items) fun x hx => h x (by simp [hx])
    have hlen := length_joined_cons_cons indent (depth + 1)
      (writeAt indent (depth + 1) v) (writeAt indent (depth + 1) w)
      (items.map (writeAt indent (depth + 1)))
    rw [cost.costItems]
    simp only [List.map_cons] at ih ⊢
    omega

theorem costFields_le (indent : Option Nat) (depth : Nat) : ∀ fields : List (String × Value),
    (∀ f ∈ fields, cost f.2 + 1 ≤ 2 * (writeAt indent (depth + 1) f.2).toList.length) →
    cost.costFields (fields.map fun f => (.text f.1, f.2)) ≤
      2 * (joined indent (depth + 1) (fields.map (writeField indent depth))).length
  | [], _ => by simp [cost.costFields]
  | [f], h => by
    have hf := h f (by simp)
    simp only [List.map_cons, List.map_nil, cost.costFields, joined, List.intercalate_singleton,
      writeField, String.toList_append, List.length_append]
    omega
  | f :: g :: fields, h => by
    have hf := h f (by simp)
    have ih := costFields_le indent depth (g :: fields) fun x hx => h x (by simp [hx])
    have hlen := length_joined_cons_cons indent (depth + 1)
      (writeField indent depth f) (writeField indent depth g)
      (fields.map (writeField indent depth))
    have hfield : (writeAt indent (depth + 1) f.2).toList.length ≤
        (writeField indent depth f).toList.length := by
      simp only [writeField, String.toList_append, List.length_append]
      omega
    rw [List.map_cons, cost.costFields]
    simp only [List.map_cons] at ih ⊢
    omega

theorem cost_lt_length (indent : Option Nat) {v : Value} (h : Portable v) :
    ∀ depth, cost v + 1 ≤ 2 * (writeAt indent depth v).toList.length := by
  have hscalar : ∀ {s : Scalar}, Portable (.scalar s) → ∀ depth,
      cost (.scalar s) + 1 ≤ 2 * (writeAt indent depth (.scalar s)).toList.length := by
    intro s hs depth
    obtain ⟨c, more, hhead, -, -⟩ := exists_head indent hs depth
    rw [hhead, cost, List.length_cons]
    omega
  induction h with
  | null => exact hscalar .null
  | bool b => exact hscalar (.bool b)
  | int n => exact hscalar (.int n)
  | text s => exact hscalar (.text s)
  | @list items h ih =>
    intro depth
    have hitems := costItems_le indent depth items fun v hv => ih v hv (depth + 1)
    rw [cost, writeAt, writeItems_eq_map]
    rcases items with _ | ⟨v, items⟩
    · simp [cost.costItems, enclose]
    · rw [List.map_cons] at hitems ⊢
      rw [toList_enclose (by simp)]
      simp only [List.length_append, String.reduceToList, List.length_singleton]
      omega
  | @record fields hkeys h ih =>
    intro depth
    have hfields := costFields_le indent depth fields fun f hf => ih f hf (depth + 1)
    rw [cost, writeAt, writeFields_eq_map]
    rcases fields with _ | ⟨f, fields⟩
    · simp [cost.costFields, enclose]
    · rw [List.map_cons] at hfields ⊢
      rw [toList_enclose (by simp)]
      simp only [List.length_append, String.reduceToList, List.length_singleton]
      omega

/-- Reading what was written for a portable value gives the value. -/
theorem read_write (indent : Option Nat) {v : Value} (h : Portable v) :
    read (write indent v) = .ok v := by
  obtain ⟨c, more, hhead, hblank, -, hmark⟩ := exists_head indent h 0
  have hcost := cost_lt_length indent h 0
  have hvalue := readValue_write indent h
    (2 * (write indent v).toList.length + 2) 0 [] (by rw [write]; omega) nofun
  rw [List.append_nil] at hvalue
  have hall : readAll (write indent v).toList = .ok v := by
    rw [readAll]
    · rw [write] at hvalue ⊢
      rw [hhead, skipBlanks_cons hblank, ← hhead, hvalue]
      rfl
    · intro rest heq
      rw [write, hhead] at heq
      cases heq
      exact hmark rfl
  rw [read, hall]
  rfl

end Markwright.Json
