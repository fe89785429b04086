import Markwright.Call
import Markwright.Proofs.Cutting

/-!
# Arguments read back

The arguments of a call are read one after the other: a name up to the equals sign, then a value,
which stands between quotes or ends where the bare characters end. In a quoted value a backslash
protects the character after it, and these are the backslashes that writing puts in
(`readQuoted?_protectQuotes`). A value that is a number is written bare, so nothing in it is
protected. What stands behind an argument is left over as it is (`readArgument?_argument`), and a
space parts it from the next one (`readArguments?_arguments`).
-/

namespace Markwright.Call

/-! ## Reading -/

/-- A quoted value and what stands behind its closing quote, told whether the next character is
protected. -/
def readQuoted? : Bool → List Char → Option (List Char × List Char)
  | _, [] => none
  | isProtected, c :: cs =>
    if c = '"' ∧ isProtected = false then some ([], cs)
    else if c = '\\' ∧ isProtected = false then readQuoted? true cs
    else (readQuoted? false cs).map fun (value, after) => (c :: value, after)

/-- A value and what stands behind it. One without quotes goes on as long as the characters are
bare. -/
def readValue? (bare : Char → Bool) : List Char → Option (List Char × List Char)
  | '"' :: cs => readQuoted? false cs
  | cs => some (cs.span bare)

/-- The name of an argument with its value, and what stands behind them. -/
def readArgument? (bare : Char → Bool) (cs : List Char) :
    Option ((String × String) × List Char) :=
  match cs.span (· != '=') with
  | (_, []) => none
  | (name, _ :: rest) =>
    (readValue? bare rest).map fun (value, after) =>
      ((String.ofList name, String.ofList value), after)

variable {bare : Char → Bool} {cs value rest after : List Char}

theorem length_readQuoted? {isProtected : Bool}
    (h : readQuoted? isProtected cs = some (value, after)) : after.length < cs.length := by
  fun_induction readQuoted? isProtected cs generalizing value with
  | case1 => cases h
  | case2 _ c cs _ =>
    cases h
    exact Nat.lt_succ_self _
  | case3 _ c cs _ _ ih => exact Nat.lt_succ_of_lt (ih h)
  | case4 _ c cs _ _ ih =>
    obtain ⟨⟨value', after'⟩, hrest, hpair⟩ := Option.map_eq_some_iff.1 h
    cases hpair
    exact Nat.lt_succ_of_lt (ih hrest)

theorem length_readValue? (h : readValue? bare cs = some (value, after)) :
    after.length ≤ cs.length := by
  unfold readValue? at h
  split at h
  · exact Nat.le_succ_of_le (Nat.le_of_lt (length_readQuoted? h))
  · rw [List.span_eq_takeWhile_dropWhile, Option.some.injEq, Prod.mk.injEq] at h
    exact h.2 ▸ List.length_dropWhile_le bare _

theorem length_readArgument? {arg : String × String}
    (h : readArgument? bare cs = some (arg, after)) : after.length < cs.length := by
  unfold readArgument? at h
  rw [List.span_eq_takeWhile_dropWhile] at h
  split at h
  · cases h
  · rename_i name c rest hsplit
    obtain ⟨⟨value, after'⟩, hvalue, hpair⟩ := Option.map_eq_some_iff.1 h
    cases hpair
    have hle := length_readValue? hvalue
    have hdrop := List.length_dropWhile_le (· != '=') cs
    rw [(Prod.mk.inj hsplit).2, List.length_cons] at hdrop
    omega

/-- Arguments with a space between each two of them. -/
def readArgumentRow? (cs : List Char) : Option (List (String × String)) :=
  match _h : readArgument? (· != ' ') cs with
  | none => none
  | some (arg, []) => some [arg]
  | some (arg, c :: rest) => if c = ' ' then (readArgumentRow? rest).map (arg :: ·) else none
termination_by cs.length
decreasing_by exact Nat.lt_of_succ_lt (length_readArgument? _h)

/-- The arguments that a text writes. An empty text writes none. -/
def readArguments? (s : String) : Option (List (String × String)) :=
  if s.isEmpty then some [] else readArgumentRow? s.toList

/-! ## What is written -/

/-- The arguments that are written: those that have a value. -/
def given (args : Arguments) : List (String × String) :=
  args.filterMap fun (name, value) => value.map (name, ·)

theorem given_map_some (entries : List (String × String)) :
    given (entries.map fun (name, value) => (name, some value)) = entries := by
  rw [given, List.filterMap_map]
  exact List.filterMap_some

/-- A value as it is written. -/
def valueText (value : String) : List Char :=
  if Text.isDecimal (protectQuotes value.toList) then protectQuotes value.toList
  else '"' :: (protectQuotes value.toList ++ ['"'])

/-- Arguments as they are written. -/
def argumentRow (args : List (String × String)) : List Char :=
  [' '].intercalate (args.map fun arg => (argument arg.1 arg.2).toList)

theorem toList_argument (name value : String) :
    (argument name value).toList = name.toList ++ '=' :: valueText value := by
  unfold argument valueText
  dsimp only
  split <;> simp

theorem toList_arguments (args : Arguments) :
    (arguments args).toList = argumentRow (given args) := by
  have hsame : (args.filterMap fun (name, value) => value.map (argument name)) =
      (given args).map fun arg => argument arg.1 arg.2 := by
    rw [given, List.map_filterMap]
    refine congrArg (args.filterMap ·) (funext fun ⟨name, value⟩ => ?_)
    cases value <;> rfl
  rw [arguments, String.toList_intercalate, hsame, List.map_map, argumentRow]
  rfl

theorem argumentRow_cons_cons (arg next : String × String) (args : List (String × String)) :
    argumentRow (arg :: next :: args) =
      (argument arg.1 arg.2).toList ++ ' ' :: argumentRow (next :: args) := by
  simp [argumentRow, List.intercalate_cons_cons]

theorem argumentRow_singleton (arg : String × String) :
    argumentRow [arg] = (argument arg.1 arg.2).toList := by
  simp [argumentRow]

theorem argumentRow_ne_nil (arg : String × String) (args : List (String × String)) :
    argumentRow (arg :: args) ≠ [] := by
  rcases args with _ | ⟨next, args⟩
  · simp [argumentRow_singleton, toList_argument]
  · simp [argumentRow_cons_cons]

/-! ## Values -/

theorem protectQuotes_cons (c : Char) (cs : List Char) : protectQuotes (c :: cs) =
    (if c = '\\' ∨ c = '"' then ['\\', c] else [c]) ++ protectQuotes cs := rfl

theorem readQuoted?_protectQuotes (cs rest : List Char) :
    readQuoted? false (protectQuotes cs ++ '"' :: rest) = some (cs, rest) := by
  induction cs with
  | nil => simp [protectQuotes, readQuoted?]
  | cons c cs ih =>
    rw [protectQuotes_cons]
    by_cases hc : c = '\\' ∨ c = '"'
    · simp [hc, readQuoted?, ih]
    · obtain ⟨hslash, hquote⟩ := not_or.1 hc
      simp [hslash, hquote, readQuoted?, ih]

theorem protectQuotes_of_forall : ∀ {cs : List Char}, (∀ c ∈ cs, ¬ (c = '\\' ∨ c = '"')) →
    protectQuotes cs = cs
  | [], _ => rfl
  | c :: cs, h => by
    have hrest := protectQuotes_of_forall fun d hd => h d (List.mem_cons_of_mem c hd)
    rw [protectQuotes_cons, if_neg (h c List.mem_cons_self), hrest, List.singleton_append]

/-- A number holds nothing that is protected. -/
theorem protectQuotes_of_isDecimal (h : Text.isDecimal (protectQuotes cs) = true) :
    protectQuotes cs = cs ∧ ∀ c ∈ cs, (Text.digitValue? c).isSome = true := by
  have hdigits : ∀ c ∈ protectQuotes cs, (Text.digitValue? c).isSome = true := by
    simp only [Text.isDecimal, Bool.and_eq_true, List.all_eq_true] at h
    exact h.2
  have hplain : ∀ c ∈ cs, ¬ (c = '\\' ∨ c = '"') := by
    intro c hc hprotected
    have hslash : '\\' ∈ protectQuotes cs :=
      List.mem_flatMap.2 ⟨c, hc, by rw [if_pos hprotected]; exact List.mem_cons_self⟩
    exact absurd (hdigits _ hslash) (by decide)
  have hsame := protectQuotes_of_forall hplain
  exact ⟨hsame, hsame ▸ hdigits⟩

/-- All digits are bare. -/
abbrev TakesDigits (bare : Char → Bool) : Prop :=
  ∀ c, (Text.digitValue? c).isSome = true → bare c = true

theorem readValue?_valueText (hbare : TakesDigits bare) (hrest : ∀ c ∈ rest.head?, bare c = false)
    (value : String) : readValue? bare (valueText value ++ rest) = some (value.toList, rest) := by
  unfold valueText
  split
  · rename_i hdecimal
    obtain ⟨hsame, hdigits⟩ := protectQuotes_of_isDecimal hdecimal
    rw [hsame] at hdecimal ⊢
    rcases hcs : value.toList with _ | ⟨c, cs⟩
    · rw [hcs] at hdecimal
      cases hdecimal
    rw [hcs] at hdigits
    have hquote : c ≠ '"' := by
      rintro rfl
      exact absurd (hdigits '"' List.mem_cons_self) (by decide)
    have hspan : (c :: cs ++ rest).span bare = (c :: cs, rest) :=
      span_append (fun d hd => hbare d (hdigits d hd)) hrest
    rw [readValue?, hspan]
    rintro _ hcons
    exact hquote (List.cons.inj hcons).1
  · rw [List.cons_append, List.append_assoc, List.singleton_append, readValue?]
    exact readQuoted?_protectQuotes value.toList rest

/-! ## Arguments -/

theorem takesDigits_ne_space : TakesDigits (· != ' ') := by
  intro c hc
  rw [bne_iff_ne]
  rintro rfl
  exact absurd hc (by decide)

/-- An argument is read back whatever follows it, unless that goes on with its value. -/
theorem readArgument?_argument {name : String} (hname : '=' ∉ name.toList)
    (hbare : TakesDigits bare) (hrest : ∀ c ∈ rest.head?, bare c = false) (value : String) :
    readArgument? bare ((argument name value).toList ++ rest) = some ((name, value), rest) := by
  have htake : ∀ c ∈ name.toList, (c != '=') = true := fun c hc => by
    simpa using fun heq : c = '=' => hname (heq ▸ hc)
  have hspan : (name.toList ++ '=' :: (valueText value ++ rest)).span (· != '=') =
      (name.toList, '=' :: (valueText value ++ rest)) := span_of_forall htake (by decide)
  rw [toList_argument, List.append_assoc, List.cons_append, readArgument?, hspan]
  dsimp only
  rw [readValue?_valueText hbare hrest]
  simp

theorem readArgumentRow?_last {arg : String × String}
    (h : readArgument? (· != ' ') cs = some (arg, [])) : readArgumentRow? cs = some [arg] := by
  rw [readArgumentRow?]
  split <;> simp_all

theorem readArgumentRow?_next {arg : String × String}
    (h : readArgument? (· != ' ') cs = some (arg, ' ' :: rest)) :
    readArgumentRow? cs = (readArgumentRow? rest).map (arg :: ·) := by
  rw [readArgumentRow?]
  split <;> simp_all

theorem readArgumentRow?_argumentRow : ∀ {args : List (String × String)}, args ≠ [] →
    (∀ arg ∈ args, '=' ∉ arg.1.toList) → readArgumentRow? (argumentRow args) = some args
  | [], h, _ => absurd rfl h
  | [arg], _, hnames => by
    have harg : readArgument? (· != ' ') ((argument arg.1 arg.2).toList ++ []) = some (arg, []) :=
      readArgument?_argument (hnames arg List.mem_cons_self) takesDigits_ne_space (by simp) arg.2
    rw [List.append_nil] at harg
    rw [argumentRow_singleton, readArgumentRow?_last harg]
  | arg :: next :: args, _, hnames => by
    have hnext : ∀ c ∈ (' ' :: argumentRow (next :: args)).head?, (c != ' ') = false := by simp
    have harg := readArgument?_argument (hnames arg List.mem_cons_self) takesDigits_ne_space hnext
      arg.2
    have hlater := readArgumentRow?_argumentRow (List.cons_ne_nil next args)
      fun later hm => hnames later (List.mem_cons_of_mem arg hm)
    rw [argumentRow_cons_cons, readArgumentRow?_next harg, hlater, Option.map_some]

/-- Values under names are read back in their order, if no name holds an equals sign. -/
theorem readArguments?_arguments {entries : List (String × String)}
    (hnames : ∀ entry ∈ entries, '=' ∉ entry.1.toList) :
    readArguments? (arguments (entries.map fun (name, value) => (name, some value))) =
      some entries := by
  have hrow := toList_arguments (entries.map fun (name, value) => (name, some value))
  rw [given_map_some] at hrow
  rcases entries with _ | ⟨entry, rest⟩
  · rfl
  have hne : ¬ (arguments ((entry :: rest).map fun (name, value) =>
      (name, some value))).isEmpty = true := by
    rw [String.isEmpty_iff, ← String.toList_eq_nil_iff, hrow]
    exact argumentRow_ne_nil entry rest
  rw [readArguments?, if_neg hne, hrow]
  exact readArgumentRow?_argumentRow (List.cons_ne_nil entry rest) hnames

/-- Quotes and backslashes, digits of another script, blanks and an empty value. -/
def mixedEntries : List (String × String) :=
  [("width", "10"), ("a b", "say \"hi\"\\"), ("n", "\u0663"), ("", "x=\n\" y"), ("z", "")]

theorem readArguments?_arguments_mixedEntries :
    (∀ entry ∈ mixedEntries, '=' ∉ entry.1.toList) ∧
      readArguments? (arguments (mixedEntries.map fun (name, value) => (name, some value))) =
        some mixedEntries := by
  have hnames : ∀ entry ∈ mixedEntries, '=' ∉ entry.1.toList := by decide
  exact ⟨hnames, readArguments?_arguments hnames⟩

end Markwright.Call
