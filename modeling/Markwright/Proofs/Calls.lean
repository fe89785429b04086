import Markwright.Proofs.Arguments
import Markwright.Proofs.Entries
import Markwright.Proofs.MarkedLine

/-!
# Calls told apart

Two calls of one name are told apart by what they write. A block form begins otherwise than a
compact form, and its arguments end where its tag does; in a compact form with arguments the content
stands between quotes behind them. Each argument is read back whatever follows it, so a row of
arguments is followed by the same in both calls (`argumentRow_append_inj`). Only the compact form of
a call without arguments leaves its content bare, so that a content may look like the arguments of
another call (`PosesAs`); no other two calls are written alike (`text_eq_iff`), and the prefixes of
the lines do not change this (`Session.written_call_eq_iff`).
-/

namespace Markwright

namespace Call

variable {id : String} {xs ys : List (String × String)} {c d : Option String}

/-! ## Rows of arguments -/

/-- The name of an argument can be told from its value and from a content in quotes. -/
def IsName (name : String) : Prop := '=' ∉ name.toList ∧ '"' ∉ name.toList

instance (name : String) : Decidable (IsName name) := inferInstanceAs (Decidable (_ ∧ _))

/-- What neither goes on with a number nor begins another argument. -/
structure Closes (rest : List Char) : Prop where
  digit : ∀ c ∈ rest.head?, (Text.digitValue? c).isSome = false
  space : ∀ cs, rest = ' ' :: cs → cs.head? = some '"'

theorem closes_of_head {c : Char} (cs : List Char) (hdigit : (Text.digitValue? c).isSome = false)
    (hspace : c ≠ ' ') : Closes (c :: cs) where
  digit := by
    rintro _ ⟨⟩
    exact hdigit
  space := fun _ h => absurd (List.cons.inj h).1 hspace

/-- What stands behind the first of some arguments. -/
def behindFirst (later : List (String × String)) (rest : List Char) : List Char :=
  if later.isEmpty then rest else ' ' :: (argumentRow later ++ rest)

theorem argumentRow_cons_append (x : String × String) (later : List (String × String))
    (rest : List Char) : argumentRow (x :: later) ++ rest =
      (argument x.1 x.2).toList ++ behindFirst later rest := by
  rcases later with _ | ⟨y, later⟩
  · rw [argumentRow_singleton]
    rfl
  · rw [argumentRow_cons_cons, List.append_assoc]
    rfl

theorem head?_argumentRow_ne {x : String × String} (hx : IsName x.1)
    (later : List (String × String)) (rest : List Char) :
    (argumentRow (x :: later) ++ rest).head? ≠ some '"' := by
  rw [argumentRow_cons_append, toList_argument]
  rcases hname : x.1.toList with _ | ⟨c, cs⟩
  · simp
  · have hquote : '"' ∉ c :: cs := hname ▸ hx.2
    have hne := (not_or.1 (mt List.mem_cons.2 hquote)).1
    simpa using Ne.symm hne

theorem readArgument?_argumentRow {x : String × String} (hx : IsName x.1)
    (later : List (String × String)) {rest : List Char} (hrest : Closes rest) :
    readArgument? (fun c => (Text.digitValue? c).isSome) (argumentRow (x :: later) ++ rest) =
      some (x, behindFirst later rest) := by
  rw [argumentRow_cons_append]
  refine readArgument?_argument hx.1 (fun _ hdigit => hdigit) (fun c hc => ?_) x.2
  rcases later with _ | ⟨y, later⟩
  · exact hrest.digit c hc
  · obtain rfl : ' ' = c := by simpa [behindFirst] using hc
    decide

/-- A row of arguments is told from what closes it. -/
theorem argumentRow_append_inj {p q : List Char} (hp : Closes p) (hq : Closes q) :
    ∀ {xs ys : List (String × String)}, xs ≠ [] → ys ≠ [] → (∀ x ∈ xs, IsName x.1) →
      (∀ y ∈ ys, IsName y.1) → argumentRow xs ++ p = argumentRow ys ++ q → xs = ys ∧ p = q
  | [], _, hxs, _, _, _, _ => absurd rfl hxs
  | _, [], _, hys, _, _, _ => absurd rfl hys
  | x :: xs, y :: ys, _, _, hx, hy, heq => by
    have hread := readArgument?_argumentRow (hx x List.mem_cons_self) xs hp
    rw [heq, readArgument?_argumentRow (hy y List.mem_cons_self) ys hq, Option.some.injEq,
      Prod.mk.injEq] at hread
    obtain ⟨rfl, hbehind⟩ := hread
    have hxs : ∀ x ∈ xs, IsName x.1 := fun x hm => hx x (List.mem_cons_of_mem _ hm)
    have hys : ∀ y ∈ ys, IsName y.1 := fun y hm => hy y (List.mem_cons_of_mem _ hm)
    rcases xs with _ | ⟨x, xs⟩ <;> rcases ys with _ | ⟨y, ys⟩
    · exact ⟨rfl, hbehind.symm⟩
    -- What closes one row would begin another argument.
    · exact absurd (hp.space _ hbehind.symm) (head?_argumentRow_ne (hys y List.mem_cons_self) ys q)
    · exact absurd (hq.space _ hbehind) (head?_argumentRow_ne (hxs x List.mem_cons_self) xs p)
    · have hrest := argumentRow_append_inj hp hq (List.cons_ne_nil x xs) (List.cons_ne_nil y ys)
        hxs hys (List.cons.inj hbehind).2.symm
      exact ⟨congrArg (_ :: ·) hrest.1, hrest.2⟩

/-! ## The two forms -/

/-- The text of a call that is not code. -/
def text (id : String) (xs : List (String × String)) (content : Option String) : String :=
  let args := xs.map fun (name, value) => (name, some value)
  if isCompact content then compact id args content else block id args content

/-- The content of a compact form with arguments, and the parenthesis. -/
def quoted (content : Option String) : List Char :=
  content.elim [')'] fun s => ' ' :: '"' :: (s.toList ++ ['"', ')'])

/-- What a compact form carries between its parentheses. -/
def carried (xs : List (String × String)) (content : Option String) : String :=
  if xs.isEmpty then content.getD ""
  else String.ofList (argumentRow xs) ++ content.elim "" fun s => " \"" ++ s ++ "\""

/-- A call without arguments has in its bare content what another one carries. -/
structure PosesAs (xs : List (String × String)) (c : Option String)
    (ys : List (String × String)) (d : Option String) : Prop where
  without : xs = []
  other : ys ≠ []
  compact : isCompact c = true
  otherCompact : isCompact d = true
  content : c = some (carried ys d)

theorem given?_eq (hc : c ≠ some "") : given? c = c := by
  rcases c with _ | s
  · rfl
  · have hs : s ≠ "" := fun h => hc (congrArg some h)
    simp [given?, Option.filter, hs]

theorem toList_arguments_map (xs : List (String × String)) :
    (arguments (xs.map fun (name, value) => (name, some value))).toList = argumentRow xs := by
  rw [toList_arguments, given_map_some]

theorem toList_compact_nil (id : String) (hc : c ≠ some "") :
    (compact id [] c).toList = ("#[" ++ id ++ "]").toList ++
      c.elim [] fun s => '(' :: (s.toList ++ [')']) := by
  rw [compact, given?_eq hc]
  cases c <;> simp

theorem toList_compact (id : String) (hxs : xs ≠ []) (hc : c ≠ some "") :
    (compact id (xs.map fun (name, value) => (name, some value)) c).toList =
      ("#[" ++ id ++ "]").toList ++ '(' :: (argumentRow xs ++ quoted c) := by
  have hempty : (xs.map fun (name, value) => (name, some value)).isEmpty = false := by
    simpa using hxs
  rw [compact, given?_eq hc, hempty]
  cases c <;> simp [toList_arguments_map, quoted]

theorem argumentRow_quoted (hxs : xs ≠ []) (c : Option String) :
    argumentRow xs ++ quoted c = (carried xs c).toList ++ [')'] := by
  have hempty : xs.isEmpty = false := by simpa using hxs
  cases c <;> simp [carried, quoted, hempty]

theorem closes_quoted (c : Option String) : Closes (quoted c) := by
  rcases c with _ | s
  · exact closes_of_head [] (by decide) (by decide)
  · refine ⟨?_, ?_⟩
    · rintro _ ⟨⟩
      decide
    · rintro cs hcs
      rw [← (List.cons.inj hcs).2]
      rfl

theorem quoted_inj (h : quoted c = quoted d) : c = d := by
  rcases c with _ | s <;> rcases d with _ | t
  · rfl
  · simp [quoted] at h
  · simp [quoted] at h
  · have hsame : s.toList = t.toList := by simpa [quoted] using h
    rw [String.toList_injective hsame]

/-- The arguments of a block form, and the end of its opening tag. -/
def tagRest (xs : List (String × String)) (rest : List Char) : List Char :=
  if xs.isEmpty then '}' :: rest else ' ' :: (argumentRow xs ++ '}' :: rest)

theorem toList_block (id : String) (xs : List (String × String)) {s : String} (hs : s ≠ "") :
    (block id (xs.map fun (name, value) => (name, some value)) (some s)).toList =
      ("\x7b\x7b" ++ id).toList ++
        tagRest xs ('}' :: '\n' :: (s ++ ("\x7b\x7b/" ++ id ++ "\x7d\x7d")).toList) := by
  have hgiven : given? (some s) = some s := given?_eq fun h => hs (Option.some.inj h)
  rw [block, hgiven]
  rcases xs with _ | ⟨x, xs⟩
  · simp [tagRest]
  · have hrow := toList_arguments_map (x :: xs)
    rw [List.map_cons] at hrow
    simp [tagRest, hrow]

theorem tagRest_inj {p q : List Char} (hx : ∀ x ∈ xs, IsName x.1) (hy : ∀ y ∈ ys, IsName y.1)
    (h : tagRest xs p = tagRest ys q) : xs = ys ∧ p = q := by
  have hcloses : ∀ rest, Closes ('}' :: rest) := fun rest =>
    closes_of_head rest (by decide) (by decide)
  rcases xs with _ | ⟨x, xs⟩ <;> rcases ys with _ | ⟨y, ys⟩
  · exact ⟨rfl, (List.cons.inj h).2⟩
  · exact absurd (List.cons.inj h).1 (by decide)
  · exact absurd (List.cons.inj h).1 (by decide)
  · obtain ⟨hsame, hrest⟩ := argumentRow_append_inj (hcloses p) (hcloses q)
      (List.cons_ne_nil x xs) (List.cons_ne_nil y ys) hx hy (List.cons.inj h).2
    exact ⟨hsame, (List.cons.inj hrest).2⟩

/-! ## Calls -/

theorem compact_nil_eq_iff (hc : c ≠ some "") (hd : d ≠ some "") :
    compact id [] c = compact id [] d ↔ c = d := by
  refine ⟨fun h => ?_, fun h => h ▸ rfl⟩
  have hlist := congrArg String.toList h
  rw [toList_compact_nil id hc, toList_compact_nil id hd, List.append_cancel_left_eq] at hlist
  rcases c with _ | s <;> rcases d with _ | t
  · rfl
  · cases hlist
  · cases hlist
  · have hsame : s.toList = t.toList := by simpa using hlist
    rw [String.toList_injective hsame]

/-- A content without arguments against arguments. -/
theorem compact_nil_eq_compact_iff (hys : ys ≠ []) (hc : c ≠ some "") (hd : d ≠ some "") :
    compact id [] c = compact id (ys.map fun (name, value) => (name, some value)) d ↔
      c = some (carried ys d) := by
  rw [← String.toList_inj, toList_compact_nil id hc, toList_compact id hys hd,
    argumentRow_quoted hys, List.append_cancel_left_eq]
  rcases c with _ | s
  · simp
  · simp [← String.toList_inj]

theorem compact_eq_iff (hxs : xs ≠ []) (hys : ys ≠ []) (hx : ∀ x ∈ xs, IsName x.1)
    (hy : ∀ y ∈ ys, IsName y.1) (hc : c ≠ some "") (hd : d ≠ some "") :
    compact id (xs.map fun (name, value) => (name, some value)) c =
      compact id (ys.map fun (name, value) => (name, some value)) d ↔ xs = ys ∧ c = d := by
  refine ⟨fun h => ?_, fun h => by rw [h.1, h.2]⟩
  have hlist := congrArg String.toList h
  rw [toList_compact id hxs hc, toList_compact id hys hd, List.append_cancel_left_eq] at hlist
  have hrows := argumentRow_append_inj (closes_quoted c) (closes_quoted d) hxs hys hx hy
    (List.cons.inj hlist).2
  exact ⟨hrows.1, quoted_inj hrows.2⟩

theorem block_eq_iff (hx : ∀ x ∈ xs, IsName x.1) (hy : ∀ y ∈ ys, IsName y.1) {s t : String}
    (hs : s ≠ "") (ht : t ≠ "") :
    block id (xs.map fun (name, value) => (name, some value)) (some s) =
      block id (ys.map fun (name, value) => (name, some value)) (some t) ↔ xs = ys ∧ s = t := by
  refine ⟨fun h => ?_, fun h => by rw [h.1, h.2]⟩
  have hlist := congrArg String.toList h
  rw [toList_block id xs hs, toList_block id ys ht, List.append_cancel_left_eq] at hlist
  obtain ⟨hsame, hrest⟩ := tagRest_inj hx hy hlist
  have hcontent : s.toList = t.toList := by simpa using hrest
  exact ⟨hsame, String.toList_injective hcontent⟩

theorem compact_ne_block (id : String) (xs ys : Arguments) (c d : Option String) :
    compact id xs c ≠ block id ys d := by
  intro h
  have hhead := congrArg (·.toList.head?) h
  unfold compact block at hhead
  dsimp only at hhead
  split at hhead <;> split at hhead <;> simp at hhead

/-- Two calls of one name are written alike only if they carry the same, or if one poses as the
other. -/
theorem text_eq_iff (id : String) (hx : ∀ x ∈ xs, IsName x.1) (hy : ∀ y ∈ ys, IsName y.1)
    (hc : c ≠ some "") (hd : d ≠ some "") :
    text id xs c = text id ys d ↔ (xs = ys ∧ c = d) ∨ PosesAs xs c ys d ∨ PosesAs ys d xs c := by
  have hpose : ∀ {zs ws : List (String × String)} {e f : Option String}, PosesAs zs e ws f →
      e ≠ some "" → f ≠ some "" → text id zs e = text id ws f := by
    intro zs ws e f h he hf
    obtain ⟨rfl, hws, hze, hwf, hcontent⟩ := h
    rw [text, text, if_pos hze, if_pos hwf]
    exact (compact_nil_eq_compact_iff hws he hf).2 hcontent
  refine ⟨fun h => ?_, ?_⟩
  · by_cases hcc : isCompact c = true <;> by_cases hdc : isCompact d = true <;>
      simp only [text, hcc, hdc, if_true] at h
    · rcases xs with _ | ⟨x, xs⟩ <;> rcases ys with _ | ⟨y, ys⟩
      · exact .inl ⟨rfl, (compact_nil_eq_iff hc hd).1 h⟩
      · have hys := List.cons_ne_nil y ys
        exact .inr (.inl ⟨rfl, hys, hcc, hdc, (compact_nil_eq_compact_iff hys hc hd).1 h⟩)
      · have hxs := List.cons_ne_nil x xs
        exact .inr (.inr ⟨rfl, hxs, hdc, hcc, (compact_nil_eq_compact_iff hxs hd hc).1 h.symm⟩)
      · have hxs := List.cons_ne_nil x xs
        have hys := List.cons_ne_nil y ys
        exact .inl ((compact_eq_iff hxs hys hx hy hc hd).1 h)
    · exact absurd h (compact_ne_block id _ _ c d)
    · exact absurd h.symm (compact_ne_block id _ _ d c)
    · rcases c with _ | s
      · exact absurd rfl hcc
      rcases d with _ | t
      · exact absurd rfl hdc
      have hsame := (block_eq_iff hx hy (fun hs => hc (congrArg some hs))
        fun ht => hd (congrArg some ht)).1 h
      exact .inl ⟨hsame.1, congrArg some hsame.2⟩
  · rintro (⟨rfl, rfl⟩ | h | h)
    · rfl
    · exact hpose h hc hd
    · exact (hpose h hd hc).symm

end Call

/-! ## Calls on a page -/

theorem Printer.indentBreaks_cons (indent : List Char) (c : Char) (cs : List Char) :
    indentBreaks indent (c :: cs) =
      c :: ((if c = '\n' then indent else []) ++ indentBreaks indent cs) := by
  by_cases hc : c = '\n' <;> simp [indentBreaks, hc]

/-- Line prefixes come behind line breaks only, so a page tells what was written on it. -/
theorem Printer.indentBreaks_injective (indent : List Char) :
    Function.Injective (indentBreaks indent) := by
  intro cs ds h
  induction cs generalizing ds with
  | nil =>
    rcases ds with _ | ⟨d, ds⟩
    · rfl
    · rw [indentBreaks_cons] at h
      cases h
  | cons c cs ih =>
    rcases ds with _ | ⟨d, ds⟩
    · rw [indentBreaks_cons] at h
      cases h
    · rw [indentBreaks_cons, indentBreaks_cons] at h
      obtain ⟨rfl, hrest⟩ := List.cons.inj h
      rw [ih (List.append_cancel_left hrest)]

theorem Printer.written_print_eq_iff (p : Printer) (around : Surroundings) {s t : String}
    {c d : Char} {cs ds : List Char} (hs : s.toList = c :: cs) (ht : t.toList = d :: ds)
    (hc : c ≠ '\n') (hd : d ≠ '\n') :
    (p.print around s).written = (p.print around t).written ↔ s = t := by
  refine ⟨fun h => ?_, fun h => h ▸ rfl⟩
  have hspassed : (p.flush around).passed s = s.toList :=
    passed_of_head?_ne fun _ => by simpa [hs] using hc
  have htpassed : (p.flush around).passed t = t.toList :=
    passed_of_head?_ne fun _ => by simpa [ht] using hd
  have hlist := congrArg String.toList h
  rw [print, print, written_write _ _ (by simp [hspassed, hs]),
    written_write _ _ (by simp [htpassed, ht]), hspassed, htpassed, before, before,
    List.append_cancel_left_eq, List.append_cancel_left_eq] at hlist
  exact String.toList_injective (indentBreaks_injective _ hlist)

namespace Call

theorem toList_text (id : String) (xs : List (String × String)) (c : Option String) :
    ∃ d ds, (text id xs c).toList = d :: ds ∧ d ≠ '\n' := by
  unfold text compact block
  dsimp only
  split
  · split <;> simp
  · split <;> simp

/-- The parameters of a call as it carries them. -/
def entriesOf (parameters : Option Parameters) : List (String × String) :=
  (parameters.getD .empty).entries

end Call

namespace Session

theorem callText_of_ne {style : Style} {id : String} (hid : id ≠ style.options.codeCallId)
    (parameters : Option Parameters) (content : Option String) (inLine : Bool) :
    callText style id parameters content inLine =
      Call.text id (Call.entriesOf parameters) content := by
  rw [callText, if_neg hid]
  rfl

/-- On one page, in one place, two calls of one name leave the same only if they carry the same, or
if the content of one that has no parameters is what the other carries. -/
theorem written_call_eq_iff (style : Style) (s : Session) {id : String}
    (hid : id ≠ style.options.codeCallId) {p q : Option Parameters}
    (hp : ∀ x ∈ Call.entriesOf p, Call.IsName x.1) (hq : ∀ y ∈ Call.entriesOf q, Call.IsName y.1)
    {c d : Option String} (hc : c ≠ some "") (hd : d ≠ some "") (inLine : Bool) :
    ∃ t u, writeLeaf style s (.call id p c inLine) = .ok t ∧
      writeLeaf style s (.call id q d inLine) = .ok u ∧
      (t.printers.active.written = u.printers.active.written ↔
        (Call.entriesOf p = Call.entriesOf q ∧ c = d) ∨
          Call.PosesAs (Call.entriesOf p) c (Call.entriesOf q) d ∨
          Call.PosesAs (Call.entriesOf q) d (Call.entriesOf p) c) := by
  refine ⟨_, _, rfl, rfl, ?_⟩
  obtain ⟨a, as, hfirst, ha⟩ := Call.toList_text id (Call.entriesOf p) c
  obtain ⟨b, bs, hsecond, hb⟩ := Call.toList_text id (Call.entriesOf q) d
  rw [callText_of_ne hid, callText_of_ne hid, active_print, active_print,
    Printer.written_print_eq_iff _ _ hfirst hsecond ha hb]
  exact Call.text_eq_iff id hp hq hc hd

end Session

/-- One parameter, which is a number. -/
def numbered : Parameters := .ofList [("a", "1")]

theorem Session.written_call_eq_iff_numbered :
    "m" ≠ (Style.standard {}).options.codeCallId ∧
      (∀ x ∈ Call.entriesOf (some numbered), Call.IsName x.1) ∧
      (∀ y ∈ Call.entriesOf none, Call.IsName y.1) ∧
      some "x" ≠ some "" ∧ some "a=1 \"y\"" ≠ some "" ∧
      ∃ t u, writeLeaf (.standard {}) (.start (.standard {}))
          (.call "m" (some numbered) (some "x") true) = .ok t ∧
        writeLeaf (.standard {}) (.start (.standard {}))
          (.call "m" none (some "a=1 \"y\"") true) = .ok u ∧
        t.printers.active.written ≠ u.printers.active.written := by
  have hid : "m" ≠ (Style.standard {}).options.codeCallId := by decide
  have hp : ∀ x ∈ Call.entriesOf (some numbered), Call.IsName x.1 := by decide
  have hq : ∀ y ∈ Call.entriesOf none, Call.IsName y.1 := nofun
  have hc : some "x" ≠ some "" := by decide
  have hd : some "a=1 \"y\"" ≠ some "" := by decide
  refine ⟨hid, hp, hq, hc, hd, ?_⟩
  obtain ⟨t, u, ht, hu, htold⟩ :=
    written_call_eq_iff (.standard {}) (.start (.standard {})) hid hp hq hc hd true
  refine ⟨t, u, ht, hu, fun h => ?_⟩
  rcases htold.1 h with ⟨-, hcontent⟩ | hpose | hpose
  · exact absurd hcontent (by decide)
  · exact absurd hpose.without (by decide)
  · exact absurd hpose.content (by decide +kernel)

/-- A bare content that reads like a parameter is written as one. -/
theorem bareContent_written_as_argument :
    "m" ≠ (Style.standard {}).options.codeCallId ∧
      (∀ x ∈ Call.entriesOf (some numbered), Call.IsName x.1) ∧
      Call.entriesOf none ≠ Call.entriesOf (some numbered) ∧
      ∃ t u, Session.writeLeaf (.standard {}) (.start (.standard {}))
          (.call "m" none (some "a=1") true) = .ok t ∧
        Session.writeLeaf (.standard {}) (.start (.standard {}))
          (.call "m" (some numbered) none true) = .ok u ∧
        t.printers.active.written = "#[m](a=1)" ∧ u.printers.active.written = "#[m](a=1)" := by
  refine ⟨by decide, by decide, by decide, _, _, rfl, rfl, ?_, ?_⟩ <;> decide +kernel

end Markwright
