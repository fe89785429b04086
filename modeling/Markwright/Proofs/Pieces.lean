import Markwright.Proofs.Extension

/-!
# Markup in pieces

What two texts leave on a page hangs on what they are together (`Printer.write_write`): only the
first piece of which something passes is met by suppressed breaks and a blank page, the line
prefixes come after each line break wherever the pieces meet, and the last piece that is not empty
says whether a line has begun. So a construct may be printed piece by piece as it is put together.
The pieces of links, images, calls, code and tables are given here, and together they are the texts
that a session prints at once (`PrinterStack.printed_in_pieces`).
-/

namespace Markwright

namespace Printer

variable {p : Printer} {s t : String}

theorem write_congr (h : p.passed s = p.passed t) : p.write s = p.write t := by
  by_cases hs : p.passed s = []
  · rw [write_of_passed_nil hs, write_of_passed_nil (h ▸ hs)]
  · rw [write_of_passed_ne hs, write_of_passed_ne (h ▸ hs), h]

theorem passed_append_of_nil (h : p.passed s = []) : p.passed (s ++ t) = p.passed t := by
  unfold passed at h ⊢
  rw [String.toList_append]
  split at h
  · rename_i hp
    rw [if_pos hp, if_pos hp, List.dropWhile_append, h]
    rfl
  · rename_i hp
    rw [if_neg hp, if_neg hp, h, List.nil_append]

theorem passed_append_of_ne (h : p.passed s ≠ []) : p.passed (s ++ t) = p.passed s ++ t.toList := by
  unfold passed at h ⊢
  rw [String.toList_append]
  split at h
  · rename_i hp
    rw [if_pos hp, if_pos hp, List.dropWhile_append, if_neg (by simpa using h)]
  · rename_i hp
    rw [if_neg hp, if_neg hp]

/-- Behind something that was written nothing is dropped, and the page is not blank. -/
theorem write_write_of_passed_ne (h : p.passed s ≠ []) :
    (p.write s).write t = p.write (s ++ t) := by
  have happend : p.passed (s ++ t) = p.passed s ++ t.toList := passed_append_of_ne h
  have hpassed : (p.write s).passed t = t.toList := by
    rw [write_of_passed_ne h, passed, if_neg Bool.false_ne_true]
  by_cases ht : t.toList = []
  · rw [write_of_passed_nil (hpassed.trans ht)]
    refine write_congr ?_
    rw [happend, ht, List.append_nil]
  · have hboth : p.passed (s ++ t) ≠ [] := by simp [happend, h]
    have hlast : (p.passed s ++ t.toList).getLast? = t.toList.getLast? := by
      rw [List.getLast?_append, List.getLast?_eq_some_getLast ht]
      rfl
    rw [write_of_passed_ne (hpassed ▸ ht), hpassed, write_of_passed_ne hboth, happend, hlast,
      write_of_passed_ne h]
    simp [indentation, indentBreaks, String.append_assoc]

theorem write_write (p : Printer) (s t : String) : (p.write s).write t = p.write (s ++ t) := by
  by_cases h : p.passed s = []
  · rw [write_of_passed_nil h]
    exact write_congr (passed_append_of_nil h).symm
  · exact write_write_of_passed_ne h

theorem print_print (p : Printer) (around : Surroundings) (s t : String) :
    (p.print around s).print around t = p.print around (s ++ t) := by
  have hpending : (p.print around s).pending = none := pending_print p around s
  rw [print, flush_of_none around hpending, print, write_write, print]

end Printer

namespace PrinterStack

variable {s : PrinterStack} {around : Surroundings}

/-- Prints the pieces one after the other. -/
def printPieces (s : PrinterStack) (around : Surroundings) (pieces : List String) : PrinterStack :=
  pieces.foldl (·.print around ·) s

theorem print_print (s : PrinterStack) (around : Surroundings) (a b : String) :
    (s.print around a).print around b = s.print around (a ++ b) := by
  simp only [print, modify, active_setActive, setActive_setActive, Printer.print_print]

theorem printPieces_cons (s : PrinterStack) (around : Surroundings) (a : String) :
    ∀ pieces, s.printPieces around (a :: pieces) = s.print around (String.join (a :: pieces))
  | [] => by
    rw [String.join_cons, String.join_nil, String.append_empty]
    rfl
  | b :: pieces => by
    have hfirst : s.printPieces around (a :: b :: pieces) =
        (s.print around a).printPieces around (b :: pieces) := rfl
    rw [hfirst, printPieces_cons, print_print, ← String.join_cons]

/-- Pieces that are some text together leave what the text would leave. -/
theorem printPieces_of_join {pieces : List String} {text : String} (hne : pieces ≠ [])
    (hjoin : String.join pieces = text) : s.printPieces around pieces = s.print around text := by
  obtain ⟨a, pieces, rfl⟩ := List.exists_cons_of_ne_nil hne
  rw [printPieces_cons, hjoin]

end PrinterStack

theorem join_flatMap {α : Type} (f : α → List String) (xs : List α) :
    String.join (xs.flatMap f) = String.join (xs.map fun x => String.join (f x)) := by
  induction xs with
  | nil => rfl
  | cons x xs ih => rw [List.flatMap_cons, String.join_append, ih, List.map_cons, String.join_cons]

/-! ## Links and images -/

namespace Session

variable (style : Style) (r : Reference) (label : String) (q : Option Parameters)

/-- A title is printed at once, with its quotes and the space before it. A blank one is left out. -/
def titlePieces (title : Option String) : List String :=
  match title with
  | some t => if Text.strip t = "" then [] else [" \"" ++ t ++ "\""]
  | none => []

/-- A target is printed from its opening parenthesis on, its title and its closing parenthesis
apart. -/
def targetPieces (title : Option String) : List String :=
  ("(" ++ Escape.reference (style.address r)) :: titlePieces title ++ [")"]

/-- What is printed for a link, print by print. -/
def linkPieces : List String :=
  if label.isEmpty then ["[[" ++ Escape.label (style.address r) ++ "]]"]
  else ("[" ++ Escape.label label ++ "]") :: targetPieces style r (lookupIn q "title")

/-- What is printed for an image, print by print. -/
def imagePieces : List String :=
  ("![" ++ Escape.label label ++ "]") :: targetPieces style r (lookupIn q "title")

theorem join_targetPieces (title : Option String) :
    String.join (targetPieces style r title) = target style r title := by
  rcases title with _ | t
  · simp [targetPieces, titlePieces, target, String.join_cons, String.append_assoc]
  · by_cases ht : Text.strip t = "" <;>
      simp [targetPieces, titlePieces, target, ht, String.join_cons, String.append_assoc]

theorem join_linkPieces :
    String.join (linkPieces style r label q) = linkText style r label q := by
  unfold linkPieces linkText
  split
  · simp [String.join_cons]
  · rw [String.join_cons, join_targetPieces]

theorem join_imagePieces : String.join (imagePieces style r label q) =
    "![" ++ Escape.label label ++ "]" ++ target style r (lookupIn q "title") := by
  rw [imagePieces, String.join_cons, join_targetPieces]

theorem linkPieces_ne_nil : linkPieces style r label q ≠ [] := by
  unfold linkPieces
  split <;> exact List.cons_ne_nil _ _

end Session

/-! ## Calls and code -/

namespace Call

variable (id : String) (args : Arguments) (content : Option String)

/-- What is printed for a call on lines of its own, print by print. -/
def blockPieces : List String :=
  ("\x7b\x7b" ++ id) :: (if args.isEmpty then [] else [" ", arguments args]) ++
    match given? content with
    | none => ["/\x7d\x7d"]
    | some s => ["\x7d\x7d", "\n" ++ s, "\x7b\x7b/" ++ id ++ "\x7d\x7d"]

/-- What is printed for a call in a line, print by print. -/
def compactPieces : List String :=
  ("#[" ++ id ++ "]") ::
    match args.isEmpty, given? content with
    | true, none => []
    | true, some s => ["(", s, ")"]
    | false, none => ["(", arguments args, ")"]
    | false, some s => ["(", arguments args, " ", "\"" ++ s ++ "\"", ")"]

theorem join_blockPieces : String.join (blockPieces id args content) = block id args content := by
  have hbreak : "\x7d\x7d\n" = "\x7d\x7d" ++ "\n" := by decide
  unfold blockPieces block
  cases args.isEmpty <;> cases given? content <;>
    simp [hbreak, String.join_cons, String.append_assoc, -String.reduceAppend]

theorem join_compactPieces :
    String.join (compactPieces id args content) = compact id args content := by
  have hquote : " \"" = " " ++ "\"" ∧ "\")" = "\"" ++ ")" := by decide
  unfold compactPieces compact
  cases args.isEmpty <;> cases given? content <;>
    simp [hquote, String.join_cons, String.append_assoc, -String.reduceAppend]

end Call

namespace Code

variable (code : String) (language : Option String)

/-- What is printed for a block of code, print by print. An empty language is left out. -/
def blockPieces : List String :=
  fence :: (language.filter fun s => !s.isEmpty).toList ++ ["\n" ++ code ++ "\n", fence]

theorem join_blockPieces : String.join (blockPieces code language) = block code language := by
  have hlanguage : String.join (language.filter fun s => !s.isEmpty).toList =
      language.getD "" := by
    rcases language with _ | s
    · rfl
    · by_cases hs : s = "" <;> simp [Option.filter, hs, String.join_cons]
  rw [blockPieces, List.cons_append, String.join_cons, String.join_append, hlanguage, block]
  simp [String.join_cons, String.append_assoc]

end Code

namespace Session

/-- What is printed for a call. One of them is the call for code. -/
def callPieces (style : Style) (id : String) (q : Option Parameters) (content : Option String)
    (inLine : Bool) : List String :=
  if id = style.options.codeCallId then
    if inLine then [Code.inLine (content.getD "")]
    else Code.blockPieces (content.getD "") (lookupIn q "language")
  else
    let args := (q.getD .empty).entries.map fun (name, value) => (name, some value)
    if Call.isCompact content then Call.compactPieces id args content
    else Call.blockPieces id args content

theorem join_callPieces (style : Style) (id : String) (q : Option Parameters)
    (content : Option String) (inLine : Bool) :
    String.join (callPieces style id q content inLine) = callText style id q content inLine := by
  unfold callPieces callText
  split
  · split
    · simp [String.join_cons]
    · exact Code.join_blockPieces _ _
  · dsimp only
    split
    · exact Call.join_compactPieces _ _ _
    · exact Call.join_blockPieces _ _ _

theorem callPieces_ne_nil (style : Style) (id : String) (q : Option Parameters)
    (content : Option String) (inLine : Bool) : callPieces style id q content inLine ≠ [] := by
  unfold callPieces
  split
  · split <;> exact List.cons_ne_nil _ _
  · dsimp only
    split <;> exact List.cons_ne_nil _ _

end Session

/-! ## Tables -/

namespace Table

/-- What is printed for the divider, print by print. -/
def dividerPieces (alignments : Columns Alignment) (widths : List Int) : List String :=
  "|" :: (widths.zipIdx.flatMap fun (width, col) =>
    [dividerSegment ((alignments.lookup col).getD .default) width, "|"]) ++ ["\n"]

/-- What is printed for the cells of a row from column `col` on: each with its padding, then its
bars. -/
def cellPieces (widths : List Int) (minPadding : Int) (col overflow : Nat) :
    List Cell → List String
  | [] => []
  | c :: rest =>
    let room : Int := ((widths.drop col).take c.span).foldr (· + ·) 0 - (overflow : Int)
    let text := Text.padRight (room - minPadding).toNat (spaces minPadding ++ c.content)
      ++ spaces minPadding
    text :: Text.times c.span "|" ::
      cellPieces widths minPadding (col + c.span) ((c.content.length : Int) - room).toNat rest

/-- What is printed for a row, print by print. -/
def rowPieces (widths : List Int) (minPadding : Int) (row : Row) : List String :=
  "|" :: cellPieces widths minPadding 0 0 row ++ ["\n"]

/-- The pieces of a table: its header rows, the divider and its other rows. -/
def Layout.pieces {ω : Type} [Weight ω] (t : Layout ω) : List String :=
  if t.rows.isEmpty then []
  else
    let widths := t.columnWidths
    let ofRows := fun rows : List Row => rows.flatMap (rowPieces widths t.settings.minPadding)
    ofRows (t.rows.take t.headerRows) ++ dividerPieces t.alignments widths
      ++ ofRows (t.rows.drop t.headerRows)

theorem join_dividerPieces (alignments : Columns Alignment) (widths : List Int) :
    String.join (dividerPieces alignments widths) = divider alignments widths := by
  rw [dividerPieces, List.cons_append, String.join_cons, String.join_append, join_flatMap, divider]
  simp [String.join_cons, String.append_assoc]

theorem join_cellPieces (widths : List Int) (minPadding : Int) : ∀ (row : Row) (col overflow : Nat),
    String.join (cellPieces widths minPadding col overflow row) =
      drawCells widths minPadding col overflow row
  | [], _, _ => rfl
  | c :: rest, col, overflow => by
    rw [cellPieces, drawCells, String.join_cons, String.join_cons, join_cellPieces _ _ rest,
      ← String.append_assoc]

theorem join_rowPieces (widths : List Int) (minPadding : Int) (row : Row) :
    String.join (rowPieces widths minPadding row) = drawRow widths minPadding row := by
  rw [rowPieces, List.cons_append, String.join_cons, String.join_append, join_cellPieces, drawRow,
    String.join_cons, String.join_nil, String.append_empty, String.append_assoc]

theorem Layout.join_pieces {ω : Type} [Weight ω] (t : Layout ω) :
    String.join t.pieces = t.draw := by
  have hrows : ∀ rows : List Row,
      String.join (rows.flatMap (rowPieces t.columnWidths t.settings.minPadding)) =
        String.join (rows.map (drawRow t.columnWidths t.settings.minPadding)) := by
    intro rows
    rw [join_flatMap]
    exact congrArg _ (List.map_congr_left fun row _ => join_rowPieces _ _ row)
  unfold Layout.pieces Layout.draw
  split
  · rfl
  · simp only [String.join_append, hrows, join_dividerPieces]

end Table

/-- Two texts leave what the text leaves that they are together, so pieces hang on nothing else; and
the pieces that a link, an image, a call and a table are printed in leave what is left by their
texts at once. -/
theorem PrinterStack.printed_in_pieces :
    (∀ (p : Printer) (around : Surroundings) (a b : String),
      (p.print around a).print around b = p.print around (a ++ b)) ∧
    ∀ (s : PrinterStack) (around : Surroundings),
      (∀ (a : String) (pieces : List String),
        s.printPieces around (a :: pieces) = s.print around (String.join (a :: pieces))) ∧
      (∀ (style : Style) (r : Reference) (label : String) (q : Option Parameters),
        s.printPieces around (Session.linkPieces style r label q) =
          s.print around (Session.linkText style r label q) ∧
        s.printPieces around (Session.imagePieces style r label q) = s.print around
          ("![" ++ Escape.label label ++ "]" ++ Session.target style r (lookupIn q "title"))) ∧
      (∀ (style : Style) (id : String) (q : Option Parameters) (content : Option String)
        (inLine : Bool), s.printPieces around (Session.callPieces style id q content inLine) =
          s.print around (Session.callText style id q content inLine)) ∧
      ∀ t : Table.Layout Float, s.printPieces around ("\n\n" :: t.pieces) =
        (s.print around "\n\n").print around t.draw := by
  refine ⟨Printer.print_print, fun s around => ⟨s.printPieces_cons around, ?_, ?_, ?_⟩⟩
  · intro style r label q
    exact ⟨printPieces_of_join (Session.linkPieces_ne_nil style r label q)
        (Session.join_linkPieces style r label q),
      printPieces_of_join (List.cons_ne_nil _ _) (Session.join_imagePieces style r label q)⟩
  · intro style id q content inLine
    exact printPieces_of_join (Session.callPieces_ne_nil style id q content inLine)
      (Session.join_callPieces style id q content inLine)
  · intro t
    rw [printPieces_cons, String.join_cons, t.join_pieces, print_print]

end Markwright
