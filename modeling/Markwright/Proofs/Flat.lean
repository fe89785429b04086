import Markwright.Document.Node
import Markwright.Options
import Markwright.Proofs.LineStart

/-!
# Flat documents and how they are read

A flat document is a row of headings, paragraphs, rules and lists, each with texts of one line. Its
page is a list of lines: each block has its own, none of them empty, and empty lines stand between
two blocks (`pageLines`). The page is read by taking the lines that no empty line separates for one
block, and telling the kind of the block by how its lines start (`readPage`). Reading a page gives
back its blocks (`readPage_pageLines`), since no line of a paragraph starts like another kind of
block (`Escape.IsPlainLine`).
-/

namespace Markwright

open Escape (escapeSpan unescape?)

/-- A block of a flat document as far as it can be seen: parameters and identifiers leave no
trace. -/
inductive FlatBlock where
  | heading (level : HeadingLevel) (content : String)
  | paragraph (content : String)
  | rule
  | list (kind : ListKind) (items : List String)
deriving DecidableEq

/-- A text that is not empty and holds no line breaks. -/
def IsLine (s : String) : Prop := s ≠ "" ∧ ∀ c ∈ s.toList, c ≠ '\r' ∧ c ≠ '\n'

/-- Its texts are lines, and a list has an item. -/
def FlatBlock.Valid : FlatBlock → Prop
  | .heading _ s | .paragraph s => IsLine s
  | .rule => True
  | .list _ items => items ≠ [] ∧ ∀ s ∈ items, IsLine s

/-- The text of an item that holds a single text. -/
def Node.item? : Node → Option String
  | .listItem [.text s] _ => some s
  | _ => none

/-- The block that a node is, if it is a flat one. -/
def Node.flat? : Node → Option FlatBlock
  | .heading level [.text s] _ _ => some (.heading level s)
  | .paragraph [.text s] _ => some (.paragraph s)
  | .horizontalRule _ => some .rule
  | .list kind items _ => (items.mapM Node.item?).map (.list kind)
  | _ => none

/-- All blocks are flat, and this is what can be seen of them. -/
structure Node.IsFlat (blocks : List Node) (views : List FlatBlock) : Prop where
  flat : blocks.mapM Node.flat? = some views
  valid : ∀ b ∈ views, b.Valid

theorem mapM_cons_eq_some {α β : Type} {f : α → Option β} {a : α} {l : List α} {r : List β}
    (h : (a :: l).mapM f = some r) : ∃ b bs, f a = some b ∧ l.mapM f = some bs ∧ r = b :: bs := by
  simp only [List.mapM_cons, bind, Option.bind_eq_some_iff, pure, Option.some.injEq] at h
  obtain ⟨b, hb, bs, hbs, rfl⟩ := h
  exact ⟨b, bs, hb, hbs, rfl⟩

namespace FlatBlock

/-- The marker of an item, padded to its width. -/
def marker (o : Options) : ListKind → List Char
  | .bulleted => (Text.padRight o.listIndentWidth "*").toList
  | .numbered => (Text.padRight o.listIndentWidth "1.").toList

/-! ## Reading -/

/-- The text that a reader of the page sees behind the escape characters. -/
def readText (cs : List Char) : Option String := (unescape? cs).map String.ofList

/-- The text of an item, which stands behind its marker. -/
def readItem (o : Options) (kind : ListKind) (line : List Char) : Option String :=
  readText (line.drop (marker o kind).length)

/-- A line that is no item: hashes and a space make it a heading. -/
def readLine (line : List Char) : Option FlatBlock :=
  let level := (line.takeWhile (· == '#')).length
  let plain := if line = ['-', '-', '-'] then some .rule else (readText line).map .paragraph
  match line.drop level with
  | ' ' :: rest =>
    if h : 1 ≤ level ∧ level ≤ 6 then (readText rest).map (.heading ⟨level, h.1, h.2⟩) else plain
  | _ => plain

/-- Lines that no empty line separates: the items of a list if the first starts with a marker. -/
def readGroup (o : Options) (lines : List (List Char)) : Option (List FlatBlock) :=
  if (marker o .bulleted).isPrefixOf (lines.headD []) then
    (lines.mapM (readItem o .bulleted)).map fun items => [.list .bulleted items]
  else if (marker o .numbered).isPrefixOf (lines.headD []) then
    (lines.mapM (readItem o .numbered)).map fun items => [.list .numbered items]
  else lines.mapM readLine

/-- The lines between empty lines. -/
def groups (lines : List (List Char)) : List (List (List Char)) :=
  (lines.splitOnP List.isEmpty).filter (!·.isEmpty)

/-- The blocks of a page, read from the lines that stand between its empty lines. -/
def readPage (o : Options) (page : String) : Option (List FlatBlock) :=
  ((groups (page.toList.splitOn '\n')).mapM (readGroup o)).map List.flatten

/-! ## Lines -/

/-- All items but the last are escaped while another one begins, which is part of a line. -/
def itemLines (o : Options) (kind : ListKind) : List String → List (List Char)
  | [] => []
  | [s] => [marker o kind ++ escapeSpan ⟨false, false, false, false⟩ s.toList]
  | s :: t :: rest =>
    (marker o kind ++ escapeSpan ⟨true, false, false, false⟩ s.toList) ::
      itemLines o kind (t :: rest)

/-- The lines that a block is written as. -/
def lines (o : Options) : FlatBlock → List (List Char)
  | .heading level s =>
    [List.replicate level.val '#' ++ ' ' :: escapeSpan ⟨true, false, false, false⟩ s.toList]
  | .paragraph s => [escapeSpan ⟨true, false, true, false⟩ s.toList]
  | .rule => [['-', '-', '-']]
  | .list kind items => itemLines o kind items

/-- How many empty lines stand before a block. -/
def gap : FlatBlock → Nat
  | .heading level _ => if level.val < 4 then 2 else 1
  | _ => 1

/-- The lines that blocks add to a page that is not empty. -/
def addedLines (o : Options) (blocks : List FlatBlock) : List (List Char) :=
  blocks.flatMap fun b => List.replicate b.gap [] ++ b.lines o

/-- The lines of a page, with the empty ones between its blocks. -/
def pageLines (o : Options) : List FlatBlock → List (List Char)
  | [] => []
  | b :: rest => b.lines o ++ addedLines o rest

section Lines

variable {o : Options} {kind : ListKind} {s : String} {b : FlatBlock}

theorem toList_ne_nil (h : IsLine s) : s.toList ≠ [] := by
  rw [Ne, String.toList_eq_nil_iff]
  exact h.1

theorem break_not_mem_escapeSpan (h : IsLine s) (ctx : Escape.Context) :
    '\n' ∉ escapeSpan ctx s.toList :=
  Escape.break_not_mem_escapeSpan ctx fun hc => (h.2 _ hc).2 rfl

theorem marker_bulleted (o : Options) : ∃ pad, marker o .bulleted = '*' :: ' ' :: pad := by
  obtain ⟨n, hn⟩ : ∃ n, o.listIndentWidth - 1 = n + 1 :=
    ⟨o.listIndentWidth - 2, by have := o.three_le_indent; omega⟩
  refine ⟨List.replicate n ' ', ?_⟩
  have hlen : "*".length = 1 := rfl
  simp [marker, Text.padRight, hlen, hn, List.replicate_succ]

theorem marker_numbered (o : Options) : ∃ pad, marker o .numbered = '1' :: '.' :: ' ' :: pad := by
  obtain ⟨n, hn⟩ : ∃ n, o.listIndentWidth - 2 = n + 1 :=
    ⟨o.listIndentWidth - 3, by have := o.three_le_indent; omega⟩
  refine ⟨List.replicate n ' ', ?_⟩
  have hlen : "1.".length = 2 := rfl
  simp [marker, Text.padRight, hlen, hn, List.replicate_succ]

theorem break_not_mem_marker (o : Options) (kind : ListKind) : '\n' ∉ marker o kind := by
  cases kind <;> simp [marker, Text.padRight]

/-! ### Items -/

theorem readText_escapeSpan (ctx : Escape.Context) (s : String) :
    readText (escapeSpan ctx s.toList) = some s := by
  simp [readText, Escape.unescape?_escapeSpan]

theorem readItem_append (ctx : Escape.Context) (s : String) :
    readItem o kind (marker o kind ++ escapeSpan ctx s.toList) = some s := by
  rw [readItem, List.drop_left]
  exact readText_escapeSpan ctx s

theorem mapM_readItem (o : Options) (kind : ListKind) : ∀ items : List String,
    (itemLines o kind items).mapM (readItem o kind) = some items
  | [] => rfl
  | [s] => by
    rw [itemLines, List.mapM_cons, readItem_append]
    rfl
  | s :: t :: rest => by
    rw [itemLines, List.mapM_cons, readItem_append, mapM_readItem o kind (t :: rest)]
    rfl

theorem mem_itemLines {line : List Char} : ∀ {items : List String}, line ∈ itemLines o kind items →
    ∃ ctx, ∃ s ∈ items, line = marker o kind ++ escapeSpan ctx s.toList
  | [s], h => ⟨_, s, by simp, List.mem_singleton.1 h⟩
  | s :: t :: rest, h => by
    rcases List.mem_cons.1 h with rfl | h
    · exact ⟨_, s, by simp, rfl⟩
    · obtain ⟨ctx, u, hu, rfl⟩ := mem_itemLines h
      exact ⟨ctx, u, List.mem_cons_of_mem _ hu, rfl⟩

theorem exists_itemLines_eq_cons (o : Options) (kind : ListKind) :
    ∀ {items : List String}, items ≠ [] →
    ∃ text more, itemLines o kind items = (marker o kind ++ text) :: more
  | [], h => absurd rfl h
  | [_], _ => ⟨_, _, rfl⟩
  | _ :: _ :: _, _ => ⟨_, _, rfl⟩

/-! ### Blocks -/

theorem lines_spec (hb : b.Valid) :
    b.lines o ≠ [] ∧ ∀ line ∈ b.lines o, line ≠ [] ∧ '\n' ∉ line := by
  cases b with
  | heading level s =>
    refine ⟨List.cons_ne_nil _ _, fun line hline => ?_⟩
    obtain rfl := List.mem_singleton.1 hline
    refine ⟨by simp, ?_⟩
    simp [break_not_mem_escapeSpan hb]
  | paragraph s =>
    refine ⟨List.cons_ne_nil _ _, fun line hline => ?_⟩
    obtain rfl := List.mem_singleton.1 hline
    exact ⟨Escape.escapeSpan_ne_nil _ (toList_ne_nil hb), break_not_mem_escapeSpan hb _⟩
  | rule =>
    refine ⟨List.cons_ne_nil _ _, fun line hline => ?_⟩
    obtain rfl := List.mem_singleton.1 hline
    exact ⟨by decide, by decide⟩
  | list kind items =>
    obtain ⟨text, more, hcons⟩ := exists_itemLines_eq_cons o kind hb.1
    refine ⟨by rw [lines, hcons]; exact List.cons_ne_nil _ _, fun line hline => ?_⟩
    obtain ⟨ctx, s, hs, rfl⟩ := mem_itemLines hline
    refine ⟨?_, ?_⟩
    · have hne := Escape.escapeSpan_ne_nil ctx (toList_ne_nil (hb.2 s hs))
      exact fun h => hne (List.append_eq_nil_iff.1 h).2
    · rw [List.mem_append, not_or]
      exact ⟨break_not_mem_marker o kind, break_not_mem_escapeSpan (hb.2 s hs) ctx⟩

theorem readGroup_singleton {line : List Char} (hbullet : ∀ rest, line ≠ '*' :: ' ' :: rest)
    (hnumber : ∀ rest, line ≠ '1' :: '.' :: ' ' :: rest) :
    readGroup o [line] = (readLine line).map fun b => [b] := by
  obtain ⟨pad, hb⟩ := marker_bulleted o
  obtain ⟨pad', hn⟩ := marker_numbered o
  have hb' : ¬ (marker o .bulleted).isPrefixOf line = true := by
    rw [List.isPrefixOf_iff_prefix, hb]
    rintro ⟨rest, rfl⟩
    exact hbullet _ rfl
  have hn' : ¬ (marker o .numbered).isPrefixOf line = true := by
    rw [List.isPrefixOf_iff_prefix, hn]
    rintro ⟨rest, rfl⟩
    exact hnumber _ rfl
  rw [readGroup, List.headD_cons, if_neg hb', if_neg hn', List.mapM_cons]
  cases readLine line <;> rfl

theorem readLine_of_ne_hash {line : List Char} (h : ∀ rest, line ≠ '#' :: rest) :
    readLine line =
      if line = ['-', '-', '-'] then some .rule else (readText line).map .paragraph := by
  have hlevel : line.takeWhile (· == '#') = [] := by
    rcases line with _ | ⟨c, rest⟩
    · rfl
    · refine List.takeWhile_cons_of_neg ?_
      rw [beq_iff_eq]
      rintro rfl
      exact h rest rfl
  simp only [readLine, hlevel, List.length_nil, List.drop_zero]
  split
  · exact dif_neg fun hle => absurd hle.1 (by decide)
  · rfl

theorem readLine_heading (level : HeadingLevel) (ctx : Escape.Context) (s : String) :
    readLine (List.replicate level.val '#' ++ ' ' :: escapeSpan ctx s.toList) =
      some (.heading level s) := by
  have hlevel : (List.replicate level.val '#' ++ ' ' :: escapeSpan ctx s.toList).takeWhile
      (· == '#') = List.replicate level.val '#' := by
    rw [List.takeWhile_append_of_pos (by simp), List.takeWhile_cons_of_neg (by decide),
      List.append_nil]
  have hdrop : (List.replicate level.val '#' ++ ' ' :: escapeSpan ctx s.toList).drop level.val =
      ' ' :: escapeSpan ctx s.toList := by
    simp
  simp only [readLine, hlevel, List.length_replicate, hdrop, readText_escapeSpan,
    dif_pos (And.intro level.pos level.le_six)]
  rfl

theorem readGroup_lines (hb : b.Valid) : readGroup o (b.lines o) = some [b] := by
  cases b with
  | heading level s =>
    obtain ⟨n, hn⟩ : ∃ n, level.val = n + 1 := ⟨level.val - 1, by have := level.pos; omega⟩
    rw [lines, readGroup_singleton, readLine_heading]
    · rfl
    all_goals simp [hn, List.replicate_succ]
  | paragraph s =>
    have hplain : Escape.IsPlainLine (escapeSpan ⟨true, false, true, false⟩ s.toList) :=
      Escape.isPlainLine_escapeSpan ⟨rfl, rfl⟩ s.toList
    rw [lines, readGroup_singleton hplain.bullet hplain.number, readLine_of_ne_hash hplain.hash,
      if_neg hplain.rule, readText_escapeSpan]
    rfl
  | rule =>
    rw [lines, readGroup_singleton (by simp) (by simp), readLine_of_ne_hash (by simp), if_pos rfl]
    rfl
  | list kind items =>
    obtain ⟨text, more, hcons⟩ := exists_itemLines_eq_cons o kind hb.1
    have hmap := mapM_readItem o kind items
    have hstart : (marker o kind).isPrefixOf ((itemLines o kind items).headD []) = true := by
      rw [hcons, List.headD_cons, List.isPrefixOf_iff_prefix]
      exact List.prefix_append _ _
    cases kind with
    | bulleted =>
      rw [lines, readGroup, if_pos hstart, hmap]
      rfl
    | numbered =>
      have hno : ¬ (marker o .bulleted).isPrefixOf ((itemLines o .numbered items).headD []) =
          true := by
        obtain ⟨pad, hp⟩ := marker_bulleted o
        obtain ⟨pad', hp'⟩ := marker_numbered o
        rw [hcons, List.headD_cons, hp, hp']
        simp
      rw [lines, readGroup, if_neg hno, if_pos hstart, hmap]
      rfl

end Lines

/-! ## Pages -/

section Pages

variable {o : Options} {blocks : List FlatBlock}

theorem groups_cons_nil (lines : List (List Char)) : groups ([] :: lines) = groups lines := by
  rw [groups, List.splitOnP_cons_eq_if_modifyHead, if_pos (by rfl),
    List.filter_cons_of_neg (by decide), groups]

theorem groups_replicate_append (n : Nat) (lines : List (List Char)) :
    groups (List.replicate n [] ++ lines) = groups lines := by
  induction n with
  | zero => rfl
  | succ n ih => rw [List.replicate_succ, List.cons_append, groups_cons_nil, ih]

theorem groups_append {a : List (List Char)} (hne : a ≠ []) (ha : ∀ l ∈ a, l ≠ [])
    (more : List (List Char)) : groups (a ++ [] :: more) = a :: groups more := by
  rw [groups, List.splitOnP_append_cons_of_forall_mem (by simpa using ha) [] (by rfl),
    List.filter_cons_of_pos (by simpa using hne), groups]

theorem groups_eq_singleton {a : List (List Char)} (hne : a ≠ []) (ha : ∀ l ∈ a, l ≠ []) :
    groups a = [a] := by
  rw [groups, List.splitOnP_eq_singleton (by simpa using ha),
    List.filter_cons_of_pos (by simpa using hne), List.filter_nil]

theorem gap_pos (b : FlatBlock) : ∃ n, b.gap = n + 1 := by
  cases b
  case heading level _ => by_cases h : level.val < 4 <;> simp [gap, h]
  all_goals exact ⟨0, rfl⟩

theorem groups_pageLines : ∀ {b : FlatBlock} {rest : List FlatBlock},
    (∀ c ∈ b :: rest, c.Valid) →
    groups (pageLines o (b :: rest)) = (b :: rest).map (·.lines o)
  | b, [], h => by
    obtain ⟨hne, hlines⟩ := lines_spec (o := o) (h b (by simp))
    rw [pageLines, addedLines, List.flatMap_nil, List.append_nil]
    exact groups_eq_singleton hne fun l hl => (hlines l hl).1
  | b, c :: rest, h => by
    obtain ⟨hne, hlines⟩ := lines_spec (o := o) (h b (by simp))
    have ih : groups (pageLines o (c :: rest)) = (c :: rest).map (·.lines o) :=
      groups_pageLines fun d hd => h d (by simp [hd])
    obtain ⟨n, hn⟩ := gap_pos c
    rw [pageLines, addedLines, List.flatMap_cons, hn, List.replicate_succ, List.cons_append,
      List.cons_append, groups_append hne fun l hl => (hlines l hl).1, List.append_assoc,
      groups_replicate_append, List.map_cons, ← ih, pageLines, addedLines]

theorem break_not_mem_pageLines (h : ∀ b ∈ blocks, b.Valid) :
    ∀ line ∈ pageLines o blocks, '\n' ∉ line := by
  intro line hline
  rcases blocks with _ | ⟨b, rest⟩
  · cases hline
  rcases List.mem_append.1 hline with hline | hline
  · exact ((lines_spec (h b (by simp))).2 line hline).2
  · obtain ⟨c, hc, hmem⟩ := List.mem_flatMap.1 hline
    rcases List.mem_append.1 hmem with hmem | hmem
    · rw [(List.mem_replicate.1 hmem).2]
      exact List.not_mem_nil
    · exact ((lines_spec (h c (by simp [hc]))).2 line hmem).2

/-- A page is read as its blocks. -/
theorem readPage_pageLines {page : String} (h : ∀ b ∈ blocks, b.Valid)
    (hpage : page.toList = List.intercalate ['\n'] (pageLines o blocks)) :
    readPage o page = some blocks := by
  rcases blocks with _ | ⟨b, rest⟩
  · rw [readPage, hpage]
    rfl
  · have hne : pageLines o (b :: rest) ≠ [] := by
      obtain ⟨hlines, -⟩ := lines_spec (o := o) (h b (by simp))
      exact fun hnil => hlines (List.append_eq_nil_iff.1 hnil).1
    have hread : ∀ cs : List FlatBlock, (∀ c ∈ cs, c.Valid) →
        (cs.map (·.lines o)).mapM (readGroup o) = some (cs.map fun c => [c]) := by
      intro cs hcs
      induction cs with
      | nil => rfl
      | cons c cs ih =>
        rw [List.map_cons, List.mapM_cons, readGroup_lines (hcs c (by simp)),
          ih fun d hd => hcs d (by simp [hd])]
        rfl
    rw [readPage, hpage, List.splitOn_intercalate '\n' (break_not_mem_pageLines h) hne,
      groups_pageLines h, hread _ h, Option.map_some, Option.some.injEq]
    simp [← List.flatMap_def]

end Pages

end FlatBlock

end Markwright
