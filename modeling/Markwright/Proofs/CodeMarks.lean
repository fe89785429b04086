import Markwright.Call
import Markwright.Proofs.Cutting

/-!
# Where code ends

Code between ticks ends before the first run of ticks as long as the run that opens it, and code
between fences ends before the first line that begins with a fence. One look at the code decides
between one tick and two, and no look is taken for a fence. So code between ticks ends where it
should unless it begins or ends with a tick or holds a run of two, and code between fences unless
one of its lines begins with a fence or the language breaks the line (`readBack_iff`).
-/

namespace Markwright.Code

/-- What code is marked with. -/
abbrev tick : Char := '\x60'

/-- So many backticks in a row. -/
def run (n : Nat) : List Char := List.replicate n tick

variable {n k : Nat} {c : Char} {cs ds : List Char}

/-! ## Reading -/

/-- What stands before the first run of `n` ticks and what stands behind it, `k` ticks having come
just before. A run is taken as long as it is. -/
def untilRun? (n : Nat) : Nat → List Char → Option (List Char × List Char)
  | k, [] => if k = n then some ([], []) else none
  | k, c :: cs =>
    if c = tick then untilRun? n (k + 1) cs
    else if k = n then some ([], c :: cs)
    else (untilRun? n 0 cs).map fun (code, rest) => (run k ++ c :: code, rest)

/-- Code between ticks as it is read: how many ticks open it, the code, and what comes after the
ticks that close it. -/
structure Span where
  ticks : Nat
  code : List Char
  rest : List Char
deriving DecidableEq

/-- Reads a code span: the run of backticks that it begins with, the code up to the first run of
just as many, and what follows. Without such a run it is no code span. -/
def readSpan? (cs : List Char) : Option Span :=
  match cs.span (· == tick) with
  | ([], _) => none
  | (opening, rest) =>
    (untilRun? opening.length 0 rest).map fun (code, rest) => ⟨opening.length, code, rest⟩

/-- A line that closes code between fences. -/
def isFence (line : List Char) : Bool := fence.toList.isPrefixOf line

/-- Code between fences as it is read: the line that opens it, the lines of the code, the line that
closes it and those after it. -/
structure Fenced where
  opening : List Char
  lines : List (List Char)
  closing : List Char
  later : List (List Char)
deriving DecidableEq

/-- Reads a block of code: its first line, the lines up to the first fence, that fence and what
follows. A block that no fence ends is not read. -/
def readFenced? (cs : List Char) : Option Fenced :=
  match cs.splitOn '\n' with
  | [] => none
  | opening :: rest =>
    match rest.span (!isFence ·) with
    | (_, []) => none
    | (lines, closing :: later) => some ⟨opening, lines, closing, later⟩

/-! ## Ticks -/

/-- Somewhere there are `n` ticks, with no tick before or after them. -/
def HasRun (n : Nat) (cs : List Char) : Prop :=
  ∃ front back, cs = front ++ run n ++ back ∧ front.getLast? ≠ some tick ∧ back.head? ≠ some tick

theorem run_zero : run 0 = [] := rfl

theorem run_succ (k : Nat) : run (k + 1) = tick :: run k := rfl

theorem run_concat (k : Nat) (cs : List Char) : run k ++ tick :: cs = run (k + 1) ++ cs := by
  rw [run, run, List.replicate_succ', List.append_assoc, List.singleton_append]

theorem span_run (k : Nat) (h : cs.head? ≠ some tick) :
    (run k ++ cs).span (· == tick) = (run k, cs) := by
  have hrun : ∀ c ∈ run k, (c == tick) = true := fun c hc =>
    beq_iff_eq.2 (List.eq_of_mem_replicate hc)
  refine span_append hrun fun c hc => beq_false_of_ne ?_
  rintro rfl
  exact h hc

theorem run_append_inj (hcs : cs.head? ≠ some tick) (hds : ds.head? ≠ some tick)
    (h : run n ++ cs = run k ++ ds) : n = k ∧ cs = ds := by
  have hspan := span_run n hcs
  rw [h, span_run k hds] at hspan
  have hlen := congrArg List.length (Prod.mk.inj hspan).1.symm
  rw [run, run, List.length_replicate, List.length_replicate] at hlen
  subst hlen
  exact ⟨rfl, List.append_cancel_left h⟩

theorem getLast?_cons_ne (hc : c ≠ tick) :
    (c :: cs).getLast? ≠ some tick ↔ cs.getLast? ≠ some tick := by
  rcases cs with _ | ⟨d, ds⟩
  · simpa using hc
  · rw [List.getLast?_cons_cons]

theorem getLast?_run_append_cons (k : Nat) (c : Char) (cs : List Char) :
    (run k ++ c :: cs).getLast? = (c :: cs).getLast? := by
  rw [List.getLast?_append, List.getLast?_cons, Option.some_or]

theorem eq_nil_of_run (h : run k = cs ++ ds) (hcs : cs.getLast? ≠ some tick) : cs = [] := by
  rcases cs.eq_nil_or_concat with rfl | ⟨as, a, rfl⟩
  · rfl
  · have ha : a ∈ run k := by simp [h]
    rw [List.eq_of_mem_replicate ha] at hcs
    simp at hcs

/-- The runs of a text are those in front of its first other character and those behind it. -/
theorem hasRun_iff (hn : 0 < n) (hc : c ≠ tick) :
    HasRun n (run k ++ c :: cs) ↔ k = n ∨ HasRun n cs := by
  have hhead : (c :: cs).head? ≠ some tick := by simpa using hc
  constructor
  · rintro ⟨front, back, heq, hfront, hback⟩
    rw [List.append_assoc] at heq
    obtain ⟨as, has, hrest⟩ | ⟨bs, hbs, hrest⟩ := List.append_eq_append_iff.1 heq
    · rcases as with _ | ⟨a, as⟩
      · obtain ⟨m, rfl⟩ := Nat.exists_eq_add_one.2 hn
        exact absurd (List.cons.inj hrest).1 hc
      · obtain ⟨rfl, rfl⟩ := List.cons.inj hrest
        rw [has, getLast?_run_append_cons, getLast?_cons_ne hc] at hfront
        exact .inr ⟨as, back, (List.append_assoc as _ _).symm, hfront, hback⟩
    · obtain rfl := eq_nil_of_run hbs hfront
      rw [List.nil_append] at hbs
      rw [← hbs] at hrest
      exact .inl (run_append_inj hback hhead hrest).1.symm
  · rintro (rfl | ⟨front, back, rfl, hfront, hback⟩)
    · exact ⟨[], c :: cs, rfl, by simp, hhead⟩
    · refine ⟨run k ++ c :: front, back, by simp, ?_, hback⟩
      rwa [getLast?_run_append_cons, getLast?_cons_ne hc]

theorem hasRun_run_iff : HasRun n (run k) ↔ k = n := by
  constructor
  · rintro ⟨front, back, heq, hfront, hback⟩
    rw [List.append_assoc] at heq
    obtain rfl := eq_nil_of_run heq hfront
    have hrest : run n ++ back = run k ++ [] := by rw [List.append_nil, heq, List.nil_append]
    exact (run_append_inj hback (by simp) hrest).1.symm
  · rintro rfl
    exact ⟨[], [], by simp, by simp, by simp⟩

theorem untilRun?_tick (n k : Nat) (cs : List Char) :
    untilRun? n k (tick :: cs) = untilRun? n (k + 1) cs := by
  rw [untilRun?, if_pos rfl]

theorem untilRun?_run (n k m : Nat) : untilRun? n k (run m) = untilRun? n (k + m) [] := by
  induction m generalizing k with
  | zero => rfl
  | succ m ih =>
    rw [run_succ, untilRun?_tick, ih, Nat.add_right_comm, Nat.add_assoc]

/-- Code is read up to its closing ticks unless it holds as many itself or they go on with it. -/
theorem untilRun?_append_run_iff (hn : 0 < n) (k : Nat) (cs : List Char) :
    untilRun? n k (cs ++ run n) = some (run k ++ cs, []) ↔
      ¬ HasRun n (run k ++ cs) ∧ (run k ++ cs).getLast? ≠ some tick := by
  induction cs generalizing k with
  | nil =>
    rw [List.nil_append, untilRun?_run, untilRun?, List.append_nil, hasRun_run_iff]
    rcases k with _ | k
    · simpa [run] using Nat.ne_of_lt hn
    · simp [run, List.getLast?_replicate]
  | cons c cs ih =>
    by_cases hc : c = tick
    · subst hc
      rw [run_concat, List.cons_append, untilRun?_tick]
      exact ih (k + 1)
    · rw [hasRun_iff hn hc, getLast?_run_append_cons, getLast?_cons_ne hc, List.cons_append,
        untilRun?, if_neg hc]
      by_cases hk : k = n
      · simp [hk]
      · have hlater := ih 0
        rw [run_zero, List.nil_append] at hlater
        rw [if_neg hk, not_or, and_assoc, and_iff_right hk, ← hlater, Option.map_eq_some_iff]
        constructor
        · rintro ⟨⟨code, rest⟩, hread, hpair⟩
          obtain ⟨hcode, hrest⟩ := Prod.mk.inj hpair
          obtain rfl := (List.cons.inj (List.append_cancel_left hcode)).2
          rw [hread, ← hrest]
        · exact fun hread => ⟨_, hread, rfl⟩

/-- How many ticks code is marked with. -/
def ticks (code : String) : Nat := if code.toList.contains tick then 2 else 1

theorem toList_inLine (code : String) :
    (inLine code).toList = run (ticks code) ++ (code.toList ++ run (ticks code)) := by
  unfold inLine ticks
  dsimp only
  split <;> simp [run, List.replicate]

theorem ticks_pos (code : String) : 0 < ticks code := by
  unfold ticks
  split <;> decide

/-- Code without a tick holds no run of any length. -/
theorem hasRun_ticks_iff (code : String) :
    HasRun (ticks code) code.toList ↔ HasRun 2 code.toList := by
  unfold ticks
  split
  · rfl
  · rename_i hnone
    have hempty : ∀ m, ¬ HasRun (m + 1) code.toList := by
      rintro m ⟨front, back, heq, -, -⟩
      refine hnone (List.contains_iff_mem.2 ?_)
      rw [heq, run_succ]
      simp
    exact iff_of_false (hempty 0) (hempty 1)

theorem readSpan?_run (hn : 0 < n) (hcs : cs.head? ≠ some tick) :
    readSpan? (run n ++ cs) =
      (untilRun? n 0 cs).map fun (code, rest) => ⟨n, code, rest⟩ := by
  obtain ⟨m, rfl⟩ := Nat.exists_eq_add_one.2 hn
  rw [readSpan?, span_run _ hcs]
  simp [run, List.replicate_succ]

theorem ticks_readSpan? {s : Span} (h : readSpan? (run n ++ cs) = some s) : n ≤ s.ticks := by
  have hrun : ∀ c ∈ run n, (c == tick) = true := fun c hc =>
    beq_iff_eq.2 (List.eq_of_mem_replicate hc)
  rw [readSpan?, List.span_eq_takeWhile_dropWhile, List.takeWhile_append_of_pos hrun] at h
  split at h
  · cases h
  · rename_i opening rest hopening
    obtain ⟨_, -, rfl⟩ := Option.map_eq_some_iff.1 h
    rw [← (Prod.mk.inj hopening).1]
    simp [run]

theorem readSpan?_inLine_iff {code : String} (hcode : code ≠ "") :
    readSpan? (inLine code).toList = some ⟨ticks code, code.toList, []⟩ ↔
      code.toList.head? ≠ some tick ∧ code.toList.getLast? ≠ some tick ∧
        ¬ HasRun 2 code.toList := by
  rw [toList_inLine, ← hasRun_ticks_iff]
  have hpos := ticks_pos code
  generalize ticks code = m at hpos ⊢
  rcases hlist : code.toList with _ | ⟨c, cs⟩
  · exact absurd (String.toList_injective hlist) hcode
  by_cases hc : c = tick
  · subst hc
    refine iff_of_false (fun hread => ?_) fun h => h.1 rfl
    -- The first tick of the code would be read as one of those that open it.
    rw [List.cons_append, run_concat] at hread
    exact Nat.not_succ_le_self m (ticks_readSpan? hread)
  · have hhead : (c :: cs).head? ≠ some tick := by simpa using hc
    have hlater : (c :: cs ++ run m).head? ≠ some tick := hhead
    have hread := untilRun?_append_run_iff hpos 0 (c :: cs)
    rw [run_zero, List.nil_append] at hread
    rw [readSpan?_run hpos hlater, and_iff_right hhead, and_comm, ← hread, Option.map_eq_some_iff]
    constructor
    · rintro ⟨⟨code', rest⟩, hpair, hspan⟩
      cases hspan
      exact hpair
    · exact fun h => ⟨_, h, rfl⟩

/-! ## Fences -/

variable {opening closing : List Char} {lines later : List (List Char)}

theorem readFenced?_eq_some_iff : readFenced? cs = some ⟨opening, lines, closing, later⟩ ↔
    cs.splitOn '\n' = opening :: (lines ++ closing :: later) ∧
      (∀ line ∈ lines, isFence line = false) ∧ isFence closing = true := by
  rw [readFenced?]
  generalize cs.splitOn '\n' = all
  rcases all with _ | ⟨first, rest⟩
  · simp
  dsimp only
  constructor
  · intro h
    rw [List.span_eq_takeWhile_dropWhile] at h
    split at h
    · cases h
    · rename_i lines' closing' later' hsplit
      cases h
      obtain ⟨hlines, hrest⟩ := Prod.mk.inj hsplit
      refine ⟨?_, fun line hm => ?_, ?_⟩
      · rw [← hlines, ← hrest, List.takeWhile_append_dropWhile]
      · have hopen : (!isFence line) = true :=
          List.mem_takeWhile_imp (p := (!isFence ·)) (hlines ▸ hm)
        simpa using hopen
      · have hstop := List.head?_dropWhile_not (!isFence ·) rest
        rw [hrest] at hstop
        simpa using hstop
  · rintro ⟨heq, hlines, hclosing⟩
    obtain ⟨rfl, rfl⟩ := List.cons.inj heq
    have hopen : ∀ line ∈ lines, (!isFence line) = true := by simpa using hlines
    have hspan := @span_of_forall _ lines later closing (!isFence ·) hopen (by simpa using hclosing)
    rw [hspan]

/-- The line that opens code between fences. -/
def openingLine (language : Option String) : List Char := (fence ++ language.getD "").toList

theorem splitOn_block (code : String) (language : Option String) :
    (block code language).toList.splitOn '\n' =
      (openingLine language).splitOn '\n' ++ (code.toList.splitOn '\n' ++ [fence.toList]) := by
  have hlist : (block code language).toList =
      openingLine language ++ '\n' :: (code.toList ++ '\n' :: fence.toList) := by
    simp [block, openingLine]
  have hfence : fence.toList.splitOn '\n' = [fence.toList] := by decide
  rw [hlist, List.splitOn_append_cons_self, List.splitOn_append_cons_self, hfence]

theorem splitOn_eq_singleton_iff : cs.splitOn '\n' = [cs] ↔ '\n' ∉ cs := by
  refine ⟨fun h hbreak => ?_, List.splitOn_eq_singleton⟩
  obtain ⟨front, back, rfl⟩ := List.append_of_mem hbreak
  rw [List.splitOn_append_cons_self] at h
  have hfront := List.length_pos_iff.2 (List.splitOn_ne_nil '\n' front)
  have hback := List.length_pos_iff.2 (List.splitOn_ne_nil '\n' back)
  have hlen := congrArg List.length h
  rw [List.length_append, List.length_singleton] at hlen
  omega

theorem break_mem_openingLine_iff (language : Option String) :
    '\n' ∈ openingLine language ↔ '\n' ∈ (language.getD "").toList := by
  rw [openingLine, String.toList_append, List.mem_append, or_iff_right (by decide)]

theorem readFenced?_block_iff (code : String) (language : Option String) :
    readFenced? (block code language).toList =
        some ⟨openingLine language, code.toList.splitOn '\n', fence.toList, []⟩ ↔
      '\n' ∉ (language.getD "").toList ∧
        ∀ line ∈ code.toList.splitOn '\n', isFence line = false := by
  have hfence : isFence fence.toList = true := by decide
  have hopening : (block code language).toList.splitOn '\n' =
      [openingLine language] ++ (code.toList.splitOn '\n' ++ [fence.toList]) ↔
        '\n' ∉ (language.getD "").toList := by
    rw [splitOn_block, ← break_mem_openingLine_iff, ← splitOn_eq_singleton_iff]
    exact List.append_left_inj _
  rw [readFenced?_eq_some_iff, ← List.singleton_append, hopening, and_iff_left hfence]

/-! ## Code -/

/-- Code between ticks is read back where it keeps away from the ticks around it and holds no run
of two, code between fences where no line of it begins with a fence. -/
theorem readBack_iff {code : String} (hcode : code ≠ "") (language : Option String) :
    (readSpan? (inLine code).toList = some ⟨ticks code, code.toList, []⟩ ↔
        code.toList.head? ≠ some tick ∧ code.toList.getLast? ≠ some tick ∧
          ¬ HasRun 2 code.toList) ∧
      (readFenced? (block code language).toList =
          some ⟨openingLine language, code.toList.splitOn '\n', fence.toList, []⟩ ↔
        '\n' ∉ (language.getD "").toList ∧
          ∀ line ∈ code.toList.splitOn '\n', isFence line = false) :=
  ⟨readSpan?_inLine_iff hcode, readFenced?_block_iff code language⟩

theorem readBack_iff_threeTicks :
    "a```b" ≠ "" ∧
      readSpan? (inLine "a```b").toList = some ⟨2, "a```b".toList, []⟩ ∧
      readFenced? (block "a```b" (some "text")).toList =
        some ⟨"```text".toList, ["a```b".toList], fence.toList, []⟩ := by
  have hcode : "a```b" ≠ "" := by decide
  have hruns : ¬ HasRun 2 "a```b".toList := by
    have hlist : "a```b".toList = run 0 ++ 'a' :: (run 3 ++ 'b' :: run 0) := by decide
    rw [hlist, hasRun_iff (by decide) (by decide), hasRun_iff (by decide) (by decide),
      hasRun_run_iff]
    decide
  obtain ⟨hspan, hfenced⟩ := readBack_iff hcode (some "text")
  exact ⟨hcode, hspan.2 ⟨by decide, by decide, hruns⟩, hfenced.2 ⟨by decide, by decide +kernel⟩⟩

/-- Two ticks in the code close it, and a fence in it too. -/
theorem doubledTicks_close :
    readSpan? (inLine "a``b").toList = some ⟨2, "a".toList, "b``".toList⟩ ∧
      readFenced? (block "a\n```\nb" none).toList =
        some ⟨fence.toList, ["a".toList], fence.toList, ["b".toList, fence.toList]⟩ := by
  decide +kernel

end Markwright.Code
