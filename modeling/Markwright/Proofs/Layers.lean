import Mathlib.Data.List.TakeDrop
import Markwright.Proofs.ItemTexts
import Markwright.Proofs.LineStart
import Markwright.Proofs.Spacing

/-!
# Where a text comes out

The printers of a session lie on each other, each but the lowest holding the label of a link, which
is written on the one below once the link is left. Where no cells are, nothing waits on a printer
that another one covers, so an event moves the printer on top, covers it, or writes its label on the
one below (`PrinterStack.LabelStep`). A text that waits is therefore escaped where it is, and from
then on a page begins with it: first the page that it was written on, in the end the page of the
document, with brackets escaped once for each label that it lies in (`ComesOut`, `Placed`).
-/

namespace Markwright

open Escape (escapeSpan Inserts)

/-! ## One printer -/

/-- What one event does with the printer that it finds on top. -/
inductive Printer.Turns (p : Printer) : Printer → Prop where
  | moves {q : Printer} (h : p.Moves q) : Turns p q
  | unindent {q r : Printer} {x : String} (h : p.Moves q) (hr : q.popPrefix? = some (x, r)) :
      Turns p r
  | suppress {q : Printer} (h : p.Moves q) (hq : q.pending = none) :
      Turns p { q with suppressBreaks := true }
  | delay {text : String} (htext : '\n' ∉ text.toList) : Turns p (p.delay text)

/-- No line break waits. -/
def Printer.Unbroken (p : Printer) : Prop := ∀ text, p.pending = some text → '\n' ∉ text.toList

namespace Printer

variable {p q : Printer} {text : String} {cs : List Char}

theorem written_isPrefix_print (p : Printer) (around : Surroundings) (s : String) :
    p.written.toList <+: (p.print around s).written.toList := by
  obtain ⟨more, hmore⟩ := (Extends.print p around s).written
  rw [hmore, String.toList_append]
  exact List.prefix_append _ _

theorem written_isPrefix_flush (p : Printer) (around : Surroundings) :
    p.written.toList <+: (p.flush around).written.toList := by
  obtain ⟨more, hmore⟩ := (Extends.flush p around).written
  rw [hmore, String.toList_append]
  exact List.prefix_append _ _

theorem before_eq_append (p : Printer) (h : '\n' ∉ cs) : p.before cs = p.before [] ++ cs := by
  have happend := p.before_append [] cs
  rwa [List.nil_append, indentBreaks_of_not_mem h] at happend

theorem Moves.written (h : p.Moves q) : p.written.toList <+: q.written.toList := by
  induction h with
  | refl => exact List.prefix_rfl
  | print _ around s ih => exact ih.trans (written_isPrefix_print _ around s)
  | flush _ around ih => exact ih.trans (written_isPrefix_flush _ around)
  | pushPrefix _ _ _ ih | escapeSpaces _ _ _ ih | leaveLine _ ih => exact ih

theorem before_isPrefix_flush (hp : p.pending = some text) (htext : text ≠ "")
    (hbreak : '\n' ∉ text.toList) (b : Bool) (around : Surroundings) :
    ∃ ctx : Escape.Context, ctx.escapeSpaces = p.escapeSpaces ∧
      p.before (escapeSpan ctx text.toList) <+:
        (flush { p with onNewLine := b } around).written.toList := by
  have hwritten := written_flush_eq_before (p := { p with onNewLine := b }) hp htext
    (fun hhead => hbreak (List.mem_of_head? hhead)) around
  exact ⟨context { p with onNewLine := b } around, rfl, hwritten ▸ List.prefix_rfl⟩

/-- Text that waits goes on doing so, or it is escaped before anything else is written. -/
theorem Moves.waiting (h : p.Moves q) (hp : p.pending = some text) (htext : text ≠ "")
    (hbreak : '\n' ∉ text.toList) : (∃ b, q = { p with onNewLine := b }) ∨
      q.pending = none ∧ ∃ ctx : Escape.Context, ctx.escapeSpaces = p.escapeSpaces ∧
        p.before (escapeSpan ctx text.toList) <+: q.written.toList := by
  have hflush := before_isPrefix_flush hp htext hbreak
  induction h with
  | refl => exact .inl ⟨p.onNewLine, rfl⟩
  | print _ around s ih =>
    refine .inr ⟨pending_print _ around s, ?_⟩
    obtain ⟨b, rfl⟩ | ⟨hnone, ctx, hctx, hwritten⟩ := ih
    · obtain ⟨ctx, hctx, hwritten⟩ := hflush b around
      refine ⟨ctx, hctx, hwritten.trans ?_⟩
      rw [← print_flush]
      exact written_isPrefix_print _ around s
    · exact ⟨ctx, hctx, hwritten.trans (written_isPrefix_print _ around s)⟩
  | flush _ around ih =>
    refine .inr ⟨pending_flush _ around, ?_⟩
    obtain ⟨b, rfl⟩ | ⟨hnone, ctx, hctx, hwritten⟩ := ih
    · exact hflush b around
    · exact ⟨ctx, hctx, hwritten.trans (written_isPrefix_flush _ around)⟩
  | pushPrefix _ _ hnone ih | escapeSpaces _ hnone _ ih =>
    obtain ⟨b, rfl⟩ | hescaped := ih
    · rw [hp] at hnone
      cases hnone
    · exact .inr hescaped
  | leaveLine _ ih =>
    obtain ⟨b, rfl⟩ | hescaped := ih
    · exact .inl ⟨false, rfl⟩
    · exact .inr hescaped

theorem Moves.pending (h : p.Moves q) : q.pending = none ∨ q.pending = p.pending := by
  induction h with
  | refl => exact .inr rfl
  | print _ around s _ => exact .inl (pending_print _ around s)
  | flush _ around _ => exact .inl (pending_flush _ around)
  | pushPrefix _ _ _ ih | escapeSpaces _ _ _ ih | leaveLine _ ih => exact ih

theorem popPrefix?_eq {r : Printer} {x : String} (h : p.popPrefix? = some (x, r)) :
    r = { p with linePrefixes := r.linePrefixes } := by
  obtain ⟨y, -, hy⟩ := Option.map_eq_some_iff.1 h
  cases hy
  rfl

namespace Turns

theorem written (h : p.Turns q) : p.written.toList <+: q.written.toList := by
  cases h with
  | moves h | suppress h _ => exact h.written
  | unindent h hr =>
    rw [popPrefix?_eq hr]
    exact h.written
  | delay _ => exact List.prefix_rfl

theorem unbroken (h : p.Turns q) (hp : p.Unbroken) : q.Unbroken := by
  have hmoves : ∀ {r : Printer}, p.Moves r → r.Unbroken := by
    intro r hr text hwaits
    rcases hr.pending with hnone | hsame
    · rw [hnone] at hwaits
      cases hwaits
    · exact hp text (hsame ▸ hwaits)
  cases h with
  | moves h => exact hmoves h
  | suppress h hnone => exact fun text hwaits => hmoves h text hwaits
  | unindent h hr =>
    rw [popPrefix?_eq hr]
    exact fun text hwaits => hmoves h text hwaits
  | delay htext =>
    rintro _ ⟨⟩
    rw [String.toList_append, List.mem_append, not_or]
    refine ⟨?_, htext⟩
    rcases hpending : p.pending with _ | before
    · simp
    · exact hp before hpending

/-- Text that waits goes on doing so and nothing else changes for it, or it is escaped. -/
theorem waiting (h : p.Turns q) (hp : p.pending = some text) (htext : text ≠ "")
    (hbreak : '\n' ∉ text.toList) :
    (∃ more, q.pending = some (text ++ more) ∧ q.escapeSpaces = p.escapeSpaces) ∨
      ∃ ctx : Escape.Context, ctx.escapeSpaces = p.escapeSpaces ∧
        p.before (escapeSpan ctx text.toList) <+: q.written.toList := by
  have hkept : ∀ b : Bool, ∃ more, ({ p with onNewLine := b } : Printer).pending =
      some (text ++ more) ∧ ({ p with onNewLine := b } : Printer).escapeSpaces = p.escapeSpaces :=
    fun _ => ⟨"", by rw [hp, String.append_empty], rfl⟩
  cases h with
  | moves h =>
    obtain ⟨b, rfl⟩ | ⟨-, hescaped⟩ := h.waiting hp htext hbreak
    · exact .inl (hkept b)
    · exact .inr hescaped
  | unindent h hr =>
    rw [popPrefix?_eq hr]
    obtain ⟨b, rfl⟩ | ⟨-, hescaped⟩ := h.waiting hp htext hbreak
    · exact .inl (hkept b)
    · exact .inr hescaped
  | suppress h hnone =>
    obtain ⟨b, rfl⟩ | ⟨-, hescaped⟩ := h.waiting hp htext hbreak
    · rw [hp] at hnone
      cases hnone
    · exact .inr hescaped
  | @delay more _ => exact .inl ⟨more, by simp [Printer.delay, hp], rfl⟩

end Turns

end Printer

/-! ## Printers on each other -/

namespace PrinterStack

/-- The printers, the one on top first. -/
def layers (s : PrinterStack) : List Printer := s.captures ++ [s.root]

/-- The printers below the one on top. -/
def below (s : PrinterStack) : List Printer := s.layers.tail

variable {s t : PrinterStack} {p q : Printer}

theorem layers_eq (s : PrinterStack) : s.layers = s.active :: s.below := by
  obtain ⟨root, captures⟩ := s
  cases captures <;> rfl

theorem layers_setActive (s : PrinterStack) (p : Printer) :
    (s.setActive p).layers = p :: s.below := by
  obtain ⟨root, captures⟩ := s
  cases captures <;> rfl

theorem layers_push (s : PrinterStack) :
    s.push.layers = Printer.fresh s.active.onNewLine :: s.layers := rfl

theorem layers_of_captures {rest : List Printer} (h : s.captures = p :: rest) :
    s.layers = p :: layers ⟨s.root, rest⟩ := by
  rw [layers, h]
  rfl

/-- What an event that begins and ends no cell does with the printers. -/
inductive LabelStep (style : Style) (s : PrinterStack) : PrinterStack → Prop where
  | stay {q : Printer} (h : s.active.Turns q) : LabelStep style s (s.setActive q)
  | cover {q : Printer} (h : s.active.Moves q) (hq : q.pending = none) :
      LabelStep style s (s.setActive q).push
  | uncover {t : PrinterStack} {q : Printer} {below : List Printer} {a b : Surroundings}
      {r : Reference} {parameters : Option Parameters} (hs : s.below = q :: below)
      (ht : t.layers = q.print b (Session.linkText style r (s.active.flush a).written parameters) ::
        below) : LabelStep style s t

/-- Nothing waits below the printer on top. -/
def Covered (s : PrinterStack) : Prop := ∀ q ∈ s.below, q.pending = none

theorem below_eq_of_layers {rest : List Printer} (h : s.layers = p :: rest) : s.below = rest := by
  rw [layers_eq] at h
  exact (List.cons.inj h).2

theorem active_eq_of_layers {rest : List Printer} (h : s.layers = p :: rest) : s.active = p := by
  rw [layers_eq] at h
  exact (List.cons.inj h).1

theorem LabelStep.covered {style : Style} (h : LabelStep style s t) (hs : s.Covered) :
    t.Covered := by
  cases h with
  | stay _ =>
    rw [Covered, below_eq_of_layers (layers_setActive s _)]
    exact hs
  | @cover q _ hq =>
    rw [Covered, below_eq_of_layers (layers_push _), layers_setActive]
    exact List.forall_mem_cons.2 ⟨hq, hs⟩
  | uncover hbelow ht =>
    rw [Covered, below_eq_of_layers ht]
    rw [Covered, hbelow] at hs
    exact (List.forall_mem_cons.1 hs).2

/-- What waits on top holds no line break, if none is queued. -/
theorem LabelStep.unbroken {style : Style} (h : LabelStep style s t) (hs : s.active.Unbroken) :
    t.active.Unbroken := by
  have hnone : ∀ {q : Printer}, q.pending = none → q.Unbroken := by
    intro q hq text hwaits
    rw [hq] at hwaits
    cases hwaits
  cases h with
  | stay h =>
    rw [active_setActive]
    exact h.unbroken hs
  | cover _ _ => exact hnone rfl
  | uncover _ ht =>
    rw [active_eq_of_layers ht]
    exact hnone (Printer.pending_print _ _ _)

end PrinterStack

/-! ## Coming out -/

/-- With some printers below, a page that begins with a front and a text comes to stand on the page
of the document: in each label both have brackets escaped, and what the printer below holds stands
before. -/
inductive ComesOut : List Printer → List Char → List Char → List Char → List Char → Prop where
  | page (front text : List Char) : ComesOut [] front text front text
  | label {p : Printer} {below : List Printer} {front text front' text' x w : List Char}
      (hfront : Inserts ['[', ']'] front front') (htext : Inserts ['[', ']'] text text')
      (h : ComesOut below (p.before ('[' :: front')) text' x w) :
      ComesOut (p :: below) front text x w

/-- A front, a text and what is shown behind it begin a page, or begin the page of a label that lies
on the others. -/
def Placed (shown : List Char) (below : List Printer) (front text : List Char)
    (layers : List Printer) : Prop :=
  ∃ above p rest front' text', layers = above ++ p :: rest ∧
    front' ++ text' ++ shown <+: p.written.toList ∧ '\n' ∉ text' ∧
    ∀ x w, ComesOut rest front' text' x w → ComesOut below front text x w

namespace Placed

variable {shown front text : List Char} {below layers : List Printer} {p q : Printer}

theorem of_written (h : front ++ text ++ shown <+: p.written.toList) (htext : '\n' ∉ text) :
    Placed shown below front text (p :: below) :=
  ⟨[], p, below, front, text, rfl, h, htext, fun _ _ => id⟩

theorem of_singleton (h : Placed shown below front text [p]) :
    ∃ x w, ComesOut below front text x w ∧ x ++ w ++ shown <+: p.written.toList := by
  obtain ⟨above, q, rest, front', text', heq, hwritten, -, h⟩ := h
  rcases above with _ | ⟨a, above⟩
  · obtain ⟨rfl, rfl⟩ := List.cons.inj heq
    exact ⟨front', text', h _ _ (.page _ _), hwritten⟩
  · simp at heq

theorem cons (h : Placed shown below front text layers) (p : Printer) :
    Placed shown below front text (p :: layers) := by
  obtain ⟨above, q, rest, front', text', rfl, h⟩ := h
  exact ⟨p :: above, q, rest, front', text', rfl, h⟩

theorem of_prefix (h : Placed shown below front text (p :: layers))
    (hpq : p.written.toList <+: q.written.toList) :
    Placed shown below front text (q :: layers) := by
  obtain ⟨above, p', rest, front', text', heq, hwritten, h⟩ := h
  rcases above with _ | ⟨a, above⟩
  · obtain ⟨rfl, rfl⟩ := List.cons.inj heq
    exact ⟨[], q, _, front', text', rfl, hwritten.trans hpq, h⟩
  · obtain ⟨rfl, rfl⟩ := List.cons.inj heq
    exact ⟨q :: above, p', rest, front', text', rfl, hwritten, h⟩

theorem exists_toList_linkText (style : Style) (r : Reference) (parameters : Option Parameters)
    {label : String} (hlabel : label.toList ≠ []) : ∃ rest,
      (Session.linkText style r label parameters).toList =
        '[' :: ((Escape.label label).toList ++ rest) := by
  have hempty : label.isEmpty = false := by simpa using hlabel
  exact ⟨"]".toList ++ (Session.target style r (lookupIn parameters "title")).toList, by
    simp [Session.linkText, hempty]⟩

/-- What begins a label begins the page below, once the label is written. -/
theorem written_label {label : String} (style : Style) (r : Reference)
    (parameters : Option Parameters) (a : Surroundings) (hq : q.pending = none)
    (h : front ++ text ++ shown <+: label.toList) (htext : '\n' ∉ text) (hshown : shown ≠ [])
    (hplain : ∀ c ∈ shown, c ≠ '\n' ∧ c ∉ ['[', ']']) :
    Placed shown (q :: below) front text
      (q.print a (Session.linkText style r label parameters) :: below) := by
  obtain ⟨more, hlabel⟩ := h
  have hins := Escape.inserts_bracketLabel label
  rw [← hlabel] at hins
  obtain ⟨l, more', hmore, hins, -⟩ := hins.exists_of_append
  obtain ⟨l', shown', rfl, hins, hsame⟩ := hins.exists_of_append
  obtain ⟨front', text', rfl, hfront, htext'⟩ := hins.exists_of_append
  obtain rfl := hsame.eq_of_forall_not_mem fun c hc => (hplain c hc).2
  have hbreak : '\n' ∉ text' := fun hmem =>
    (htext'.mem hmem).elim (by decide) htext
  have hbreak' : '\n' ∉ shown' := fun hmem => (hplain _ hmem).1 rfl
  have hne : label.toList ≠ [] := by simp [← hlabel, hshown]
  obtain ⟨rest, hlink⟩ := exists_toList_linkText style r parameters hne
  have hpassed : q.passed (Session.linkText style r label parameters) =
      (Session.linkText style r label parameters).toList :=
    Printer.passed_of_head?_ne fun _ => by simp [hlink]
  refine ⟨[], _, below, q.before ('[' :: front'), text', rfl, ?_, hbreak, fun x w h =>
    .label hfront htext' h⟩
  rw [Printer.print, Printer.flush_of_none a hq,
    Printer.written_write _ _ (by simp [hpassed, hlink]), hpassed, hlink, hmore]
  refine ⟨Printer.indentBreaks q.indentation (more' ++ rest), ?_⟩
  have hsplit : '[' :: (front' ++ text' ++ shown' ++ more' ++ rest) =
      '[' :: front' ++ (text' ++ shown') ++ (more' ++ rest) := by simp
  have hkept : Printer.indentBreaks q.indentation (text' ++ shown') = text' ++ shown' :=
    Printer.indentBreaks_of_not_mem (by simp [hbreak, hbreak'])
  rw [hsplit, Printer.before_append, Printer.before_append, hkept,
    List.append_assoc (q.before _) text' shown']

theorem step {style : Style} {s t : PrinterStack} (hst : s.LabelStep style t) (hs : s.Covered)
    (hshown : shown ≠ []) (hplain : ∀ c ∈ shown, c ≠ '\n' ∧ c ∉ ['[', ']'])
    (h : Placed shown below front text s.layers) : Placed shown below front text t.layers := by
  rw [PrinterStack.layers_eq] at h
  cases hst with
  | stay hq =>
    rw [PrinterStack.layers_setActive]
    exact h.of_prefix hq.written
  | cover hq _ =>
    rw [PrinterStack.layers_push, PrinterStack.layers_setActive]
    exact (h.of_prefix hq.written).cons _
  | @uncover _ q rest a b r parameters hbelow ht =>
    rw [PrinterStack.Covered, hbelow] at hs
    rw [hbelow] at h
    rw [ht]
    obtain ⟨above, p, rest', front', text', heq, hwritten, htext, hout⟩ := h
    rcases above with _ | ⟨p', above⟩
    · obtain ⟨rfl, rfl⟩ := List.cons.inj heq
      have hlabel := hwritten.trans (Printer.written_isPrefix_flush s.active a)
      obtain ⟨above, p, rest', front', text', heq, hwritten, htext, hout'⟩ :=
        written_label style r parameters b (hs q List.mem_cons_self) hlabel htext hshown hplain
      exact ⟨above, p, rest', front', text', heq, hwritten, htext,
        fun x w h => hout x w (hout' x w h)⟩
    · obtain ⟨rfl, hrest⟩ := List.cons.inj heq
      have hlater : Placed shown below front text (q :: rest) :=
        ⟨above, p, rest', front', text', hrest, hwritten, htext, hout⟩
      exact hlater.of_prefix (Printer.written_isPrefix_print q _ _)

/-- Text that waits on top goes on doing so, or it is escaped and begins a page. -/
theorem of_waiting {style : Style} {s t : PrinterStack} {waiting : String}
    (hst : s.LabelStep style t) (hs : s.Covered) (hp : s.active.pending = some waiting)
    (hwaiting : waiting ≠ "") (hbreak : '\n' ∉ waiting.toList) :
    (∃ more, t.active.pending = some (waiting ++ more) ∧
      t.active.escapeSpaces = s.active.escapeSpaces) ∨
    ∃ ctx : Escape.Context, ctx.escapeSpaces = s.active.escapeSpaces ∧
      ∀ {shown front text : List Char}, shown ≠ [] → (∀ c ∈ shown, c ≠ '\n' ∧ c ∉ ['[', ']']) →
        '\n' ∉ text → front ++ text ++ shown <+: s.active.before (escapeSpan ctx waiting.toList) →
          Placed shown s.below front text t.layers := by
  cases hst with
  | stay hq =>
    rw [PrinterStack.active_setActive, PrinterStack.layers_setActive]
    obtain hwaits | ⟨ctx, hctx, hwritten⟩ := hq.waiting hp hwaiting hbreak
    · exact .inl hwaits
    · exact .inr ⟨ctx, hctx, fun _ _ htext hfront => of_written (hfront.trans hwritten) htext⟩
  | cover hq hnone =>
    obtain ⟨b, rfl⟩ | ⟨-, ctx, hctx, hwritten⟩ := hq.waiting hp hwaiting hbreak
    · rw [hp] at hnone
      cases hnone
    · refine .inr ⟨ctx, hctx, fun _ _ htext hfront => ?_⟩
      rw [PrinterStack.layers_push, PrinterStack.layers_setActive]
      exact (of_written (hfront.trans hwritten) htext).cons _
  | @uncover _ q below a b r parameters hbelow ht =>
    obtain ⟨ctx, hctx, hwritten⟩ :=
      Printer.before_isPrefix_flush hp hwaiting hbreak s.active.onNewLine a
    refine .inr ⟨ctx, hctx, fun hshown hplain htext hfront => ?_⟩
    rw [ht, hbelow]
    exact written_label style r parameters b (hs q (by simp [hbelow])) (hfront.trans hwritten)
      htext hshown hplain

end Placed

/-! ## Events -/

/-- No cell begins or ends, and what is queued holds no line break. -/
def Event.IsPlain : Event → Prop
  | .enter c | .leave c => c.place ≠ .tableRow
  | .leaf l => ∀ text, l.queued? = some text → '\n' ∉ text.toList

namespace Session

variable {style : Style} {s t u : Session} {c : Container} {e : Event}

theorem depth_writeLeave (hc : c.place ≠ .tableRow) (hlink : ∀ r f q, c ≠ .link r f q)
    (h : writeLeave style s c = .ok t) : t.printers.depth = s.printers.depth := by
  have hmoves : ∀ {a b : PrinterStack}, a.Moves b → b.depth = a.depth := by
    rintro a b ⟨q, -, rfl⟩
    exact PrinterStack.depth_setActive a q
  have hpop : ∀ {v : Session}, v.popPrefix = .ok t → t.printers.depth = v.printers.depth := by
    intro v hv
    unfold popPrefix at hv
    split at hv <;> cases hv
    exact PrinterStack.depth_setActive _ _
  have hrefl := PrinterStack.Moves.refl s.printers
  cases c
  case document | header | paragraph | list | quotationLine =>
    cases h
    exact hmoves (hrefl.flush _)
  case definitionList | tableRow =>
    cases h
    rfl
  case format f _ =>
    cases h
    exact hmoves (moves_markFormat s f _ _)
  case listItem | quotation => exact hpop h
  case definitionTerm =>
    cases h
    exact hmoves (hrefl.print _ "\n")
  case definitionDescription => exact (hpop h).trans (hmoves (hrefl.flush _))
  case table =>
    cases h
    exact hmoves ((moves_emptyLine hrefl).print _ _)
  case tableCell | tableHeadCell => exact absurd rfl hc
  case link r f q => exact absurd rfl (hlink r f q)

theorem labelStep_enter (style : Style) (s : Session) (hc : c.place ≠ .tableRow) :
    s.printers.LabelStep style (s.entered style c).printers := by
  by_cases hcap : c.Captures (s.nesting.enter c)
  · cases c
    case link r freeStanding q =>
      obtain ⟨hlt, rfl⟩ := hcap
      have hcover : (s.entered style (.link r false q)).printers =
          (s.printers.flush (s.nesting.enter (.link r false q)).around).push := by
        simp only [entered, writeEnter]
        rw [if_pos ⟨hlt, rfl⟩]
        rfl
      rw [hcover]
      exact .cover (.flush .refl _) (Printer.pending_flush _ _)
    case tableCell | tableHeadCell => exact absurd rfl hc
    all_goals exact hcap.elim
  · have hstep := printers_step (step_enter style s c)
    have hdepth := depth_entered style hcap
    generalize (s.entered style c).printers = after at hstep hdepth
    cases hstep with
    | stay h => exact .stay (.moves h)
    | suppress _ h hq => exact .stay (.suppress h hq)
    | push h =>
      have hmore := PrinterStack.depth_setActive s.printers ‹_›
      simp only [PrinterStack.depth, PrinterStack.push, List.length_cons] at hdepth hmore
      omega

theorem labelStep_popCapture {text : String} (h : s.popCapture = .ok (text, u)) (r : Reference)
    (q : Option Parameters) :
    s.printers.LabelStep style (u.print (linkText style r text q)).printers := by
  unfold popCapture PrinterStack.pop? at h
  rcases hs : s.printers.captures with _ | ⟨p, rest⟩
  · rw [hs] at h
    cases h
  · rw [hs] at h
    cases h
    have hlayers := PrinterStack.layers_of_captures hs
    rw [PrinterStack.layers_eq ⟨s.printers.root, rest⟩] at hlayers
    obtain rfl := PrinterStack.active_eq_of_layers hlayers
    exact .uncover (PrinterStack.below_eq_of_layers hlayers) (PrinterStack.layers_setActive _ _)

theorem labelStep_leave (hc : c.place ≠ .tableRow) (h : writeLeave style s c = .ok t) :
    s.printers.LabelStep style t.printers := by
  by_cases hlink : ∃ r f q, c = .link r f q
  · obtain ⟨r, freeStanding, q, rfl⟩ := hlink
    have hmoves : ∀ {a b : PrinterStack}, a.Moves b → a.LabelStep style b := by
      rintro a b ⟨q, hq, rfl⟩
      exact .stay (.moves hq)
    have hrefl := PrinterStack.Moves.refl s.printers
    unfold writeLeave at h
    dsimp only at h
    split at h
    · cases h
      exact hmoves (hrefl.print _ _)
    · split at h
      · split at h
        · cases h
        · rename_i label u hpop
          cases h
          exact labelStep_popCapture hpop r q
      · cases h
        exact hmoves hrefl
  · have hnone : ∀ r f q, c ≠ .link r f q := fun r f q hc => hlink ⟨r, f, q, hc⟩
    have hdepth := depth_writeLeave hc hnone h
    have hstep := step_writeLeave h
    generalize t.printers = after at hstep hdepth
    cases hstep with
    | stay h => exact .stay (.moves h)
    | unindent h hr => exact .stay (.unindent h hr)
    | pop hs h =>
      have hless := PrinterStack.depth_setActive ⟨s.printers.root, ‹_›⟩ ‹_›
      simp only [PrinterStack.depth, hs, List.length_cons] at hdepth hless
      omega

/-- An event that begins and ends no cell moves the printer on top, covers it or writes it on the
one below. -/
theorem labelStep_of_step (h : step style s e = .ok t) (he : e.IsPlain) :
    s.printers.LabelStep style t.printers := by
  cases e with
  | enter c =>
    cases h
    exact labelStep_enter style s he
  | leave c =>
    obtain ⟨u, n, hwrite, -, rfl⟩ := exists_of_step_leave h
    have hstep := labelStep_leave he hwrite
    exact hstep
  | leaf l =>
    obtain ⟨u, hwrite, rfl⟩ := exists_of_step_leaf h
    rcases hl : l.queued? with _ | text
    · obtain ⟨q, hq, hsame⟩ := moves_writeLeaf hl hwrite
      dsimp only
      rw [hsame]
      exact .stay (.moves hq)
    · rw [writeLeaf_queued hl] at hwrite
      cases hwrite
      exact .stay (.delay (he text hl))

/-- Nothing waits below the printer on top, and no line break waits on it. -/
structure Tidy (s : Session) : Prop where
  covered : s.printers.Covered
  unbroken : s.printers.active.Unbroken

theorem tidy_start (style : Style) : (start style).Tidy := ⟨nofun, nofun⟩

theorem Tidy.step (hs : s.Tidy) (h : step style s e = .ok t) (he : e.IsPlain) : t.Tidy := by
  have hst := labelStep_of_step h he
  exact ⟨hst.covered hs.covered, hst.unbroken hs.unbroken⟩

theorem Tidy.steps : ∀ {events : List Event} {s : Session}, s.Tidy →
    (∀ e ∈ events, e.IsPlain) → steps style s events = .ok t → t.Tidy
  | [], s, hs, _, h => by
    cases h
    exact hs
  | e :: rest, s, hs, hplain, h => by
    obtain ⟨u, hu, hrest⟩ := exists_of_steps_cons h
    exact (hs.step hu (hplain e (by simp))).steps (fun e' he' => hplain e' (by simp [he'])) hrest

theorem placed_steps {shown front text : List Char} {below : List Printer} (hshown : shown ≠ [])
    (hunmarked : ∀ c ∈ shown, c ≠ '\n' ∧ c ∉ ['[', ']']) : ∀ {events : List Event} {s : Session},
    s.Tidy → (∀ e ∈ events, e.IsPlain) → steps style s events = .ok t →
    Placed shown below front text s.printers.layers →
    Placed shown below front text t.printers.layers
  | [], s, _, _, h, hplaced => by
    cases h
    exact hplaced
  | e :: rest, s, hs, hplain, h, hplaced => by
    obtain ⟨u, hu, hrest⟩ := exists_of_steps_cons h
    have he := hplain e (by simp)
    exact placed_steps hshown hunmarked (hs.step hu he) (fun e' he' => hplain e' (by simp [he']))
      hrest (hplaced.step (labelStep_of_step hu he) hs.covered hshown hunmarked)

/-- A text that waits and does not at the end is escaped somewhere along the events, and from then
on it begins a page. -/
theorem exists_placed : ∀ {events : List Event} {s : Session} {text : String},
    s.Tidy → (∀ e ∈ events, e.IsPlain) → steps style s events = .ok t →
    s.printers.active.pending = some text → text ≠ "" → t.printers.active.pending = none →
    ∃ mid rest u more ctx, events = mid ++ rest ∧ steps style s mid = .ok u ∧
      u.printers.active.pending = some (text ++ more) ∧
      ctx.escapeSpaces = s.printers.active.escapeSpaces ∧
      ∀ {shown front shape : List Char}, shown ≠ [] → (∀ c ∈ shown, c ≠ '\n' ∧ c ∉ ['[', ']']) →
        '\n' ∉ shape → front ++ shape ++ shown <+:
          u.printers.active.before (escapeSpan ctx (text ++ more).toList) →
        Placed shown u.printers.below front shape t.printers.layers
  | [], s, text, _, _, h, hwaits, _, hnone => by
    cases h
    rw [hwaits] at hnone
    cases hnone
  | e :: rest, s, text, hs, hplain, h, hwaits, htext, hnone => by
    obtain ⟨u, hu, hrest⟩ := exists_of_steps_cons h
    have he := hplain e (by simp)
    have hlater : ∀ e' ∈ rest, e'.IsPlain := fun e' he' => hplain e' (by simp [he'])
    obtain ⟨more, hmore, hspaces⟩ | ⟨ctx, hctx, hplaced⟩ := Placed.of_waiting
      (labelStep_of_step hu he) hs.covered hwaits htext (hs.unbroken text hwaits)
    · have hne : text ++ more ≠ "" := fun hnil => htext (String.append_eq_empty_iff.1 hnil).1
      obtain ⟨mid, rest', v, more', ctx, rfl, hv, hmore', hctx, hplaced⟩ :=
        exists_placed (hs.step hu he) hlater hrest hmore hne hnone
      rw [String.append_assoc] at hmore' hplaced
      exact ⟨e :: mid, rest', v, more ++ more', ctx, rfl, (steps_cons hu).trans hv, hmore',
        hctx.trans hspaces, hplaced⟩
    · refine ⟨[], e :: rest, s, "", ctx, rfl, rfl, by rw [hwaits, String.append_empty], hctx,
        fun hshown hunmarked hshape hfront => ?_⟩
      rw [String.append_empty] at hfront
      exact placed_steps hshown hunmarked (hs.step hu he) hlater hrest
        (hplaced hshown hunmarked hshape hfront)

end Session

end Markwright
