import Markwright.CommandLine.Folder
import Markwright.Proofs.Stored

/-!
# Where loading fails

A fault of loading belongs to a stage, but for two. A list or a record as the type of a node is told
only at the root, since every node blames the fault of a child on itself. An infinite number where
an integer is due is told wherever it is met: below the value that it comes from there is a heading
with an infinite level, or empty lines with an infinite count. So a value without either is loaded,
or refused at a stage, and then the command line ends with an exit code.
-/

namespace Markwright

open CommandLine (Request Outcome)

variable {fault : LoadFault} {owner key name : String}

/-! ## Faults of parts -/

section Parts

variable {ε α β : Type} {e : ε}

theorem bind_error {x : Except ε α} {f : α → Except ε β} :
    x >>= f = .error e ↔ x = .error e ∨ ∃ a, x = .ok a ∧ f a = .error e := by
  cases x <;> simp [bind, Except.bind]

theorem pure_ne_error {a : α} : (pure a : Except ε α) ≠ .error e := by
  simp [pure, Except.pure]

theorem mapError_error {δ : Type} {f : δ → ε} {x : Except δ α} :
    x.mapError f = .error e ↔ ∃ d, x = .error d ∧ f d = e := by
  cases x <;> simp [Except.mapError]

end Parts

theorem stage?_eq_none : fault.stage? = none ↔
    (∃ kind, fault = .compositeNodeType kind) ∨ fault = .infiniteNumber := by
  cases fault <;> simp [LoadFault.stage?]

theorem blameOwner_ne_composite {kind : String} :
    Fields.blameOwner owner fault ≠ .compositeNodeType kind := by
  cases fault <;> simp [Fields.blameOwner]

theorem blameOwner_eq_infinite :
    Fields.blameOwner owner fault = .infiniteNumber ↔ fault = .infiniteNumber := by
  cases fault <;> simp [Fields.blameOwner]

theorem blameHeading_eq_infinite :
    Fields.blameHeading fault = .infiniteNumber ↔ fault = .infiniteNumber := by
  cases fault <;> simp [Fields.blameHeading]

theorem readParameters_ne_infinite {parameters : Option Value} :
    readParameters owner parameters ≠ .error .infiniteNumber := by
  unfold readParameters
  repeat' split
  all_goals simp

theorem readReference_ne_infinite {v : Value} : readReference v ≠ .error .infiniteNumber := by
  unfold readReference
  repeat' split
  all_goals
    simp only [bind_error, readParameters_ne_infinite, pure_ne_error, and_false, exists_false,
      or_self, not_false_eq_true, ne_eq, reduceCtorEq, Except.error.injEq]

theorem readChoice_ne_infinite {α : Type} {ofName? : String → Option α} {what : String}
    {v : Value} : readChoice ofName? what v ≠ .error .infiniteNumber := by
  unfold readChoice
  repeat' split
  all_goals simp

/-- An infinite number. -/
def Value.IsInfinite : Value → Prop
  | .real x => ∃ negative, Decimal.exact x = .infinite negative
  | _ => False

theorem toInt?_infinite {v : Value} (h : v.toInt? = .error .infinite) : v.IsInfinite := by
  unfold Value.toInt? at h
  split at h
  all_goals try cases h
  · split at h <;> cases h
  · rename_i x
    split at h
    all_goals cases h
    exact ⟨_, ‹_›⟩

theorem readLineCount_infinite {v : Value} (h : readLineCount v = .error .infiniteNumber) :
    v.IsInfinite := by
  unfold readLineCount at h
  split at h
  · exact toInt?_infinite ‹_›
  · cases h
  · split at h <;> cases h

theorem heading_infinite {fields : Fields}
    (h : fields.heading owner = .error .infiniteNumber) :
    (∃ v, fields.value? "level" = some v ∧ v.IsInfinite) ∨
      fields.nodes owner "content" = .error .infiniteNumber := by
  unfold Fields.heading at h
  split at h
  · cases h
  · rename_i hlevel
    obtain ⟨v, hv, hinf⟩ := Option.map_eq_some_iff.1 hlevel
    exact Or.inl ⟨v, hv, toInt?_infinite hinf⟩
  · cases h
  · simp only [bind_error, mapError_error, Fields.parameters, readParameters_ne_infinite,
      pure_ne_error, and_false, exists_false, or_false, reduceCtorEq, blameHeading_eq_infinite,
      exists_eq_right] at h
    exact Or.inr h

theorem call_ne_infinite {fields : Fields} : fields.call owner ≠ .error .infiniteNumber := by
  unfold Fields.call
  split
  · simp
  · simp only [bind_error, Fields.parameters, readParameters_ne_infinite, pure_ne_error,
      and_false, exists_false, or_self, not_false_eq_true, ne_eq]

/-- An infinite number is met as a level, as a count, or among the nodes of a field. -/
theorem assemble?_infinite {fields : Fields}
    (h : fields.assemble? name = some (.error .infiniteNumber)) :
    (name = "Heading" ∧ ∃ v, fields.value? "level" = some v ∧ v.IsInfinite) ∨
      (name = "EmptyLines" ∧ ∃ v, fields.value? "count" = some v ∧ v.IsInfinite) ∨
      ∃ owner key, fields.nodes owner key = .error .infiniteNumber := by
  unfold Fields.assemble? at h
  split at h
  case h_2 =>
    rcases heading_infinite (Option.some.inj h) with h | h
    · exact Or.inl ⟨rfl, h⟩
    · exact Or.inr (Or.inr ⟨_, _, h⟩)
  case h_15 =>
    refine Or.inr (Or.inl ⟨rfl, ?_⟩)
    simp only [Option.some.injEq, bind_error, pure_ne_error, and_false, exists_false,
      or_false] at h
    rcases hcount : fields.value? "count" with _ | v
    · rw [hcount] at h
      cases readLineCount_infinite h
    · rw [hcount] at h
      exact ⟨v, rfl, readLineCount_infinite h⟩
  all_goals
    simp only [Option.some.injEq, bind_error, Fields.parameters, readParameters_ne_infinite,
      readReference_ne_infinite, readChoice_ne_infinite, call_ne_infinite, pure_ne_error,
      exists_and_right, and_false, exists_false, or_false, false_or, reduceCtorEq] at h
  case h_20 | h_21 => exact Or.inr (Or.inr ⟨_, _, h.2⟩)
  all_goals exact Or.inr (Or.inr ⟨_, _, h⟩)

/-! ## Faults of values -/

theorem Scalar.eq_of_text_beq {k : Scalar} {s : String} (h : (Scalar.text s == k) = true) :
    k = .text s := by
  cases k with
  | text t => rw [text_beq_text, beq_iff_eq] at h; rw [h]
  | _ => cases h

theorem Scalar.eq_of_beq_text {k : Scalar} {s : String} (h : (k == Scalar.text s) = true) :
    k = .text s := by
  cases k with
  | text t => rw [text_beq_text, beq_iff_eq] at h; rw [h]
  | _ => cases h

theorem readFieldNodes_skip {k : Scalar} (h : ∀ s, k ≠ .text s) (v : Value)
    (rest : List (Scalar × Value)) : readFieldNodes ((k, v) :: rest) = readFieldNodes rest := by
  cases k with
  | text s => exact absurd rfl (h s)
  | _ => cases v <;> rfl

/-- The fields that are read are those of the record. -/
theorem value?_readFieldNodes (name : String) : ∀ fields : List (Scalar × Value),
    (readFieldNodes fields).value? name = Value.named? fields name
  | [] => rfl
  | (k, v) :: rest => by
    have ih := value?_readFieldNodes name rest
    by_cases hk : ∃ s, k = .text s
    · obtain ⟨s, rfl⟩ := hk
      rw [readFieldNodes_cons, Fields.value?_cons, ih]
      by_cases hs : name = s
      · simp [Value.named?, List.lookup_cons, hs]
      · simp [Value.named?, List.lookup_cons, beq_false_of_ne hs, hs]
    · have hskip : ∀ s, k ≠ .text s := fun s hs => hk ⟨s, hs⟩
      have hne : (Scalar.text name == k) = false :=
        Bool.eq_false_iff.2 fun h => hskip name (Scalar.eq_of_text_beq h)
      rw [readFieldNodes_skip hskip, ih, Value.named?, Value.named?, List.lookup_cons, hne]

/-- A fault of the nodes of a field, other than that it holds none, is one of its items. -/
theorem nodes_infinite : ∀ {fields : List (Scalar × Value)},
    (readFieldNodes fields).nodes owner key = .error .infiniteNumber →
      ∃ items, (.text key, .list items) ∈ fields ∧ readNodes items = .error .infiniteNumber
  | [], h => by cases h
  | (k, v) :: rest, h => by
    by_cases hk : ∃ s, k = .text s
    · obtain ⟨s, rfl⟩ := hk
      rw [readFieldNodes_cons, Fields.nodes_cons] at h
      split at h
      · subst_vars
        cases v with
        | list items => exact ⟨items, by simp, h⟩
        | _ => cases h
      · obtain ⟨items, hmem, hitems⟩ := nodes_infinite h
        exact ⟨items, by simp [hmem], hitems⟩
    · rw [readFieldNodes_skip fun s hs => hk ⟨s, hs⟩] at h
      obtain ⟨items, hmem, hitems⟩ := nodes_infinite h
      exact ⟨items, by simp [hmem], hitems⟩

theorem exists_of_readNodes_error : ∀ {items : List Value}, readNodes items = .error fault →
    ∃ v ∈ items, Node.ofValue v = .error fault
  | v :: rest, h => by
    rw [readNodes] at h
    split at h
    · rename_i hv
      cases h
      exact ⟨v, by simp, hv⟩
    · rcases hrest : readNodes rest with f | nodes
      · rw [hrest] at h
        cases h
        obtain ⟨w, hw, hf⟩ := exists_of_readNodes_error hrest
        exact ⟨w, by simp [hw], hf⟩
      · rw [hrest] at h
        cases h

namespace Value

/-- The type of a record is a list or a record that is not empty. -/
inductive CompositelyTyped : Value → Prop where
  | list {fields : List (Scalar × Value)} {items : List Value}
      (htype : named? fields "node_type" = some (.list items)) (hne : items ≠ []) :
      CompositelyTyped (.record fields)
  | record {fields entries : List (Scalar × Value)}
      (htype : named? fields "node_type" = some (.record entries)) (hne : entries ≠ []) :
      CompositelyTyped (.record fields)

/-- Somewhere among the nodes of a value there is a heading with an infinite level, or empty lines
with an infinite count. -/
inductive Overflows : Value → Prop where
  | heading {fields : List (Scalar × Value)} {v : Value}
      (htype : named? fields "node_type" = some (.text "Heading"))
      (hlevel : named? fields "level" = some v) (hv : v.IsInfinite) : Overflows (.record fields)
  | emptyLines {fields : List (Scalar × Value)} {v : Value}
      (htype : named? fields "node_type" = some (.text "EmptyLines"))
      (hcount : named? fields "count" = some v) (hv : v.IsInfinite) : Overflows (.record fields)
  | within {fields : List (Scalar × Value)} {key : String} {items : List Value} {v : Value}
      (hfield : (.text key, .list items) ∈ fields) (hitem : v ∈ items) (hv : Overflows v) :
      Overflows (.record fields)

end Value

namespace Node

/-- A record is read as a node by the type that it gives. -/
theorem ofValue_record (fields : List (Scalar × Value)) :
    (∃ r, ofValue (.record fields) = .error r ∧ r.stage?.isSome) ∨
      ((∃ kind, ofValue (.record fields) = .error (.compositeNodeType kind)) ∧
        (Value.record fields).CompositelyTyped) ∨
      ∃ name, Value.named? fields "node_type" = some (.text name) ∧
        ∃ r, (readFieldNodes fields).assemble? name = some r ∧
          ofValue (.record fields) = r.mapError (Fields.blameOwner name) := by
  rw [ofValue, Fields.node, value?_readFieldNodes]
  rcases htype : Value.named? fields "node_type" with _ | type
  · exact Or.inl ⟨_, rfl, rfl⟩
  rw [Option.getD_some]
  by_cases htruth : type.truth = true
  · rw [if_pos htruth]
    cases type with
    | list items =>
      refine Or.inr (Or.inl ⟨⟨_, rfl⟩, .list htype ?_⟩)
      rintro rfl
      cases htruth
    | record entries =>
      refine Or.inr (Or.inl ⟨⟨_, rfl⟩, .record htype ?_⟩)
      rintro rfl
      cases htruth
    | scalar k =>
      cases k with
      | text name =>
        rcases hr : (readFieldNodes fields).assemble? name with _ | r
        · exact Or.inl ⟨.unknownNodeType name, by simp only [hr], rfl⟩
        · exact Or.inr (Or.inr ⟨name, rfl, r, hr, by simp only [hr]⟩)
      | _ => exact Or.inl ⟨_, rfl, rfl⟩
  · rw [if_neg htruth]
    exact Or.inl ⟨_, rfl, rfl⟩

/-- A list or a record as the type of a node is told of the root alone. -/
theorem compositelyTyped_of_error {v : Value} {kind : String}
    (h : ofValue v = .error (.compositeNodeType kind)) : v.CompositelyTyped := by
  cases v with
  | record fields =>
    rcases ofValue_record fields with ⟨r, hr, hstage⟩ | ⟨-, hc⟩ | ⟨name, -, r, -, hr⟩
    · rw [hr] at h
      cases h
      cases hstage
    · exact hc
    · rw [hr, mapError_error] at h
      obtain ⟨fault, -, hfault⟩ := h
      exact absurd hfault blameOwner_ne_composite
  | _ => cases h

theorem overflows_of_error : ∀ {v : Value}, ofValue v = .error .infiniteNumber → v.Overflows
  | .scalar _, h | .list _, h => by cases h
  | .record fields, h => by
    rcases ofValue_record fields with ⟨r, hr, hstage⟩ | ⟨⟨kind, hr⟩, -⟩ |
        ⟨name, htype, r, hread, hr⟩
    · rw [hr] at h
      cases h
      cases hstage
    · rw [hr] at h
      cases h
    rw [hr, mapError_error] at h
    obtain ⟨fault, rfl, hfault⟩ := h
    rw [blameOwner_eq_infinite] at hfault
    subst hfault
    rcases assemble?_infinite hread with ⟨rfl, v, hv, hinf⟩ | ⟨rfl, v, hv, hinf⟩ | ⟨_, key, h⟩
    · rw [value?_readFieldNodes] at hv
      exact .heading htype hv hinf
    · rw [value?_readFieldNodes] at hv
      exact .emptyLines htype hv hinf
    · obtain ⟨items, hfield, hitems⟩ := nodes_infinite h
      obtain ⟨w, hitem, hw⟩ := exists_of_readNodes_error hitems
      have hlt := List.sizeOf_lt_of_mem hitem
      have hlt' := List.sizeOf_lt_of_mem hfield
      exact .within hfield hitem (overflows_of_error hw)
termination_by v => sizeOf v
decreasing_by
  simp only [Prod.mk.sizeOf_spec, Value.list.sizeOf_spec] at hlt'
  simp only [Value.record.sizeOf_spec]
  omega

theorem error_of_compositelyTyped {v : Value} (h : v.CompositelyTyped) :
    ∃ kind, ofValue v = .error (.compositeNodeType kind) := by
  cases h with
  | @list fields items htype hne =>
    have htruth : (Value.list items).truth = true := by simpa [Value.truth] using hne
    exact ⟨"list", by simp [ofValue, Fields.node, value?_readFieldNodes, htype, htruth, Value.kind]⟩
  | @record fields entries htype hne =>
    have htruth : (Value.record entries).truth = true := by simpa [Value.truth] using hne
    exact ⟨"dict", by simp [ofValue, Fields.node, value?_readFieldNodes, htype, htruth, Value.kind]⟩

/-- A heading with an infinite level fails whatever else its record holds. -/
theorem error_of_infinite_level {fields : List (Scalar × Value)} {x : Float} {negative : Bool}
    (htype : Value.named? fields "node_type" = some (.text "Heading"))
    (hlevel : Value.named? fields "level" = some (.real x))
    (hx : Decimal.exact x = .infinite negative) :
    ofValue (.record fields) = .error .infiniteNumber := by
  rw [← value?_readFieldNodes] at htype hlevel
  have hheading : (readFieldNodes fields).heading "Heading" = .error .infiniteNumber := by
    simp [Fields.heading, hlevel, Value.toInt?, hx]
  rw [ofValue, Fields.node_of_type htype (by decide) rfl, hheading]
  rfl

theorem isSome_stage_of_ofValue {v : Value} (htype : ¬ v.CompositelyTyped) (hnumber : ¬ v.Overflows)
    (h : ofValue v = .error fault) : fault.stage?.isSome := by
  by_contra hnone
  rw [Option.not_isSome_iff_eq_none, stage?_eq_none] at hnone
  rcases hnone with ⟨kind, rfl⟩ | rfl
  · exact htype (compositelyTyped_of_error h)
  · exact hnumber (overflows_of_error h)

/-! ## Stored documents -/

/-- The fields of a record without the version. -/
def withoutVersion (fields : List (Scalar × Value)) : List (Scalar × Value) :=
  fields.filter (·.1 != .text "schema_version")

theorem named?_withoutVersion (hname : name ≠ "schema_version") :
    ∀ fields : List (Scalar × Value),
      Value.named? (withoutVersion fields) name = Value.named? fields name
  | [] => rfl
  | (k, v) :: rest => by
    have ih := named?_withoutVersion hname rest
    simp only [Value.named?, withoutVersion] at ih ⊢
    rw [List.filter_cons, List.lookup_cons]
    split
    · rw [List.lookup_cons, ih]
    · rename_i hk
      rw [bne, Bool.not_eq_true', Bool.not_eq_false] at hk
      obtain rfl := Scalar.eq_of_beq_text hk
      rw [Scalar.text_beq_text, beq_false_of_ne hname, ih]

theorem compositelyTyped_of_withoutVersion {fields : List (Scalar × Value)}
    (h : (Value.record (withoutVersion fields)).CompositelyTyped) :
    (Value.record fields).CompositelyTyped := by
  have hname : "node_type" ≠ "schema_version" := by decide
  cases h with
  | list htype hne => exact .list (named?_withoutVersion hname fields ▸ htype) hne
  | record htype hne => exact .record (named?_withoutVersion hname fields ▸ htype) hne

theorem overflows_of_withoutVersion {fields : List (Scalar × Value)}
    (h : (Value.record (withoutVersion fields)).Overflows) : (Value.record fields).Overflows := by
  cases h with
  | heading htype hlevel hv =>
    rw [named?_withoutVersion (by decide)] at htype hlevel
    exact .heading htype hlevel hv
  | emptyLines htype hcount hv =>
    rw [named?_withoutVersion (by decide)] at htype hcount
    exact .emptyLines htype hcount hv
  | within hfield hitem hv => exact .within (List.mem_of_mem_filter hfield) hitem hv

theorem isSome_stage_of_ofStored {v : Value} (htype : ¬ v.CompositelyTyped)
    (hnumber : ¬ v.Overflows) (h : ofStored v = .error fault) : fault.stage?.isSome := by
  cases v with
  | record fields =>
    rw [ofStored] at h
    split at h
    · exact isSome_stage_of_ofValue (fun hc => htype (compositelyTyped_of_withoutVersion hc))
        (fun ho => hnumber (overflows_of_withoutVersion ho)) h
    · cases h
      rfl
  | _ =>
    cases h
    rfl

end Node

/-! ## The command line -/

namespace CommandLine

theorem runIn_tell (r : Request) (record : LogRecord) (next : Plan) (input : String) (o : Outcome) :
    ∃ o', (r.tell record next).runIn input o = next.runIn input o' := by
  unfold Request.tell
  dsimp only
  generalize (if r.trace = true then 0 else r.level.number) = least
  split
  · exact ⟨_, rfl⟩
  · exact ⟨o, rfl⟩

/-- A run that is refused ends with the exit code one. -/
theorem runIn_refuse (r : Request) (message input : String) (o : Outcome) :
    ∃ o', (r.refuse message).runIn input o = .ok (1, o') := by
  obtain ⟨o', h⟩ := runIn_tell r ⟨.debug, "Rendering failed"⟩ (Request.fail message) input o
  exact ⟨_, h⟩

theorem runIn_loading_json {r : Request} {options : Options} {text : String}
    (h : ∀ fault, Node.ofJson text = .error fault → fault.stage?.isSome) :
    (∃ n, Node.ofJson text = .ok n ∧ n.kind = "Document") ∨
      ∀ input o, ∃ o', (r.loading options .json text).runIn input o = .ok (1, o') := by
  simp only [Request.loading, Request.rendering]
  rcases hload : Node.ofJson text with fault | n
  · simp only [h fault hload, if_true]
    exact Or.inr fun input o => runIn_refuse r _ input o
  · by_cases hkind : n.kind = "Document"
    · exact Or.inl ⟨n, rfl, hkind⟩
    · simp only [ne_eq, hkind, not_false_eq_true, if_true]
      exact Or.inr fun input o => runIn_refuse r _ input o

end CommandLine

/-- A value is loaded or refused at a stage of loading, and a command line with its text then ends
with an exit code or goes on with a document, unless the value gives a list or a record as its type
or holds an infinite number where an integer is due. -/
theorem Node.loads_or_refuses {v : Value} (htype : ¬ v.CompositelyTyped) (hnumber : ¬ v.Overflows) :
    (∀ fault, ofValue v = .error fault → fault.stage?.isSome) ∧
      (∀ fault, ofStored v = .error fault → fault.stage?.isSome) ∧
      ∀ (r : Request) (options : Options) (text : String), Json.read text = .ok v →
        (∃ n, ofJson text = .ok n ∧ n.kind = "Document") ∨
          ∀ input o, ∃ o', (r.loading options .json text).runIn input o = .ok (1, o') := by
  refine ⟨fun fault => isSome_stage_of_ofValue htype hnumber,
    fun fault => isSome_stage_of_ofStored htype hnumber, fun r options text hread => ?_⟩
  refine CommandLine.runIn_loading_json fun fault h => ?_
  rw [ofJson, hread] at h
  exact isSome_stage_of_ofStored htype hnumber h

/-- A paragraph with a child whose type is a list. -/
def listTypedChild : Value :=
  .record [("node_type", .text "Paragraph"),
    ("content", .list [.record [("node_type", .list [.text "Text"])]])]

theorem listTypedChild_refused :
    ¬ listTypedChild.CompositelyTyped ∧ ¬ listTypedChild.Overflows ∧
      Node.ofValue listTypedChild = .error (.malformed "Paragraph" "list") ∧
      (LoadFault.malformed "Paragraph" "list").stage?.isSome ∧
      ∀ (r : Request) (options : Options) (text : String), Json.read text = .ok listTypedChild →
        (∃ n, Node.ofJson text = .ok n ∧ n.kind = "Document") ∨
          ∀ input o, ∃ o', (r.loading options .json text).runIn input o = .ok (1, o') := by
  have htype : ¬ listTypedChild.CompositelyTyped := by
    intro h
    cases h with
    | list htype => simp [Value.named?, List.lookup_cons] at htype
    | record htype => simp [Value.named?, List.lookup_cons] at htype
  have hnumber : ¬ listTypedChild.Overflows := by
    intro h
    cases h with
    | heading htype => simp [Value.named?, List.lookup_cons] at htype
    | emptyLines htype => simp [Value.named?, List.lookup_cons] at htype
    | within hfield hitem hv =>
      simp at hfield
      obtain ⟨rfl, rfl⟩ := hfield
      obtain rfl := List.mem_singleton.1 hitem
      cases hv with
      | heading htype => simp [Value.named?, List.lookup_cons] at htype
      | emptyLines htype => simp [Value.named?, List.lookup_cons] at htype
      | within hfield hitem hv =>
        simp at hfield
        obtain ⟨rfl, rfl⟩ := hfield
        obtain rfl := List.mem_singleton.1 hitem
        cases hv
  have hload : Node.ofValue listTypedChild = .error (.malformed "Paragraph" "list") := rfl
  obtain ⟨hvalue, -, hrun⟩ := Node.loads_or_refuses htype hnumber
  exact ⟨htype, hnumber, hload, hvalue _ hload, hrun⟩

/-- At the root such a type is a fault of no stage. -/
theorem listTypedRoot_no_stage :
    ¬ ∀ v : Value, (∃ n, Node.ofValue v = .ok n) ∨
      ∃ fault stage, Node.ofValue v = .error fault ∧ fault.stage? = some stage := by
  intro h
  have hroot : Node.ofValue (.record [("node_type", .list [.text "Text"])]) =
      .error (.compositeNodeType "list") := rfl
  rcases h (.record [("node_type", .list [.text "Text"])]) with ⟨n, hn⟩ | ⟨fault, stage, hf, hs⟩
  · rw [hroot] at hn
    cases hn
  · rw [hroot] at hf
    cases hf
    cases hs

end Markwright
