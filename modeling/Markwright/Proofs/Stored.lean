import Markwright.Document.Stored
import Markwright.Proofs.JsonText
import Markwright.Proofs.Tree

/-!
# Stored documents are loaded as they were

Writing a node gives every field, so reading finds each of them, and by induction the nodes that it
holds. Parameters come back in their order because no name is there twice. A stored document has one
more field for the version, which no node has for itself; its text is read back because nothing in
the record is a number with a fraction (`Json.read_write`).
-/

namespace Markwright

open Json (Portable)

/-! ## The parts of a record -/

theorem readParameters_toValue (owner : String) (p : Parameters) :
    readParameters owner (some p.toValue) = .ok p := by
  obtain ⟨entries, hnodup⟩ := p
  have hkeys : entries.Pairwise fun p q => (p.1 == q.1) = false :=
    (List.pairwise_map.1 hnodup).imp fun hne => by simpa using hne
  by_cases hnil : entries = []
  · subst hnil
    rfl
  · have htruth : (Parameters.toValue ⟨entries, hnodup⟩).truth = true := by
      simp [Parameters.toValue, Value.truth, hnil]
    unfold readParameters
    simp only [htruth, if_true]
    simp only [Parameters.toValue, List.filterMap_map]
    have hback : entries.filterMap some = entries := List.filterMap_some
    refine congrArg Except.ok ?_
    rw [Parameters.ofList, Parameters.mk.injEq]
    exact (congrArg mergePairs hback).trans (mergePairs_eq_self hkeys)

theorem readReference_toValue (r : Reference) : readReference r.toValue = .ok r := by
  have hp := fun owner => readParameters_toValue owner r.parameters
  simp [Reference.toValue, readReference, Value.named?, List.lookup_cons, hp, bind, Except.bind,
    pure, Except.pure, Value.display, Scalar.display, Value.truth]

theorem readLevel_val (level : HeadingLevel) : readLevel level.val = .ok level := by
  have hrange : (1 : Int) ≤ level.val ∧ (level.val : Int) ≤ 6 :=
    ⟨Int.ofNat_le.2 level.pos, Int.ofNat_le.2 level.le_six⟩
  simp only [readLevel, dif_pos hrange, Int.toNat_natCast]

theorem readLineCount_val (count : LineCount) : readLineCount (.int count.val) = .ok count := by
  have hpos : (1 : Int) ≤ count.val := Int.ofNat_le.2 count.pos
  simp only [readLineCount, Value.toInt?, dif_pos hpos, Int.toNat_natCast]

/-! ## Fields -/

/-- The field that a value makes. -/
def Field.of : Value → Field
  | .list items => ⟨.list items, some (readNodes items)⟩
  | v => ⟨v, none⟩

theorem Field.value_of (v : Value) : (Field.of v).value = v := by
  cases v <;> rfl

theorem Field.nodes?_of_list (items : List Value) :
    (Field.of (.list items)).nodes? = some (readNodes items) := rfl

theorem readFieldNodes_cons (name : String) (v : Value) (rest : List (Scalar × Value)) :
    readFieldNodes ((.text name, v) :: rest) = (name, .of v) :: readFieldNodes rest := by
  cases v <;> rfl

namespace Fields

variable (name key owner : String) (v : Value) (rest : Fields)

theorem value?_cons :
    value? ((name, .of v) :: rest) key = if key = name then some v else value? rest key := by
  by_cases h : key = name
  · simp [value?, h, Field.value_of]
  · simp [value?, List.lookup_cons, beq_false_of_ne h, h]

theorem nodes_cons : nodes ((name, .of v) :: rest) owner key =
    if key = name then (Field.of v).nodes?.getD (.error (.notList key owner))
    else nodes rest owner key := by
  by_cases h : key = name
  · simp [nodes, h]
  · simp [nodes, List.lookup_cons, beq_false_of_ne h, h]

/-- A record whose type is a text is read as that type asks. -/
theorem node_of_type {fields : Fields} {name : String} {r : Except LoadFault Node}
    (htype : fields.value? "node_type" = some (.text name)) (hname : name ≠ "")
    (hr : fields.assemble? name = some r) : fields.node = r.mapError (blameOwner name) := by
  have htruth : (Value.text name).truth = true := by simpa [Value.truth] using hname
  simp only [node, htype, Option.getD_some, htruth, if_true, hr]

end Fields

namespace Node

/-! ## Nodes -/

theorem kind_ne_empty (n : Node) : n.kind ≠ "" := by
  cases n <;> simp [kind]

/-- The fields of the record of a node as they are read. -/
def readFields (n : Node) : Fields := readFieldNodes (("node_type", .text n.kind) :: n.fields)

theorem readNodes_toValues : ∀ {kids : List Node}, (∀ k ∈ kids, ofValue k.toValue = .ok k) →
    readNodes (toValues kids) = .ok kids
  | [], _ => rfl
  | k :: kids, h => by
    have hk := h k (by simp)
    rw [toValue] at hk
    rw [toValues, readNodes, hk, readNodes_toValues fun j hj => h j (by simp [hj])]
    rfl

/-- Each kind of node finds in its record what it put there. -/
theorem assemble?_readFields {n : Node}
    (hkids : readNodes (toValues n.children) = .ok n.children) :
    n.readFields.assemble? n.kind = some (.ok n) := by
  have hp := fun owner p => readParameters_toValue owner p
  cases n
  case call id p content inLine =>
    cases content <;>
      simp [readFields, kind, fields, readFieldNodes_cons, Fields.assemble?, Fields.call,
        Fields.value?_cons, Fields.parameters, Fields.flag, hp, Value.display, Scalar.display,
        Value.truth, bind, Except.bind, pure, Except.pure]
  case heading level kids id p =>
    simp only [children] at hkids
    simp [readFields, kind, fields, readFieldNodes_cons, Fields.assemble?, Fields.heading,
      Fields.value?_cons, Fields.nodes_cons, Field.nodes?_of_list, Fields.parameters, hp, hkids,
      Value.toInt?, readLevel_val, bind, Except.bind, pure, Except.pure, Except.mapError]
  all_goals
    simp only [children] at hkids
    simp [readFields, kind, fields, readFieldNodes_cons, Fields.assemble?, Fields.value?_cons,
      Fields.nodes_cons, Field.nodes?_of_list, Fields.parameters, Fields.text, Fields.flag, hp,
      hkids, Value.truth, Value.display, Scalar.display, readReference_toValue, readChoice,
      Format.ofName?_name, ListKind.ofName?_name, readLineCount_val, bind, Except.bind, pure,
      Except.pure]

/-- A node is read back from its record. -/
theorem ofValue_toValue (n : Node) : ofValue n.toValue = .ok n := by
  induction n using childrenInduction with
  | step n ih =>
    have htype : n.readFields.value? "node_type" = some (.text n.kind) := by
      rw [readFields, readFieldNodes_cons, Fields.value?_cons, if_pos rfl]
    have hn := assemble?_readFields (readNodes_toValues ih)
    exact Fields.node_of_type htype n.kind_ne_empty hn

/-! ## The version -/

theorem key_of_mem_fields {n : Node} {f : Scalar × Value} (hf : f ∈ n.fields) :
    ∃ name, f.1 = .text name ∧ name ≠ "schema_version" ∧ name ≠ "node_type" := by
  have h : ∀ f ∈ n.fields,
      ∃ name, f.1 = .text name ∧ name ≠ "schema_version" ∧ name ≠ "node_type" := by
    cases n <;> simp [fields]
  exact h f hf

theorem pairwise_fields (n : Node) : n.fields.Pairwise fun p q => (p.1 == q.1) = false := by
  cases n <;> simp [fields]

/-- The version is put in front of the fields and taken off again. -/
theorem ofStored_toStored_eq (n : Node) : ofStored n.toStored = ofValue n.toValue := by
  have hother : ∀ f ∈ (("node_type", .text n.kind) :: n.fields : List (Scalar × Value)),
      (f.1 != .text "schema_version") = true := by
    intro f hf
    rcases List.mem_cons.1 hf with rfl | hf
    · simp [bne]
    · obtain ⟨name, hname, hne, -⟩ := key_of_mem_fields hf
      simpa [bne, hname] using hne
  have hversion : n.toStored = .record (("schema_version", .int 1) ::
      ("node_type", .text n.kind) :: n.fields) := rfl
  have hfilter := List.filter_eq_self.2 hother
  have hname : (Scalar.text "schema_version" != .text "schema_version") = false := by simp [bne]
  rw [hversion, ofStored, List.filter_cons, hname, hfilter, toValue, recordOf]
  simp [Value.named?, List.lookup_cons, isVersionOne]

theorem ofStored_toStored (n : Node) : ofStored n.toStored = .ok n :=
  (ofStored_toStored_eq n).trans (ofValue_toValue n)

/-! ## Texts -/

/-- Names that may be left out are texts or nothing. -/
def PlainNames : Node → Prop
  | .heading _ _ id _ => id = .null ∨ ∃ s, id = .text s
  | .rawText _ dialect => dialect = .null ∨ ∃ s, dialect = .text s
  | _ => True

end Node

theorem Json.Portable.of_fields {fields : List (Scalar × Value)}
    (hkeys : fields.Pairwise fun p q => (p.1 == q.1) = false)
    (hnames : ∀ f ∈ fields, ∃ name, f.1 = .text name) (h : ∀ f ∈ fields, Portable f.2) :
    Portable (.record fields) := by
  obtain ⟨named, rfl⟩ : ∃ named : List (String × Value),
      fields = named.map fun f => (.text f.1, f.2) := by
    clear hkeys h
    induction fields with
    | nil => exact ⟨[], rfl⟩
    | cons f fields ih =>
      obtain ⟨name, hname⟩ := hnames f (by simp)
      obtain ⟨named, rfl⟩ := ih fun g hg => hnames g (by simp [hg])
      exact ⟨(name, f.2) :: named, by simp [← hname]⟩
  refine .record ?_ fun f hf => h (.text f.1, f.2) (List.mem_map_of_mem hf)
  rw [List.pairwise_map] at hkeys
  refine List.pairwise_map.2 (hkeys.imp fun hne => ?_)
  simpa using hne

/-- A record may be given one more field. -/
theorem Json.Portable.cons {name : String} {v : Value} {fields : List (Scalar × Value)}
    (hnew : ∀ f ∈ fields, f.1 ≠ .text name) (hv : Portable v) (h : Portable (.record fields)) :
    Portable (.record ((.text name, v) :: fields)) := by
  cases h with
  | @record named hkeys h =>
    have hnodup : (((name, v) :: named).map Prod.fst).Nodup := by
      refine List.nodup_cons.2 ⟨fun hmem => ?_, hkeys⟩
      obtain ⟨f, hf, rfl⟩ := List.mem_map.1 hmem
      exact hnew (.text f.1, f.2) (List.mem_map_of_mem hf) rfl
    refine .record hnodup fun f hf => ?_
    rcases List.mem_cons.1 hf with rfl | hf
    · exact hv
    · exact h f hf

theorem portable_parameters (p : Parameters) : Portable p.toValue := by
  refine .of_fields ?_ ?_ ?_
  · refine List.pairwise_map.2 ((List.pairwise_map.1 p.nodup).imp fun hne => ?_)
    simpa using hne
  · intro f hf
    obtain ⟨e, -, rfl⟩ := List.mem_map.1 hf
    exact ⟨e.1, rfl⟩
  · intro f hf
    obtain ⟨e, -, rfl⟩ := List.mem_map.1 hf
    exact .text e.2

theorem portable_reference (r : Reference) : Portable r.toValue := by
  refine .of_fields (by simp) (by simp) ?_
  simp [Portable.text, Portable.bool, portable_parameters]

namespace Node

theorem mem_toValues {v : Value} :
    ∀ {kids : List Node}, v ∈ toValues kids → ∃ k ∈ kids, v = k.toValue
  | k :: kids, h => by
    rcases List.mem_cons.1 h with rfl | h
    · exact ⟨k, by simp, rfl⟩
    · obtain ⟨j, hj, rfl⟩ := mem_toValues h
      exact ⟨j, by simp [hj], rfl⟩

theorem PlainNames.portable_fields {n : Node} (h : n.PlainNames)
    (hkids : Portable (.list (toValues n.children))) : ∀ f ∈ n.fields, Portable f.2 := by
  have hname : ∀ {v : Value}, (v = .null ∨ ∃ s, v = .text s) → Portable v := by
    rintro v (rfl | ⟨s, rfl⟩)
    · exact .null
    · exact .text s
  cases n
  case heading level kids id p =>
    rw [children] at hkids
    simp [fields, Portable.int, portable_parameters, hkids, hname h]
  case rawText content dialect => simp [fields, Portable.text, hname h]
  case call id p content inLine =>
    cases content <;>
      simp [fields, Portable.text, Portable.null, Portable.bool, portable_parameters]
  all_goals
    simp only [children] at hkids
    simp [fields, Portable.int, Portable.text, Portable.bool, portable_parameters,
      portable_reference, hkids]

theorem portable_record {n : Node} (h : ∀ f ∈ n.fields, Portable f.2) :
    Portable n.toValue := by
  refine .cons (fun f hf heq => ?_) (.text n.kind) ?_
  · obtain ⟨name, hname, -, hne⟩ := key_of_mem_fields hf
    rw [hname, Scalar.text.injEq] at heq
    exact hne heq
  · refine .of_fields n.pairwise_fields (fun f hf => ?_) h
    obtain ⟨name, hname, -⟩ := key_of_mem_fields hf
    exact ⟨name, hname⟩

theorem portable_toValue (n : Node) : n.Everywhere PlainNames → Portable n.toValue := by
  induction n using childrenInduction with
  | step n ih =>
    intro h
    have hkids : ∀ v ∈ toValues n.children, Portable v := by
      intro v hv
      obtain ⟨k, hk, rfl⟩ := mem_toValues hv
      exact ih k hk (h.child hk)
    exact portable_record (h.here.portable_fields (.list hkids))

theorem portable_toStored {n : Node} (h : n.Everywhere PlainNames) : Portable n.toStored := by
  refine .cons (fun f hf heq => ?_) (.int 1) (portable_toValue n h)
  rcases List.mem_cons.1 hf with rfl | hf
  · simp at heq
  · obtain ⟨name, hname, hne, -⟩ := key_of_mem_fields hf
    rw [hname, Scalar.text.injEq] at heq
    exact hne heq

/-- A tree is loaded as it was stored: from its record, and from a text, however that is indented.
The text is that of the record with the version in front of its fields, which is taken off again. -/
theorem stored_loads {n : Node} (h : n.Everywhere PlainNames) :
    ofValue n.toValue = .ok n ∧ (∀ indent, ofJson (n.toJson indent) = .ok n) ∧
      ∃ fields, n.toValue = .record fields ∧
        (∀ indent, Json.read (n.toJson indent) =
          .ok (.record (("schema_version", .int 1) :: fields))) ∧
        ofStored (.record (("schema_version", .int 1) :: fields)) = ofValue (.record fields) := by
  have hread := fun indent => Json.read_write indent (portable_toStored h)
  refine ⟨ofValue_toValue n, fun indent => ?_, _, rfl, hread, ofStored_toStored_eq n⟩
  rw [toJson, ofJson, hread]
  exact ofStored_toStored n

/-- A heading with a name, raw text without one, and a link that carries parameters. -/
def storedSample : Node :=
  .document [
    .heading ⟨2, by decide, by decide⟩ [.text "Märk\tup"] (.text "top") .empty,
    .rawText "<br>" .null,
    .paragraph [.link ⟨"a.html", "url", true, .ofList [("k", "v"), ("b", "")]⟩
      [.span .bold [.text "\"x\""] .empty] false .empty] (.ofList [("class", "lead")])] .empty

theorem plainNames_storedSample : storedSample.Everywhere PlainNames := by
  intro m hm
  simp only [storedSample, descendants, descendantsAll, List.append_nil, List.cons_append,
    List.nil_append, List.mem_cons, List.not_mem_nil, or_false] at hm
  rcases hm with rfl | rfl | rfl | rfl | rfl | rfl | rfl | rfl <;> simp [PlainNames]

theorem storedSample_loads :
    storedSample.Everywhere PlainNames ∧ ofValue storedSample.toValue = .ok storedSample ∧
      ∀ indent, ofJson (storedSample.toJson indent) = .ok storedSample :=
  have hloads := stored_loads plainNames_storedSample
  ⟨plainNames_storedSample, hloads.1, hloads.2.1⟩

end Node

end Markwright
