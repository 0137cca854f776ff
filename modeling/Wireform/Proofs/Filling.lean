import Wireform.Proofs.Layout
import Wireform.Proofs.Plan

/-!
What becomes of a record when spans are assigned to its leaves. Each field takes the spans of its
own leaves and leaves the other fields as they were, so the leaves of the record end up filled with
their spans.
-/

namespace Wireform

open Walk

namespace Leaf

def fillBits (bits : List (Planned BitDescriptor × FieldType)) (words : List UInt64) :
    Except Fault (List (Planned BitDescriptor × Held)) :=
  (bits.zip words).mapM fun ((bit, type), word) =>
    (Held.ofValue type (.uint word)).map fun held => (bit, held)

/-- What a leaf holds once its span is assigned to it. -/
def fill (registry : Registry) (span : Bytes) : Leaf FieldType → Except Fault (Leaf Held)
  | scalar descriptor type => do
    let codec ← registry.lookup descriptor.wire
    let value ← codec.interpret descriptor span
    (Held.ofValue type value).map (scalar descriptor)
  | packed record length bits => do
    let words ← Container.unpack span (bits.map (·.1.descriptor))
    (fillBits bits words).map (packed record length)

def fillAll (registry : Registry) (steps : List (Except Fault (Leaf FieldType)))
    (spans : List Bytes) : List (Except Fault (Leaf Held)) :=
  List.zipWith (fun step span => step >>= fill registry span) steps spans

def Accepts (registry : Registry) (steps : List (Except Fault (Leaf FieldType)))
    (spans : List Bytes) : Prop :=
  List.Forall₂ (fun step span => ∃ leaf, (step >>= fill registry span) = .ok leaf) steps spans

theorem length_fillAll {registry : Registry} {steps : List (Except Fault (Leaf FieldType))}
    {spans : List Bytes} (accepted : Accepts registry steps spans) :
    spans.length = steps.length :=
  accepted.length_eq.symm

theorem fillAll_append {registry : Registry} {steps others : List (Except Fault (Leaf FieldType))}
    {spans : List Bytes} (accepted : Accepts registry (steps ++ others) spans) :
    fillAll registry (steps ++ others) spans =
      fillAll registry steps (spans.take steps.length) ++
        fillAll registry others (spans.drop steps.length) := by
  have count := length_fillAll accepted
  rw [List.length_append] at count
  unfold fillAll
  conv_lhs => rw [← List.take_append_drop steps.length spans]
  exact List.zipWith_append (by rw [List.length_take]; omega)

/-- Goes through entries, each of which takes the spans of its own leaves. -/
def buildAll {ι τ : Type} (count : ι → Nat) (build : ι → τ → List Bytes → τ) :
    List ι → τ → List Bytes → τ
  | [], state, _ => state
  | entry :: rest, state, spans =>
    buildAll count build rest (build entry state (spans.take (count entry)))
      (spans.drop (count entry))

end Leaf

theorem Held.ofValue_eq_ok {type : FieldType} {value : Value} {held : Held} :
    ofValue type value = .ok held ↔ ∃ content, type.ofValue value = .ok content ∧
      held = ⟨type, content⟩ := by
  unfold ofValue
  rw [Except.map_eq_ok]
  exact exists_congr fun content => and_congr_right fun _ => eq_comm

namespace BitField

theorem assignAt_of_refused {fields : List BitField} {contents : Contents fields} {position : Nat}
    {value : Value} {fault : Fault}
    (refused : Held.ofValue (typeAt fields position) value = .error fault) :
    assignAt fields contents position value = .error fault := by
  induction fields generalizing position with
  | nil => cases refused
  | cons field rest ih =>
    cases position with
    | zero =>
      change (field.type.ofValue value).map (Held.mk field.type) = _ at refused
      unfold assignAt
      cases assigned : field.type.ofValue value with
      | error other => rw [assigned] at refused; cases refused; rfl
      | ok content => rw [assigned] at refused; cases refused
    | succ position =>
      unfold assignAt
      rw [ih refused]
      rfl

theorem assignAt_of_taken {fields : List BitField} (contents : Contents fields) {position : Nat}
    {value : Value} {held : Held} (taken : Held.ofValue (typeAt fields position) value = .ok held) :
    ∃ after, assignAt fields contents position value = .ok after ∧
      (position < fields.length → heldAt fields after position = held) ∧
      ∀ other, other ≠ position → heldAt fields after other = heldAt fields contents other := by
  induction fields generalizing position with
  | nil => exact ⟨contents, rfl, fun below => absurd below (Nat.not_lt_zero _), fun _ _ => rfl⟩
  | cons field rest ih =>
    cases position with
    | zero =>
      obtain ⟨content, assigned, rfl⟩ := Held.ofValue_eq_ok.1 taken
      change field.type.ofValue value = .ok content at assigned
      refine ⟨(content, contents.2), ?_, fun _ => rfl, fun other different => ?_⟩
      · unfold assignAt
        rw [assigned]
        rfl
      · obtain ⟨other, rfl⟩ := Nat.exists_eq_succ_of_ne_zero different
        rfl
    | succ position =>
      obtain ⟨after, assigned, inside, outside⟩ := ih contents.2 taken
      refine ⟨(contents.1, after), ?_, fun below => ?_, fun other different => ?_⟩
      · unfold assignAt
        rw [assigned]
        rfl
      · exact inside (Nat.lt_of_succ_lt_succ below)
      · cases other with
        | zero => rfl
        | succ other => exact outside other fun same => different (congrArg _ same)

def typed (fields : List BitField) (planned : List (Planned BitDescriptor)) :
    List (Planned BitDescriptor × FieldType) :=
  planned.map fun bit => (bit, typeAt fields bit.position)

theorem assign_cons (fields : List BitField) (contents : Contents fields) (tree : Option Children)
    (bit : Planned BitDescriptor) (planned : List (Planned BitDescriptor)) (word : UInt64)
    (words : List UInt64) :
    assign fields contents tree (bit :: planned) (word :: words) =
      assignAt fields contents bit.position (.uint word) >>= fun after =>
        assign fields after (Children.graft bit.name (some (.value (.uint word))) tree) planned
          words := by
  simp only [assign, List.zip_cons_cons, List.foldlM_cons]
  cases assignAt fields contents bit.position (.uint word) <;> rfl

theorem fillBits_cons (bit : Planned BitDescriptor) (type : FieldType)
    (bits : List (Planned BitDescriptor × FieldType)) (word : UInt64) (words : List UInt64) :
    Leaf.fillBits ((bit, type) :: bits) (word :: words) =
      Held.ofValue type (.uint word) >>= fun held =>
        (Leaf.fillBits bits words).map ((bit, held) :: ·) := by
  conv_lhs => unfold Leaf.fillBits
  rw [List.zip_cons_cons, List.mapM_cons]
  change ((Held.ofValue type (.uint word)).map fun held => (bit, held)) >>= (fun first =>
    Leaf.fillBits bits words >>= fun others => pure (first :: others)) = _
  cases Held.ofValue type (.uint word) with
  | error fault => rfl
  | ok held => cases Leaf.fillBits bits words <;> rfl

theorem assign_of_refused {fields : List BitField} {contents : Contents fields}
    {tree : Option Children} {planned : List (Planned BitDescriptor)} {words : List UInt64}
    {fault : Fault} (refused : Leaf.fillBits (typed fields planned) words = .error fault) :
    assign fields contents tree planned words = .error fault := by
  induction planned generalizing contents tree words with
  | nil => cases refused
  | cons bit planned ih =>
    cases words with
    | nil => cases refused
    | cons word words =>
      rw [typed, List.map_cons, fillBits_cons] at refused
      rw [assign_cons]
      cases held : Held.ofValue (typeAt fields bit.position) (.uint word) with
      | error other =>
        rw [held] at refused
        cases refused
        rw [assignAt_of_refused held]
        rfl
      | ok held' =>
        obtain ⟨after, assigned, -, -⟩ := assignAt_of_taken contents held
        rw [held] at refused
        rw [assigned]
        apply ih
        change (Leaf.fillBits (typed fields planned) words).map _ = _ at refused
        cases filled : Leaf.fillBits (typed fields planned) words with
        | error other => rw [filled] at refused; cases refused; rfl
        | ok helds => rw [filled] at refused; cases refused

/-- Assigning words to bit-fields changes those and no others; where they are all different, each
ends up with its own. -/
theorem assign_of_taken {fields : List BitField} (contents : Contents fields)
    (tree : Option Children) {planned : List (Planned BitDescriptor)} {words : List UInt64}
    {helds : List (Planned BitDescriptor × Held)}
    (taken : Leaf.fillBits (typed fields planned) words = .ok helds) :
    ∃ after grown, assign fields contents tree planned words = .ok (after, grown) ∧
      (∀ other, other ∉ planned.map Planned.position →
        heldAt fields after other = heldAt fields contents other) ∧
      (words.length = planned.length → (planned.map Planned.position).Nodup →
        (∀ bit ∈ planned, bit.position < fields.length) →
        planned.map (fun bit => (bit, heldAt fields after bit.position)) = helds) := by
  induction planned generalizing contents tree words helds with
  | nil =>
    cases taken
    exact ⟨contents, tree, rfl, fun _ _ => rfl, fun _ _ _ => rfl⟩
  | cons bit planned ih =>
    cases words with
    | nil => exact ⟨contents, tree, rfl, fun _ _ => rfl, nofun⟩
    | cons word words =>
      rw [typed, List.map_cons, fillBits_cons] at taken
      obtain ⟨held, first, taken⟩ := Except.bind_eq_ok.1 taken
      obtain ⟨others, following, rfl⟩ := Except.map_eq_ok.1 taken
      obtain ⟨mid, assigned, put, kept⟩ := assignAt_of_taken contents first
      obtain ⟨after, grown, assignedAll, keptAll, putAll⟩ :=
        ih mid (Children.graft bit.name (some (.value (.uint word))) tree) following
      refine ⟨after, grown, ?_, fun other outside => ?_, fun count distinct inside => ?_⟩
      · rw [assign_cons, assigned]
        exact assignedAll
      · rw [List.map_cons, List.mem_cons, not_or] at outside
        rw [keptAll other outside.2, kept other outside.1]
      · obtain ⟨fresh, distinct⟩ := List.nodup_cons.1 distinct
        have later := putAll (Nat.succ_inj.1 count) distinct fun other member =>
          inside other (List.mem_cons_of_mem _ member)
        rw [List.map_cons, later, keptAll _ fresh, put (inside bit (List.mem_cons_self ..))]

/-- What becomes of bit-fields, and their tree, when a container is assigned to them. -/
def build (capture : Bool) (fields : List BitField) (contents : Contents fields)
    (planned : List (Planned BitDescriptor)) (span : Bytes) : Contents fields × Option Children :=
  match Container.unpack span (planned.map Planned.descriptor) with
  | .ok words =>
    match assign fields contents (Children.start capture) planned words with
    | .ok answer => answer
    | .error _ => (contents, none)
  | .error _ => (contents, none)

end BitField

/-- What a scalar field holds, and its node, when a span is assigned to it. -/
def FieldType.build (registry : Registry) (capture : Bool) (type : FieldType)
    (content : type.Carrier) (descriptor : Descriptor) (span : Bytes) :
    type.Carrier × Option Node :=
  match registry.lookup descriptor.wire >>= fun codec => codec.interpret descriptor span with
  | .ok v =>
    match type.ofValue v with
    | .ok content => (content, if capture then some (.value v) else none)
    | .error _ => (content, none)
  | .error _ => (content, none)

mutual

/-- What becomes of a record, and its tree, when spans are assigned to its leaves. -/
def Schema.build (registry : Registry) (version : Nat) (capture : Bool) :
    (schema : Schema) → schema.Record → List Bytes → schema.Record × Option Children
  | .fields tag name declared, contents, spans =>
    match (Schema.fields tag name declared).resolve version with
    | .ok plan =>
      Leaf.buildAll
        (fun planned =>
          (Field.layoutAt version declared planned.position planned.descriptor).length)
        (fun planned state spans =>
          let built := Field.buildAt registry version capture declared state.1 planned.position
            planned.descriptor spans
          (built.1, Children.graft planned.name built.2 state.2))
        plan.fields (contents, Children.start capture) spans
    | .error _ => (contents, none)
  | .packed tag name length declared, contents, spans =>
    match (Schema.packed tag name length declared).resolve version with
    | .ok plan => BitField.build capture declared contents plan.bits (spans.headD [])
    | .error _ => (contents, none)

def Field.build (registry : Registry) (version : Nat) (capture : Bool) :
    (field : Field) → field.Content → Descriptor → List Bytes → field.Content × Option Node
  | .scalar _ type _, content, descriptor, spans =>
    FieldType.build registry capture type content descriptor (spans.headD [])
  | .nested _ schema _, content, _, spans =>
    let built := schema.build registry version capture content spans
    (built.1, built.2.map Node.object)

def Field.buildAt (registry : Registry) (version : Nat) (capture : Bool) :
    (fields : List Field) → Field.Contents fields → Nat → Descriptor → List Bytes →
      Field.Contents fields × Option Node
  | [], contents, _, _, _ => (contents, none)
  | field :: _, contents, 0, descriptor, spans =>
    let built := field.build registry version capture contents.1 descriptor spans
    ((built.1, contents.2), built.2)
  | _ :: rest, contents, position + 1, descriptor, spans =>
    let built := Field.buildAt registry version capture rest contents.2 position descriptor spans
    ((contents.1, built.1), built.2)

end

theorem Leaf.fill_packed (registry : Registry) (span : Bytes) (record : String) (length : Nat)
    (fields : List BitField) (planned : List (Planned BitDescriptor)) :
    fill registry span (.packed record length (BitField.typed fields planned)) =
      Container.unpack span (planned.map Planned.descriptor) >>= fun words =>
        (fillBits (BitField.typed fields planned) words).map (packed record length) := by
  have descriptors : (BitField.typed fields planned).map (·.1.descriptor) =
      planned.map Planned.descriptor := by
    rw [BitField.typed, List.map_map]
    rfl
  rw [fill, descriptors]

theorem Leaf.fill_packed_eq_ok {registry : Registry} {span : Bytes} {record : String} {length : Nat}
    {fields : List BitField} {planned : List (Planned BitDescriptor)} {leaf : Leaf Held} :
    fill registry span (.packed record length (BitField.typed fields planned)) = .ok leaf ↔
      ∃ helds, (Container.unpack span (planned.map Planned.descriptor) >>= fun words =>
        fillBits (BitField.typed fields planned) words) = .ok helds ∧
        .packed record length helds = leaf := by
  rw [fill_packed, ← Except.map_eq_ok]
  cases Container.unpack span (planned.map Planned.descriptor) <;> exact Iff.rfl

theorem Leaf.fill_scalar (registry : Registry) {descriptor : Descriptor} {codec : Codec}
    (known : registry.lookup descriptor.wire = .ok codec) (span : Bytes) (type : FieldType) :
    fill registry span (.scalar descriptor type) = codec.interpret descriptor span >>= fun value =>
      (Held.ofValue type value).map (scalar descriptor) := by
  rw [fill, known]
  rfl

def Field.buildAll (registry : Registry) (version : Nat) (capture : Bool) (declared : List Field) :
    List (Planned Descriptor) → Field.Contents declared × Option Children → List Bytes →
      Field.Contents declared × Option Children :=
  Leaf.buildAll
    (fun planned => (Field.layoutAt version declared planned.position planned.descriptor).length)
    (fun planned state spans =>
      let built := Field.buildAt registry version capture declared state.1 planned.position
        planned.descriptor spans
      (built.1, Children.graft planned.name built.2 state.2))

section

variable {registry : Registry} {version tag : Nat} {capture : Bool} {name : String} {plan : Plan}

theorem Schema.build_fields {declared : List Field}
    (resolved : (Schema.fields tag name declared).resolve version = .ok plan)
    (record : (Schema.fields tag name declared).Record) :
    Schema.build registry version capture (.fields tag name declared) record =
      Field.buildAll registry version capture declared plan.fields
        (record, Children.start capture) := by
  funext spans
  unfold Schema.build
  rw [resolved]
  rfl

theorem Schema.build_packed {length : Nat} {declared : List BitField}
    (resolved : (Schema.packed tag name length declared).resolve version = .ok plan)
    (record : (Schema.packed tag name length declared).Record) (spans : List Bytes) :
    Schema.build registry version capture (.packed tag name length declared) record spans =
      BitField.build capture declared record plan.bits (spans.headD []) := by
  unfold Schema.build
  rw [resolved]

end

namespace Leaf

variable {registry : Registry} {steps others : List (Except Fault (Leaf FieldType))}
  {spans : List Bytes}

theorem accepts_left (accepted : Accepts registry (steps ++ others) spans) :
    Accepts registry steps (spans.take steps.length) := by
  have taken := List.forall₂_take_append spans steps others accepted.flip
  exact taken.flip

theorem accepts_right (accepted : Accepts registry (steps ++ others) spans) :
    Accepts registry others (spans.drop steps.length) := by
  have dropped := List.forall₂_drop_append spans steps others accepted.flip
  exact dropped.flip

theorem accepts_singleton {step : Except Fault (Leaf FieldType)}
    (accepted : Accepts registry [step] spans) :
    ∃ span leaf, spans = [span] ∧ (step >>= fill registry span) = .ok leaf := by
  cases accepted with
  | cons taken others =>
    obtain ⟨leaf, filled⟩ := taken
    cases others
    exact ⟨_, leaf, rfl, filled⟩

end Leaf

namespace Field

variable {registry : Registry} {version : Nat} {capture : Bool}

theorem leavesAt_buildAt_of_ne {fields : List Field} {contents : Contents fields}
    {position other : Nat} {descriptor descriptor' : Descriptor} {spans : List Bytes}
    (different : other ≠ position) :
    leavesAt version fields
        (buildAt registry version capture fields contents position descriptor spans).1 other
        descriptor' =
      leavesAt version fields contents other descriptor' := by
  induction fields generalizing position other with
  | nil => rfl
  | cons field rest ih =>
    cases position with
    | zero =>
      obtain ⟨other, rfl⟩ := Nat.exists_eq_succ_of_ne_zero different
      rfl
    | succ position =>
      cases other with
      | zero => rfl
      | succ other => exact ih fun same => different (congrArg _ same)

theorem leavesAt_buildAll {declared : List Field}
    (each : ∀ contents position descriptor spans,
      Leaf.Accepts registry (layoutAt version declared position descriptor) spans →
      leavesAt version declared
          (buildAt registry version capture declared contents position descriptor spans).1 position
          descriptor =
        Leaf.fillAll registry (layoutAt version declared position descriptor) spans)
    (entries : List (Planned Descriptor)) (distinct : (entries.map Planned.position).Nodup)
    (state : Contents declared × Option Children) (spans : List Bytes)
    (accepted : Leaf.Accepts registry (entries.flatMap fun planned =>
      layoutAt version declared planned.position planned.descriptor) spans) :
    let after := buildAll registry version capture declared entries state spans
    (entries.flatMap fun planned =>
        leavesAt version declared after.1 planned.position planned.descriptor) =
      Leaf.fillAll registry (entries.flatMap fun planned =>
        layoutAt version declared planned.position planned.descriptor) spans ∧
    ∀ other, other ∉ entries.map Planned.position → ∀ descriptor,
      leavesAt version declared after.1 other descriptor =
        leavesAt version declared state.1 other descriptor := by
  induction entries generalizing state spans with
  | nil =>
    cases accepted
    exact ⟨rfl, fun _ _ _ => rfl⟩
  | cons entry rest ih =>
    obtain ⟨fresh, distinct⟩ := List.nodup_cons.1 distinct
    rw [List.flatMap_cons] at accepted
    have first := each state.1 entry.position entry.descriptor _ (Leaf.accepts_left accepted)
    intro after
    let own := spans.take (layoutAt version declared entry.position entry.descriptor).length
    let built := buildAt registry version capture declared state.1 entry.position
      entry.descriptor own
    obtain ⟨later, kept⟩ := ih distinct (built.1, Children.graft entry.name built.2 state.2) _
      (Leaf.accepts_right accepted)
    refine ⟨?_, fun other outside descriptor => ?_⟩
    · rw [List.flatMap_cons, List.flatMap_cons, Leaf.fillAll_append accepted, ← first, ← later,
        ← kept entry.position fresh entry.descriptor]
      rfl
    · rw [List.map_cons, List.mem_cons, not_or] at outside
      exact (kept other outside.2 descriptor).trans (leavesAt_buildAt_of_ne outside.1)

end Field

theorem FieldType.fill_build {registry : Registry} {capture : Bool} {type : FieldType}
    {content : type.Carrier} {descriptor : Descriptor} {span : Bytes} {leaf : Leaf Held}
    (filled : Leaf.fill registry span (.scalar descriptor type) = .ok leaf) :
    Leaf.fill registry span (.scalar descriptor type) =
      .ok (.scalar descriptor ⟨type, (build registry capture type content descriptor span).1⟩) := by
  rw [filled]
  obtain ⟨codec, known, filled⟩ := Except.bind_eq_ok.1 filled
  obtain ⟨v, interpreted, filled⟩ := Except.bind_eq_ok.1 filled
  obtain ⟨held, taken, rfl⟩ := Except.map_eq_ok.1 filled
  obtain ⟨content, assigned, rfl⟩ := Held.ofValue_eq_ok.1 taken
  have found : (registry.lookup descriptor.wire >>= fun codec =>
      codec.interpret descriptor span) = .ok v := by
    rw [known]
    exact interpreted
  simp only [build, found, assigned]

theorem Container.length_of_unpack {container : Bytes} {fields : List BitDescriptor}
    {words : List UInt64} (unpacked : unpack container fields = .ok words) :
    words.length = fields.length := by
  obtain ⟨_, -, extracted⟩ := Except.bind_eq_ok.1 unpacked
  exact (Except.mapM_eq_ok.1 extracted).length_eq.symm

/-- Bit-fields whose container is taken hold what their leaf is filled with; all others hold what
they held before. -/
theorem BitField.build_of_fill {registry : Registry} {fields : List BitField} {record : String}
    {length : Nat} {planned : List (Planned BitDescriptor)} {span : Bytes} {leaf : Leaf Held}
    (capture : Bool) (contents : Contents fields)
    (filled : Leaf.fill registry span (.packed record length (typed fields planned)) = .ok leaf) :
    let after := (build capture fields contents planned span).1
    ∃ helds, (Container.unpack span (planned.map Planned.descriptor) >>= fun words =>
        Leaf.fillBits (typed fields planned) words) = .ok helds ∧
      leaf = .packed record length helds ∧
      (∀ other, other ∉ planned.map Planned.position →
        heldAt fields after other = heldAt fields contents other) ∧
      ((planned.map Planned.position).Nodup → (∀ bit ∈ planned, bit.position < fields.length) →
        planned.map (fun bit => (bit, heldAt fields after bit.position)) = helds) := by
  obtain ⟨helds, filled, same⟩ := Leaf.fill_packed_eq_ok.1 filled
  refine ⟨helds, filled, same.symm, ?_⟩
  obtain ⟨words, unpacked, taken⟩ := Except.bind_eq_ok.1 filled
  obtain ⟨after, grown, assigned, kept, put⟩ :=
    assign_of_taken contents (Children.start capture) taken
  have count : words.length = planned.length := by
    rw [Container.length_of_unpack unpacked, List.length_map]
  simp only [build, unpacked, assigned]
  exact ⟨kept, put count⟩

theorem BitField.fill_build {registry : Registry} {capture : Bool} {fields : List BitField}
    {contents : Contents fields} {record : String} {length : Nat}
    {planned : List (Planned BitDescriptor)} {span : Bytes} {leaf : Leaf Held}
    (distinct : (planned.map Planned.position).Nodup)
    (inside : ∀ bit ∈ planned, bit.position < fields.length)
    (filled : Leaf.fill registry span (.packed record length (typed fields planned)) = .ok leaf) :
    Leaf.fill registry span (.packed record length (typed fields planned)) =
      .ok (.packed record length (planned.map fun bit =>
        (bit, heldAt fields (build capture fields contents planned span).1 bit.position))) := by
  obtain ⟨helds, -, rfl, -, put⟩ := build_of_fill capture contents filled
  rw [filled, put distinct inside]

section

variable {registry : Registry} {version : Nat} {capture : Bool}

mutual

theorem Schema.leaves_build : (schema : Schema) → (record : schema.Record) →
    (spans : List Bytes) → Leaf.Accepts registry (schema.layout version) spans →
    schema.leaves version (schema.build registry version capture record spans).1 =
      Leaf.fillAll registry (schema.layout version) spans
  | .fields tag name declared, record, spans, accepted => by
    rw [Schema.layout] at accepted ⊢
    rw [Schema.leaves]
    cases resolved : (Schema.fields tag name declared).resolve version with
    | error fault =>
      rw [resolved] at accepted
      obtain ⟨_, _, -, impossible⟩ := Leaf.accepts_singleton accepted
      cases impossible
    | ok plan =>
      rw [resolved] at accepted
      rw [Schema.build_fields resolved record]
      have distinct := (Schema.of_resolve_fields resolved).1
      exact (Field.leavesAt_buildAll (Field.leavesAt_buildAt declared) plan.fields distinct
        (record, Children.start capture) spans accepted).1
  | .packed tag name length declared, record, spans, accepted => by
    rw [Schema.layout] at accepted ⊢
    rw [Schema.leaves]
    cases resolved : (Schema.packed tag name length declared).resolve version with
    | error fault =>
      rw [resolved] at accepted
      obtain ⟨_, _, -, impossible⟩ := Leaf.accepts_singleton accepted
      cases impossible
    | ok plan =>
      rw [resolved] at accepted
      obtain ⟨span, leaf, rfl, filled⟩ := Leaf.accepts_singleton accepted
      obtain ⟨distinct, -, inside⟩ := Schema.of_resolve_packed resolved
      rw [Schema.build_packed resolved record]
      change Leaf.fill registry span
        (.packed name length (BitField.typed declared plan.bits)) = .ok leaf at filled
      have known : ∀ bit ∈ plan.bits, bit.position < declared.length :=
        fun bit member => (inside bit member).1
      exact congrArg (fun step => [step]) (BitField.fill_build distinct known filled).symm

theorem Field.leaves_build : (field : Field) → (content : field.Content) →
    (descriptor : Descriptor) → (spans : List Bytes) →
    Leaf.Accepts registry (field.layout version descriptor) spans →
    field.leaves version (field.build registry version capture content descriptor spans).1
        descriptor =
      Leaf.fillAll registry (field.layout version descriptor) spans
  | .scalar _ type _, content, descriptor, spans, accepted => by
    obtain ⟨span, leaf, rfl, filled⟩ := Leaf.accepts_singleton accepted
    exact congrArg (fun step => [step]) (FieldType.fill_build filled).symm
  | .nested _ schema _, content, _, spans, accepted =>
    schema.leaves_build content spans accepted

theorem Field.leavesAt_buildAt : (fields : List Field) → (contents : Field.Contents fields) →
    (position : Nat) → (descriptor : Descriptor) → (spans : List Bytes) →
    Leaf.Accepts registry (Field.layoutAt version fields position descriptor) spans →
    Field.leavesAt version fields
        (Field.buildAt registry version capture fields contents position descriptor spans).1
        position descriptor =
      Leaf.fillAll registry (Field.layoutAt version fields position descriptor) spans
  | [], _, _, _, _, _ => rfl
  | field :: _, contents, 0, descriptor, spans, accepted =>
    field.leaves_build contents.1 descriptor spans accepted
  | _ :: rest, contents, position + 1, descriptor, spans, accepted =>
    Field.leavesAt_buildAt rest contents.2 position descriptor spans accepted

end

end

end Wireform
