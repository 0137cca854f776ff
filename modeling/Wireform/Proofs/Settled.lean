import Wireform.Proofs.Decoding
import Wireform.Proofs.Raising
import Wireform.Proofs.Resolution

/-!
What resolving settles. Where a record type and all that it nests have plans, each leaf that travels
has a span that can be told, and each container holds its bit-fields. So neither encoding nor
decoding comes upon a fault of the record type any more, and a container fails only for what its
bit-fields hold or take, or with its stream.
-/

namespace Wireform

open Walk

/-- A record type that has a plan, and those that its plan nests, and so on. -/
inductive Schema.Reaches (version : Nat) : Schema → Schema → Prop where
  | self (schema : Schema) : Reaches version schema schema
  | nested {tag : Nat} {name : String} {declared : List Field} {plan : Plan}
    {entry : Planned Descriptor} {field : Field} {inner target : Schema}
    (resolved : (Schema.fields tag name declared).resolve version = .ok plan)
    (travels : entry ∈ plan.fields) (declares : declared[entry.position]? = some field)
    (nests : field.inner? = some inner) (further : Reaches version inner target) :
    Reaches version (.fields tag name declared) target

/-- The record type has a plan, and so has all that it nests. -/
def Schema.Resolves (version : Nat) (schema : Schema) : Prop :=
  ∀ target, schema.Reaches version target → ∃ plan, target.resolve version = .ok plan

/-- The span of a scalar field can be told, and bit-fields lie inside their container. -/
def Leaf.Settled {κ : Type} : Leaf κ → Prop
  | scalar descriptor _ => descriptor.Delimited
  | packed _ length bits => Container.check length = .ok () ∧
    ∀ bit ∈ bits, Container.checkSpan length bit.1.descriptor = .ok ()

theorem Leaf.settled_map_iff {κ μ : Type} {f : κ → μ} {leaf : Leaf κ} :
    (leaf.map f).Settled ↔ leaf.Settled := by
  cases leaf with
  | scalar descriptor known => exact Iff.rfl
  | packed record length bits => simp only [map, Settled, List.forall_mem_map]

theorem Leaf.settled_of_resolve {tag version length : Nat} {name : String}
    {declared : List BitField} {plan : Plan}
    (resolved : (Schema.packed tag name length declared).resolve version = .ok plan) {κ : Type}
    (known : Planned BitDescriptor → κ) :
    Settled (.packed name length (plan.bits.map fun bit => (bit, known bit))) := by
  obtain ⟨-, checked, inside⟩ := Schema.of_resolve_packed resolved
  exact ⟨checked, List.forall_mem_map.2 fun bit travels => (inside bit travels).2⟩

theorem Field.Suits.delimited {field : Field} {descriptor : Descriptor}
    (suits : field.Suits descriptor) (plain : field.inner? = none) : descriptor.Delimited where
  sized fixed := by
    refine suits.sized fixed fun object => ?_
    have nests := suits.shape.1 object
    rw [plain] at nests
    cases nests
  counted := suits.counted

theorem Schema.suits_of_resolve {tag version : Nat} {name : String} {declared : List Field}
    {plan : Plan} (resolved : (Schema.fields tag name declared).resolve version = .ok plan)
    {entry : Planned Descriptor} (travels : entry ∈ plan.fields) {field : Field}
    (declares : declared[entry.position]? = some field) : field.Suits entry.descriptor := by
  obtain ⟨-, decided, -⟩ := resolve_isOk_iff.1 ⟨plan, resolved⟩
  obtain ⟨-, -, lists, -, -⟩ := plannedBy_of_resolve resolved
  obtain ⟨other, same, -, covers⟩ := (lists.mem_iff entry).1 travels
  cases same.symm.trans declares
  apply (decided field (List.mem_of_getElem? declares)).2
  rw [covers]
  exact List.mem_singleton_self _

section

variable {version : Nat}

mutual

/-- Where all that is nested has plans, all that travels is settled. -/
theorem Schema.settled_layout : (schema : Schema) → schema.Resolves version →
    ∀ step ∈ schema.layout version, ∃ leaf, step = .ok leaf ∧ leaf.Settled
  | .fields tag name declared, resolves => by
    obtain ⟨plan, resolved⟩ := resolves _ (.self _)
    rw [Schema.layout, resolved]
    intro step member
    obtain ⟨entry, travels, member⟩ := List.mem_flatMap.1 member
    refine Field.settled_layoutAt declared entry.position entry.descriptor
      (fun field declares => ⟨Schema.suits_of_resolve resolved travels declares, ?_⟩) step member
    exact fun inner nests target further =>
      resolves target (.nested resolved travels declares nests further)
  | .packed tag name length declared, resolves => by
    obtain ⟨plan, resolved⟩ := resolves _ (.self _)
    rw [Schema.layout, resolved]
    intro step member
    exact ⟨_, List.mem_singleton.1 member, Leaf.settled_of_resolve resolved _⟩

theorem Field.settled_layout : (field : Field) → (descriptor : Descriptor) →
    field.Suits descriptor → (∀ inner, field.inner? = some inner → inner.Resolves version) →
    ∀ step ∈ field.layout version descriptor, ∃ leaf, step = .ok leaf ∧ leaf.Settled
  | .scalar _ type _, descriptor, suits, _ => by
    rw [Field.layout]
    intro step member
    exact ⟨_, List.mem_singleton.1 member, suits.delimited rfl⟩
  | .nested _ schema _, descriptor, _, resolves => by
    rw [Field.layout]
    exact schema.settled_layout (resolves schema rfl)

theorem Field.settled_layoutAt : (fields : List Field) → (position : Nat) →
    (descriptor : Descriptor) → (∀ field, fields[position]? = some field →
      field.Suits descriptor ∧ ∀ inner, field.inner? = some inner → inner.Resolves version) →
    ∀ step ∈ Field.layoutAt version fields position descriptor,
      ∃ leaf, step = .ok leaf ∧ leaf.Settled
  | [], _, _, _ => by
    rw [Field.layoutAt]
    exact fun step member => absurd member List.not_mem_nil
  | field :: _, 0, descriptor, each => by
    rw [Field.layoutAt]
    exact field.settled_layout descriptor (each field rfl).1 (each field rfl).2
  | _ :: rest, position + 1, descriptor, each => by
    rw [Field.layoutAt]
    exact Field.settled_layoutAt rest position descriptor each

end

theorem Schema.settled_leaves {schema : Schema} (resolves : schema.Resolves version)
    (record : schema.Record) :
    ∀ step ∈ schema.leaves version record, ∃ leaf, step = .ok leaf ∧ leaf.Settled := by
  intro step member
  have known : Leaf.types step ∈ schema.layout version := by
    rw [← schema.types_leaves version record]
    exact List.mem_map_of_mem member
  obtain ⟨typed, same, settled⟩ := schema.settled_layout resolves _ known
  obtain ⟨leaf, rfl, rfl⟩ := Except.map_eq_ok.1 same
  exact ⟨leaf, rfl, Leaf.settled_map_iff.1 settled⟩

theorem Field.layoutAt_eq {fields : List Field} {position : Nat} {field : Field}
    (declares : fields[position]? = some field) (descriptor : Descriptor) :
    Field.layoutAt version fields position descriptor = field.layout version descriptor := by
  induction fields generalizing position with
  | nil => cases declares
  | cons first rest ih =>
    cases position with
    | zero => cases declares; rfl
    | succ position => exact ih declares

theorem Field.layout_of_nests {field : Field} {inner : Schema} (nests : field.inner? = some inner)
    (descriptor : Descriptor) : field.layout version descriptor = inner.layout version := by
  cases field with
  | scalar name type declared => cases nests
  | nested name schema declared =>
    cases nests
    rw [Field.layout]

/-- A record type has all its plans where it can be laid flat. -/
theorem Schema.resolves_iff {schema : Schema} :
    schema.Resolves version ↔ ∀ step ∈ schema.layout version, step.isOk = true := by
  apply Iff.intro
  · intro resolves step member
    obtain ⟨leaf, rfl, -⟩ := schema.settled_layout resolves step member
    rfl
  · intro flat target reaches
    induction reaches with
    | self schema =>
      cases resolved : schema.resolve version with
      | ok plan => exact ⟨plan, rfl⟩
      | error fault =>
        have only : schema.layout version = [.error fault] := by
          cases schema <;> rw [Schema.layout, resolved] <;> rfl
        rw [only] at flat
        cases flat _ (List.mem_singleton_self _)
    | nested resolved travels declares nests further ih =>
      refine ih fun step member => flat step ?_
      rw [Schema.layout, resolved]
      refine List.mem_flatMap.2 ⟨_, travels, ?_⟩
      rw [Field.layoutAt_eq declares, Field.layout_of_nests nests]
      exact member

instance (schema : Schema) : Decidable (schema.Resolves version) :=
  decidable_of_iff' _ Schema.resolves_iff

end

namespace Container

variable {length : Nat}

theorem raises_place {field : BitDescriptor} (checked : check length = .ok ())
    (passed : checkSpan length field = .ok ()) (word : UInt64) :
    Except.Raises (place length field word) fun fault =>
      2 ^ field.length ≤ word.toNat ∧ fault = .range (.bits word field.name field.length) := by
  by_cases fits : Fits field word
  · rw [(place_eq_ok checked).2 ⟨fun _ => ⟨passed, fits⟩, rfl⟩]
    exact Except.raises_ok _
  · have wide : 2 ^ field.length ≤ word.toNat := Nat.le_of_not_lt fits
    unfold place
    split
    · exact Except.raises_ok 0
    · rw [passed]
      refine (Except.raises_ok ()).bind fun _ _ => ?_
      split
      · exact Except.raises_ok _
      · exact Except.raises_error ⟨wide, rfl⟩

theorem raises_pack {fields : List (BitDescriptor × UInt64)} (checked : check length = .ok ())
    (passed : ∀ entry ∈ fields, checkSpan length entry.1 = .ok ()) :
    Except.Raises (pack length fields) fun fault => ∃ entry ∈ fields,
      2 ^ entry.1.length ≤ entry.2.toNat ∧
        fault = .range (.bits entry.2 entry.1.name entry.1.length) := by
  unfold pack
  rw [checked]
  refine (Except.raises_ok ()).bind fun _ _ => ?_
  refine (Except.raises_foldlM (fun gathered entry member => ?_) 0).bind fun _ _ =>
    Except.raises_ok _
  have placed := raises_place checked (passed entry member) entry.2
  exact (placed.mono fun fault refused => ⟨entry, member, refused⟩).map _

theorem raises_unpack {allowed : Fault → Prop} {container : Bytes} {fields : List BitDescriptor}
    (checked : check container.length = .ok ())
    (passed : ∀ field ∈ fields, checkSpan container.length field = .ok ()) :
    Except.Raises (unpack container fields) allowed := by
  unfold unpack
  rw [checked]
  refine (Except.raises_ok ()).bind fun _ _ => Except.raises_mapM fun field member => ?_
  unfold extract
  rw [passed field member]
  exact Except.raises_ok _

end Container

/-- What the fault says of the value that a bit-field holds: that it is no integer, or that it has
too many bits. -/
inductive Planned.Refuses (record : String) (bit : Planned BitDescriptor) :
    Value → Fault → Prop where
  | kind {value : Value} (foreign : value.uint? = none) :
    Refuses record bit value (.unsupported (.bits record bit.name value.kind))
  | range {word : UInt64} (wide : 2 ^ bit.descriptor.length ≤ word.toNat) :
    Refuses record bit (.uint word)
      (.range (.bits word bit.descriptor.name bit.descriptor.length))

theorem Planned.Refuses.dynamic {record : String} {bit : Planned BitDescriptor} {value : Value}
    {fault : Fault} (refuses : bit.Refuses record value fault) : fault.Dynamic := by
  cases refuses <;> exact id

namespace Leaf

variable {setting : Setting} {record : String} {length : Nat}

theorem raises_word (record : String) (bit : Planned BitDescriptor) (value : Value) :
    Except.Raises (word record bit value) (bit.Refuses record value) := by
  cases value with
  | uint _ => exact Except.raises_ok _
  | bytes _ | text _ | digits _ => exact Except.raises_error (.kind rfl)

theorem raises_words (record : String) (bits : List (Planned BitDescriptor × Held)) :
    Except.Raises (words record bits) fun fault =>
      ∃ entry ∈ bits, entry.1.Refuses record entry.2.value fault :=
  Except.raises_mapM fun entry member =>
    (raises_word record entry.1 entry.2.value).mono fun _ refuses => ⟨entry, member, refuses⟩

theorem raises_frame_packed {bits : List (Planned BitDescriptor × Held)}
    (settled : Settled (.packed record length bits)) :
    Except.Raises (frame setting (.packed record length bits)) fun fault =>
      ∃ entry ∈ bits, entry.1.Refuses record entry.2.value fault := by
  obtain ⟨checked, passed⟩ := settled
  refine (raises_words record bits).bind fun entries given => ?_
  have holds (entry : BitDescriptor × UInt64) (member : entry ∈ entries) :=
    (mem_words_iff given).1 member
  have inside : ∀ entry ∈ entries, Container.checkSpan length entry.1 = .ok () := by
    intro entry member
    obtain ⟨bit, present, same, -⟩ := holds entry member
    rw [← same]
    exact passed bit present
  refine ((Container.raises_pack checked inside).mono ?_).bind fun packed _ => Except.raises_ok _
  intro fault ⟨entry, member, wide, same⟩
  obtain ⟨bit, present, described, value⟩ := holds entry member
  refine ⟨bit, present, ?_⟩
  rw [same, value, ← described]
  rw [← described] at wide
  exact .range wide

theorem raises_frame {leaf : Leaf Held} (settled : leaf.Settled) :
    Except.Raises (leaf.frame setting) Fault.Dynamic := by
  cases leaf with
  | scalar descriptor held =>
    exact (setting.registry.raises_lookup descriptor.wire).bind fun codec _ =>
      codec.raises_frame _ settled held.value
  | packed record length bits =>
    refine (raises_frame_packed settled).mono fun fault refused => ?_
    obtain ⟨entry, -, refuses⟩ := refused
    exact refuses.dynamic

theorem raises_fillBits (bits : List (Planned BitDescriptor × FieldType)) (words : List UInt64) :
    Except.Raises (fillBits bits words) fun fault =>
      ∃ entry ∈ bits.zip words, entry.1.2.ofValue (.uint entry.2) = .error fault := by
  refine Except.raises_mapM fun entry member => ?_
  have own : Except.Raises (entry.1.2.ofValue (.uint entry.2)) fun fault =>
      ∃ entry ∈ bits.zip words, entry.1.2.ofValue (.uint entry.2) = .error fault :=
    fun fault foreign => ⟨entry, member, foreign⟩
  exact (own.map _).map _

/-- Why a container of bit-fields is not taken: it was not delivered, or one of the integers read
from it is not one for its field. -/
inductive Untaken {σ : Type} [Source σ] (length : Nat)
    (bits : List (Planned BitDescriptor × FieldType)) (stream : σ) (fault : Fault) (after : σ) :
    Prop where
  | undelivered (short : Span.readFixed length stream = .error fault after)
    (cause : fault.Undelivered)
  | refused {container : Bytes} {words : List UInt64} {bit : Planned BitDescriptor}
    {type : FieldType} {word : UInt64}
    (delivered : Span.readFixed length stream = .ok container after)
    (unpacked : Container.unpack container (bits.map (·.1.descriptor)) = .ok words)
    (read : ((bit, type), word) ∈ bits.zip words)
    (foreign : type.ofValue (.uint word) = .error fault)

section

variable {σ κ : Type} [Source σ] [Source.Plain σ] [Sink κ] [Sink.Plain κ]

theorem raises_encode {leaf : Leaf Held} (settled : leaf.Settled) :
    (leaf.encode setting : Transfer κ Nat).Raises Fault.Dynamic := by
  rw [encode_eq_write]
  exact Transfer.raises_ofExcept_bind (raises_frame settled) fun pieces _ =>
    (Span.raises_write pieces).mono fun fault failed => failed.dynamic

theorem raises_encode_packed {bits : List (Planned BitDescriptor × Held)}
    (settled : Settled (.packed record length bits)) :
    (encode setting (.packed record length bits) : Transfer κ Nat).Raises fun fault =>
      fault.Io ∨ ∃ entry ∈ bits, entry.1.Refuses record entry.2.value fault := by
  rw [encode_eq_write]
  refine Transfer.raises_ofExcept_bind ?_ fun pieces _ =>
    (Span.raises_write pieces).mono fun fault failed => .inl failed
  exact (raises_frame_packed settled).mono fun fault refused => .inr refused

theorem raises_encodeAll {steps : List (Except Fault (Leaf Held))}
    (settled : ∀ step ∈ steps, ∃ leaf, step = .ok leaf ∧ leaf.Settled) :
    (encodeAll setting steps : Transfer κ Nat).Raises Fault.Dynamic := by
  induction steps with
  | nil => exact Transfer.raises_pure 0
  | cons step rest ih =>
    obtain ⟨⟨leaf, rfl, first⟩, others⟩ := List.forall_mem_cons.1 settled
    rw [encodeAll]
    refine Transfer.raises_ofExcept_bind (Except.raises_ok leaf) fun _ same => ?_
    cases same
    refine (raises_encode first).bind fun _ written _ _ => ?_
    exact (ih others).bind fun _ more _ _ => Transfer.raises_pure _

/-- A container that is not taken was not delivered, or holds an integer that is refused; the
container itself and the spans in it are in order. -/
theorem untaken_of_read {bits : List (Planned BitDescriptor × FieldType)} {stream after : σ}
    {fault : Fault} (settled : Settled (.packed record length bits))
    (failed : read setting (.packed record length bits) stream = .error fault after) :
    Untaken length bits stream fault after := by
  obtain ⟨checked, passed⟩ := settled
  rcases Transfer.bind_eq_error.1 failed with short | ⟨container, mid, delivered, failed⟩
  · exact .undelivered short (Span.raises_readFixed length stream fault after short)
  · have count : container.length = length := Span.length_readFixed delivered
    subst count
    have taken : Except.Raises (fill setting.registry container
        (.packed record container.length bits)) (Untaken container.length bits stream · mid) := by
      refine (Container.raises_unpack checked (List.forall_mem_map.2 passed)).bind
        fun words unpacked => ((raises_fillBits bits words).mono ?_).map _
      intro fault ⟨((bit, type), word), read, foreign⟩
      exact .refused delivered unpacked read foreign
    rcases Transfer.bind_eq_error.1 failed with filled | ⟨_, _, _, impossible⟩
    · obtain ⟨refused, rfl⟩ := Transfer.ofExcept_eq_error.1 filled
      exact taken fault refused
    · cases impossible

theorem raises_read {leaf : Leaf FieldType} (settled : leaf.Settled) :
    (leaf.read setting : Transfer σ Bytes).Raises Fault.Dynamic := by
  cases leaf with
  | scalar descriptor type =>
    have known := setting.registry.raises_lookup descriptor.wire
    refine Transfer.Raises.bind ?_ fun _ span _ _ => ?_
    · exact Transfer.raises_ofExcept_bind known fun codec _ => codec.raises_readSpan _ settled
    · refine Transfer.raises_ofExcept_bind ?_ fun _ _ => Transfer.raises_pure span
      refine known.bind fun codec _ => ?_
      refine (codec.raises_interpret descriptor span).bind fun value _ => ?_
      exact (((type.raises_ofValue value).mono fun _ => Fault.Unfit.dynamic).map _).map _
  | packed record length bits =>
    intro stream fault after failed
    cases untaken_of_read settled failed with
    | undelivered short cause => exact cause.dynamic
    | refused delivered unpacked read foreign =>
      exact (FieldType.raises_ofValue _ _ fault foreign).dynamic

theorem raises_readAll {steps : List (Except Fault (Leaf FieldType))}
    (settled : ∀ step ∈ steps, ∃ leaf, step = .ok leaf ∧ leaf.Settled) :
    (readAll setting steps : Transfer σ (List Bytes)).Raises Fault.Dynamic := by
  induction steps with
  | nil => exact Transfer.raises_pure []
  | cons step rest ih =>
    obtain ⟨⟨leaf, rfl, first⟩, others⟩ := List.forall_mem_cons.1 settled
    rw [readAll]
    refine Transfer.raises_ofExcept_bind (Except.raises_ok leaf) fun _ same => ?_
    cases same
    refine (raises_read first).bind fun _ span _ _ => ?_
    exact (ih others).bind fun _ more _ _ => Transfer.raises_pure _

end

end Leaf

namespace Schema

variable {σ κ : Type} [Source σ] [Source.Plain σ] [Sink κ] [Sink.Plain κ] {setting : Setting}
  {tag length : Nat} {name : String} {declared : List BitField} {plan : Plan}

theorem raises_encode_packed
    (resolved : (Schema.packed tag name length declared).resolve setting.version = .ok plan)
    (contents : (Schema.packed tag name length declared).Record) :
    ((Schema.packed tag name length declared).encode setting contents : Walk κ Nat).Raises
      fun fault => fault.Io ∨ ∃ bit ∈ plan.bits,
        bit.Refuses name (BitField.valueAt declared contents bit.position) fault := by
  intro state fault after failed
  have written :=
    (encode_follows setting (.packed tag name length declared) contents).of_error failed
  rw [leaves, resolved] at written
  simp only [Leaf.ofPlan, Leaf.encodeAll_singleton] at written
  rcases Leaf.raises_encode_packed (Leaf.settled_of_resolve resolved _) _ _ _ written with
    io | ⟨entry, member, refuses⟩
  · exact .inl io
  · obtain ⟨bit, travels, rfl⟩ := List.mem_map.1 member
    refine .inr ⟨bit, travels, ?_⟩
    rw [← BitField.value_heldAt declared contents bit.position]
    exact refuses

theorem untaken_of_decode
    (resolved : (Schema.packed tag name length declared).resolve setting.version = .ok plan)
    {capture : Bool} {contents : BitField.Contents declared} {state after : State σ} {fault : Fault}
    (failed : (Schema.packed tag name length declared).decode setting capture contents state =
      .error fault after) :
    Leaf.Untaken length (BitField.typed declared plan.bits) state.stream fault after.stream := by
  have read :=
    (decode_follows setting capture (.packed tag name length declared) contents).of_error failed
  rw [layout, resolved, Transfer.map_eq_error] at read
  simp only [Leaf.ofPlan, Leaf.readAll, Transfer.ofExcept_ok, pure_bind] at read
  rcases Transfer.bind_eq_error.1 read with failed | ⟨_, _, _, impossible⟩
  · exact Leaf.untaken_of_read (Leaf.settled_of_resolve resolved _) failed
  · cases impossible

end Schema

namespace Marshaller

/-- Where a record type and all that it nests have plans, no fault of theirs is left for encoding
and decoding to find. Wherever a packed record is met, it fails to be written only for what one of
its bit-fields holds, or with the sink; and it fails to be read only where its container is not
delivered, or where a field takes no such integer. -/
theorem fails_only_dynamically {schema : Schema} {version : Nat}
    (resolves : schema.Resolves version) :
    (∀ (κ : Type) [Sink κ] [Sink.Plain κ] (record : schema.Record),
      (encode schema version record : Transfer (Marshaller × κ) Nat).Raises Fault.Dynamic) ∧
    (∀ (σ : Type) [Source σ] [Source.Plain σ] (initial : schema.Record),
      (decode schema version initial : Transfer (Marshaller × σ) (Decoded schema)).Raises
        Fault.Dynamic) ∧
    ∀ tag name length declared, schema.Reaches version (.packed tag name length declared) →
      ∃ plan, (Schema.packed tag name length declared).resolve version = .ok plan ∧
        ∀ settings registry (contents : BitField.Contents declared),
          (∀ (κ : Type) [Sink κ] [Sink.Plain κ],
            ((Schema.packed tag name length declared).encode ⟨settings, registry, version⟩
              contents : Walk κ Nat).Raises fun fault => fault.Io ∨ ∃ bit ∈ plan.bits,
                bit.Refuses name (BitField.valueAt declared contents bit.position) fault) ∧
          ∀ (σ : Type) [Source σ] [Source.Plain σ] capture (state after : State σ) fault,
            (Schema.packed tag name length declared).decode ⟨settings, registry, version⟩ capture
                contents state = .error fault after →
              Leaf.Untaken length (BitField.typed declared plan.bits) state.stream fault
                after.stream := by
  refine ⟨fun κ _ _ record => ?_, fun σ _ _ initial => ?_,
    fun tag name length declared reaches => ?_⟩
  · intro (marshaller, sink) fault after failed
    obtain ⟨kept, same⟩ := encode_eq marshaller schema version record sink
    obtain ⟨rest, written, -⟩ := Transfer.within_eq_error.1 (same.symm.trans failed)
    exact Leaf.raises_encodeAll (schema.settled_leaves resolves record) sink fault rest written
  · intro (marshaller, stream) fault (left, stopped) failed
    exact Leaf.raises_readAll (schema.settled_layout resolves) stream fault stopped
      (readAll_error_of_decode failed)
  · obtain ⟨plan, resolved⟩ := resolves _ reaches
    refine ⟨plan, resolved, fun settings registry contents => ⟨fun κ _ _ => ?_, fun σ _ _ => ?_⟩⟩
    · exact Schema.raises_encode_packed resolved contents
    · exact fun capture state after fault failed => Schema.untaken_of_decode resolved failed

/-- Sixteen does not fit half a byte, and that is all that is wrong with it. -/
theorem fails_only_dynamically_sample :
    Sample.schema.Resolves 1 ∧
    (encode Sample.schema 1 (Sample.record "12" 16 3 258) :
      Transfer (Marshaller × Writer) Nat).Raises Fault.Dynamic ∧
    (decode Sample.schema 1 Sample.initial :
      Transfer (Marshaller × Reader) (Decoded Sample.schema)).Raises Fault.Dynamic ∧
    ∃ plan, Sample.flags.resolve 1 = .ok plan ∧ ∃ bit ∈ plan.bits, ∃ value,
      bit.Refuses "Flags" value (.range (.bits 16 "low" 4)) := by
  have resolves : Sample.schema.Resolves 1 := by decide +kernel
  obtain ⟨encodes, decodes, packed⟩ := fails_only_dynamically resolves
  have resolved : Sample.schema.resolve 1 = .ok _ := rfl
  obtain ⟨plan, planned, fails⟩ := packed _ _ _ _
    (.nested resolved (.tail _ (.head _)) rfl rfl (.self Sample.flags))
  have refused : ∃ after, Sample.flags.encode ⟨.default, .builtin, 1⟩ (16, 3, ())
      ⟨.empty, ([] : Bytes)⟩ = .error (.range (.bits 16 "low" 4)) after := ⟨_, rfl⟩
  obtain ⟨after, refused⟩ := refused
  rcases (fails .default .builtin (16, 3, ())).1 Bytes _ _ _ refused with
    io | ⟨bit, travels, refuses⟩
  · cases io
  · exact ⟨resolves, encodes Writer _, decodes Reader _, plan, planned, bit, travels, _, refuses⟩

end Marshaller

end Wireform
