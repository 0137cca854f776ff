import Wireform.Proofs.Assignment
import Wireform.Proofs.Charset
import Wireform.Proofs.Container
import Wireform.Proofs.Locality

/-!
Records back to the bytes they came from. A codec drops zeros behind text and in front of digits,
and a field may be too narrow for what it takes; apart from that, nothing that is read is lost, and
a record that was decoded is encoded as the bytes that decoding it consumed.
-/

namespace Wireform

open Cursor

theorem Held.value_of_ofValue {type : FieldType} {value given : Value} {held : Held}
    (taken : ofValue type value = .ok held)
    (same : ∀ content, type.ofValue value = .ok content → type.toValue content = given) :
    held.value = given := by
  obtain ⟨content, assigned, rfl⟩ := ofValue_eq_ok.1 taken
  exact same content assigned

namespace Codec

/-- A field of this type gives back what it takes from the codec. -/
def Carries (codec : Codec) (type : FieldType) : Prop :=
  match codec with
  | byte => type.Holds 8
  | word => type.Holds 16
  | dword => type.Holds 32
  | bytes => type = .bytes ∨ type = .value
  | bcd => type.width? ≠ none ∨ type = .string ∨ type = .value
  | string => type = .string ∨ type = .value

/-- The codec drops nothing of the span. -/
def Canonical (codec : Codec) (field : Descriptor) (span : Bytes) : Prop :=
  match codec with
  | byte | word | dword | bytes => True
  | bcd =>
    if field.mode = .fixed then field.length ≠ some 0
    else span ≠ [] ∧ (span.length = 1 ∨ span.head? ≠ some 0)
  | string => span.getLast? ≠ some 0

instance (codec : Codec) (type : FieldType) : Decidable (codec.Carries type) :=
  match codec with
  | byte | word | dword => inferInstanceAs (Decidable (type.Holds _))
  | bytes | bcd | string => inferInstanceAs (Decidable (_ ∨ _))

instance (codec : Codec) (field : Descriptor) (span : Bytes) :
    Decidable (codec.Canonical field span) :=
  match codec with
  | byte | word | dword | bytes => isTrue trivial
  | bcd => inferInstanceAs (Decidable (if field.mode = .fixed then field.length ≠ some 0
    else span ≠ [] ∧ (span.length = 1 ∨ span.head? ≠ some 0)))
  | string => inferInstanceAs (Decidable (span.getLast? ≠ some 0))

variable {limit : Nat} {field : Descriptor} {type : FieldType} {held : Held}
  {front rest span : Bytes}

theorem frame_of_takes (takes : Takes (Span.read limit field) front rest span) :
    ∃ pieces, Span.frame limit field span = .ok pieces ∧ pieces.flatten = front :=
  Except.map_eq_ok.1 (Span.map_flatten_frame_iff.2 (Span.takes_read_iff.1 takes).1)

theorem length_of_takes (takes : Takes (Span.read limit field) front rest span)
    (fixed : field.mode = .fixed) : field.length = some span.length := by
  have stands := (Span.takes_read_iff.1 takes).2
  unfold Span.Stands at stands
  rwa [fixed] at stands

theorem frameWord_of_read {codec : Codec} {width : Nat} (narrow : width ≤ 8)
    (carries : type.Holds (8 * width))
    (takes : Takes (codec.readWord width field) front rest span)
    (taken : Held.ofValue type (.uint (BigEndian.ofBytes span)) = .ok held) :
    ∃ pieces, codec.frameWord width field held.value = .ok pieces ∧ pieces.flatten = front := by
  obtain ⟨checked, rfl, length⟩ := takes_readWord_iff.1 takes
  have small : (BigEndian.ofBytes front).toNat < 2 ^ (8 * width) := by
    have below : (BigEndian.ofBytes front).toNat < 256 ^ front.length :=
      BigEndian.toNat_ofBytes_lt (by omega)
    rwa [length, show 256 ^ width = 2 ^ (8 * width) by rw [Nat.pow_mul]] at below
  have given : held.value = .uint (BigEndian.ofBytes front) :=
    Held.value_of_ofValue taken fun content => FieldType.toValue_of_uint carries small
  refine ⟨[front], ?_, List.flatten_singleton⟩
  rw [given]
  refine Except.bind_eq_ok.2 ⟨(), checked, congrArg (fun data => Except.ok [data]) ?_⟩
  rw [← length, BigEndian.toBytes_ofBytes (by omega)]

theorem frameBytes_of_read (carries : type = .bytes ∨ type = .value)
    (takes : Takes (Span.read limit field) front rest span)
    (taken : Held.ofValue type (.bytes span) = .ok held) :
    ∃ pieces, frameBytes limit field held.value = .ok pieces ∧ pieces.flatten = front := by
  have given : held.value = .bytes span :=
    Held.value_of_ofValue taken fun content => FieldType.toValue_of_bytes carries
  obtain ⟨pieces, framed, whole⟩ := frame_of_takes takes
  refine ⟨pieces, ?_, whole⟩
  rw [given]
  unfold frameBytes
  by_cases fixed : field.mode = .fixed
  · have length := length_of_takes takes fixed
    have filled : fillRight span.length span = span := by
      rw [fillRight, List.take_length, Nat.sub_self, List.replicate_zero, List.append_nil]
    refine (if_pos fixed).trans ?_
    refine Except.bind_eq_ok.2 ⟨span.length, Span.fixedLength_eq_ok.2 length, ?_⟩
    rw [filled]
    exact framed
  · exact (if_neg fixed).trans framed

theorem frameDigits_of_read (carries : bcd.Carries type) (canonical : bcd.Canonical field span)
    (takes : Takes (Span.read limit field) front rest span)
    (taken : Held.ofValue type (.digits (Digits.unpack span)) = .ok held) :
    ∃ pieces, frameDigits limit field held.value = .ok pieces ∧ pieces.flatten = front := by
  obtain ⟨content, assigned, rfl⟩ := Held.ofValue_eq_ok.1 taken
  have digits := FieldType.digitsOf_toValue field carries assigned
  obtain ⟨pieces, framed, whole⟩ := frame_of_takes takes
  refine ⟨pieces, ?_, whole⟩
  refine Except.bind_eq_ok.2 ⟨_, digits, Except.bind_eq_ok.2 ⟨_, Digits.pack_unpack span, ?_⟩⟩
  unfold Canonical at canonical
  by_cases fixed : field.mode = .fixed
  · have length := length_of_takes takes fixed
    have some : span ≠ [] := by
      intro none
      rw [if_pos fixed, length, none] at canonical
      exact canonical rfl
    obtain ⟨fits, filled⟩ := Digits.fillLeft_significant some
    rw [if_pos fixed]
    refine Except.bind_eq_ok.2 ⟨span.length, Span.fixedLength_eq_ok.2 length, ?_⟩
    rw [if_neg (by omega), filled]
    exact framed
  · rw [if_neg fixed] at canonical ⊢
    rw [Digits.significant_of_head canonical.1 canonical.2]
    exact framed

theorem frameText_of_read {content : String} (carries : type = .string ∨ type = .value)
    (canonical : span.getLast? ≠ some 0)
    (takes : Takes (Span.read limit field) front rest span)
    (decoded : field.charset.decode (dropTrailingZeros span) = .ok content)
    (taken : Held.ofValue type (.text content) = .ok held) :
    ∃ pieces, frameText limit field held.value = .ok pieces ∧ pieces.flatten = front := by
  have given : held.value = .text content :=
    Held.value_of_ofValue taken fun kept => FieldType.toValue_of_text carries
  have untrimmed : dropTrailingZeros span = span := by
    cases span using List.reverseRecOn with
    | nil => rfl
    | append_singleton init last =>
      rw [List.getLast?_concat] at canonical
      exact Charset.dropTrailingZeros_of_ne (fun zero => canonical (congrArg some zero)) init
  rw [untrimmed] at decoded
  obtain ⟨pieces, framed, whole⟩ := frame_of_takes takes
  refine ⟨pieces, ?_, whole⟩
  rw [given]
  exact Except.bind_eq_ok.2 ⟨span, Charset.encode_of_decode decoded, framed⟩

theorem frame_of_read {codec : Codec} {value : Value} (carries : codec.Carries type)
    (canonical : codec.Canonical field span)
    (takes : Takes (codec.readSpan limit field) front rest span)
    (interpreted : codec.interpret field span = .ok value)
    (taken : Held.ofValue type value = .ok held) :
    ∃ pieces, codec.frame limit field held.value = .ok pieces ∧ pieces.flatten = front := by
  cases codec with
  | byte => cases interpreted; exact frameWord_of_read (by decide) carries takes taken
  | word => cases interpreted; exact frameWord_of_read (by decide) carries takes taken
  | dword => cases interpreted; exact frameWord_of_read (by decide) carries takes taken
  | bytes => cases interpreted; exact frameBytes_of_read carries takes taken
  | bcd => cases interpreted; exact frameDigits_of_read carries canonical takes taken
  | string =>
    obtain ⟨content, decoded, rfl⟩ := Except.map_eq_ok.1 interpreted
    exact frameText_of_read carries canonical takes decoded taken

end Codec

namespace Leaf

/-- The fields of a leaf give back what they take, and bit-fields leave out no bit of their
container. -/
def Faithful (registry : Registry) : Except Fault (Leaf FieldType) → Prop
  | .ok (scalar descriptor type) =>
    ∀ codec ∈ registry.find? descriptor.wire, codec.Carries type
  | .ok (packed _ length bits) =>
    (∀ i < 8 * length, ∃ bit ∈ bits, bit.1.descriptor.Covers i) ∧
      ∀ bit ∈ bits, bit.2.Holds bit.1.descriptor.length
  | .error _ => True

def Canonical (registry : Registry) (step : Except Fault (Leaf FieldType)) (span : Bytes) : Prop :=
  match step with
  | .ok (scalar descriptor _) =>
    ∀ codec ∈ registry.find? descriptor.wire, codec.Canonical descriptor span
  | _ => True

instance (registry : Registry) (step : Except Fault (Leaf FieldType)) :
    Decidable (Faithful registry step) :=
  match step with
  | .ok (scalar descriptor type) =>
    inferInstanceAs (Decidable (∀ codec ∈ registry.find? descriptor.wire, codec.Carries type))
  | .ok (packed _ length bits) =>
    inferInstanceAs (Decidable ((∀ i < 8 * length, ∃ bit ∈ bits, bit.1.descriptor.Covers i) ∧
      ∀ bit ∈ bits, bit.2.Holds bit.1.descriptor.length))
  | .error _ => isTrue trivial

instance (registry : Registry) (step : Except Fault (Leaf FieldType)) (span : Bytes) :
    Decidable (Canonical registry step span) :=
  match step with
  | .ok (scalar descriptor _) => inferInstanceAs
    (Decidable (∀ codec ∈ registry.find? descriptor.wire, codec.Canonical descriptor span))
  | .ok (packed ..) | .error _ => isTrue trivial

variable {setting : Walk.Setting} {front rest : Bytes}

theorem words_of_fillBits {record : String} {bits : List (Planned BitDescriptor × FieldType)}
    {given : List UInt64} {helds : List (Planned BitDescriptor × Held)}
    (each : List.Forall₂ (fun bit word => bit.2.Holds bit.1.descriptor.length ∧
      Container.Fits bit.1.descriptor word) bits given)
    (filled : fillBits bits given = .ok helds) :
    words record helds = .ok ((bits.map (·.1.descriptor)).zip given) := by
  induction each generalizing helds with
  | nil => cases filled; rfl
  | @cons entry n bits given first others ih =>
    obtain ⟨bit, type⟩ := entry
    rw [BitField.fillBits_cons] at filled
    obtain ⟨held, taken, following⟩ := Except.bind_eq_ok.1 filled
    obtain ⟨remaining, later, rfl⟩ := Except.map_eq_ok.1 following
    have value : held.value = .uint n :=
      Held.value_of_ofValue taken fun content => FieldType.toValue_of_uint first.1 first.2
    unfold words
    rw [List.mapM_cons]
    refine Except.bind_eq_ok.2 ⟨(bit.descriptor, n), ?_, Except.bind_eq_ok.2 ⟨_, ih later, rfl⟩⟩
    dsimp only
    rw [value]
    rfl

theorem alone_of_read {leaf : Leaf FieldType} {span : Bytes}
    (faithful : Faithful setting.registry (.ok leaf))
    (canonical : Canonical setting.registry (.ok leaf) span)
    (takes : Takes (leaf.read setting) front rest span) :
    ∃ filled, leaf.fill setting.registry span = .ok filled ∧ filled.alone setting = .ok front := by
  obtain ⟨spanned, filled, taken⟩ := takes_read_iff.1 takes
  refine ⟨filled, taken, ?_⟩
  rw [alone_eq_frame, Except.map_eq_ok]
  cases leaf with
  | scalar descriptor type =>
    obtain ⟨codec, known, read⟩ := takes_ofExcept_bind_iff.1 spanned
    rw [fill_scalar setting.registry known] at taken
    obtain ⟨value, interpreted, taken⟩ := Except.bind_eq_ok.1 taken
    obtain ⟨held, assigned, rfl⟩ := Except.map_eq_ok.1 taken
    have found := Registry.lookup_eq_ok.1 known
    obtain ⟨pieces, framed, whole⟩ := Codec.frame_of_read (faithful codec found)
      (canonical codec found) read interpreted assigned
    exact ⟨pieces, Except.bind_eq_ok.2 ⟨codec, known, framed⟩, whole⟩
  | packed record length bits =>
    obtain ⟨rfl, count⟩ := takes_readFixed_iff.1 spanned
    obtain ⟨given, unpacked, taken⟩ := Except.bind_eq_ok.1 taken
    obtain ⟨helds, assigned, rfl⟩ := Except.map_eq_ok.1 taken
    obtain ⟨checked, extracted⟩ := Container.unpack_eq_ok.1 unpacked
    have fits := List.forall₂_map_left_iff.1
      (extracted.imp fun field word => Container.fits_of_extract checked)
    have found : words record helds = .ok ((bits.map (·.1.descriptor)).zip given) :=
      words_of_fillBits ((List.forall₂_and_left _ _).2 ⟨faithful.2, fits⟩) assigned
    have covered (i : Nat) (set : Container.bit front i = true) :
        ∃ field ∈ bits.map (·.1.descriptor), field.Covers i := by
      obtain ⟨bit, member, covers⟩ := faithful.1 i (count ▸ Container.lt_of_bit set)
      exact ⟨bit.1.descriptor, List.mem_map_of_mem member, covers⟩
    have packed := Container.pack_of_unpack unpacked rfl fun i =>
      (and_iff_left_of_imp (covered i)).symm
    rw [count] at packed
    exact ⟨[front], Except.bind_eq_ok.2 ⟨_, found, Except.bind_eq_ok.2 ⟨front, packed, rfl⟩⟩,
      List.flatten_singleton⟩

theorem alone_of_readAll {steps : List (Except Fault (Leaf FieldType))} {spans : List Bytes}
    (faithful : ∀ step ∈ steps, Faithful setting.registry step)
    (canonical : List.Forall₂ (Canonical setting.registry) steps spans)
    (takes : Takes (readAll setting steps) front rest spans) :
    ∃ written : List Bytes,
      (fillAll setting.registry steps spans).map (· >>= alone setting) = written.map .ok ∧
        written.flatten = front := by
  induction canonical generalizing front with
  | nil =>
    obtain ⟨rfl, -⟩ := takes_pure_iff.1 takes
    exact ⟨[], rfl, rfl⟩
  | @cons step span steps spans own others ih =>
    obtain ⟨leaf, rfl, found, first, second, rfl, takesFirst, remaining, takesOthers, same⟩ :=
      takes_readAll_cons_iff.1 takes
    cases same
    obtain ⟨filled, taken, wrote⟩ :=
      alone_of_read (faithful _ (List.mem_cons_self ..)) own takesFirst
    obtain ⟨written, each, whole⟩ := ih
      (fun step member => faithful step (List.mem_cons_of_mem _ member)) takesOthers
    refine ⟨first :: written, ?_, by rw [List.flatten_cons, whole]⟩
    have head : ((Except.ok leaf >>= fill setting.registry span) >>= alone setting) = .ok first :=
      Except.bind_eq_ok.2 ⟨filled, taken, wrote⟩
    exact congrArg₂ List.cons head each

end Leaf

def Schema.Faithful (registry : Registry) (schema : Schema) (version : Nat) : Prop :=
  ∀ step ∈ schema.layout version, Leaf.Faithful registry step

instance (registry : Registry) (schema : Schema) (version : Nat) :
    Decidable (schema.Faithful registry version) :=
  inferInstanceAs (Decidable (∀ step ∈ schema.layout version, Leaf.Faithful registry step))

namespace Marshaller

variable {marshaller : Marshaller} {schema : Schema} {version : Nat} {data : Bytes}

/-- The spans that decoding a record reads: the data of its fields, without what stands around
it. -/
def payloads (marshaller : Marshaller) (schema : Schema) (version : Nat) (data : Bytes) :
    Except Fault (List Bytes) :=
  (Leaf.readAll (marshaller.setting version) (schema.layout version)).answer (ofBytes data)

def Canonical (marshaller : Marshaller) (schema : Schema) (version : Nat) (data : Bytes) : Prop :=
  ∃ spans, marshaller.payloads schema version data = .ok spans ∧
    List.Forall₂ (Leaf.Canonical marshaller.registry) (schema.layout version) spans

/-- A record that was decoded from canonical bytes is encoded as exactly the bytes that decoding it
consumed. -/
theorem encode_decoded_record {initial : schema.Record} {decoded : Decoded schema}
    {left : Marshaller} {cursor : Cursor}
    (faithful : schema.Faithful marshaller.registry version)
    (ran : decode schema version initial (marshaller, ofBytes data) = .ok decoded (left, cursor))
    (canonical : marshaller.Canonical schema version data) (plans : PlanCache) : ∃ after,
    encode schema version decoded.record ({ marshaller with plans := plans }, ([] : Bytes)) =
      .ok cursor.position (after, data.take cursor.position) := by
  have started : decode schema version initial (marshaller, between [] data) = _ := ran
  obtain ⟨front, rest, spans, split, stopped, takes, same⟩ := takes_of_decode started
  subst same
  have position : cursor.position = front.length := by rw [stopped]; rfl
  have consumed : data.take cursor.position = front := by
    rw [position, split]
    exact List.take_left
  rw [consumed, position]
  obtain ⟨found, read, each⟩ := canonical
  have whole : marshaller.payloads schema version data = .ok spans := by
    have answered : Leaf.readAll (marshaller.setting version) (schema.layout version)
        (between [] (front ++ rest)) = _ := takes []
    unfold payloads Transfer.answer
    rw [split, show ofBytes (front ++ rest) = between [] (front ++ rest) from rfl, answered]
  cases whole.symm.trans read
  have all : ∀ step ∈ schema.layout version,
      Leaf.Faithful (marshaller.setting version).registry step := faithful
  obtain ⟨written, alone, together⟩ := Leaf.alone_of_readAll all each takes
  have pieces : schema.pieces (setting { marshaller with plans := plans } version)
      (marshaller.assemble marshaller.settings.captureTree schema version initial spans).record =
        written.map .ok := by
    rw [← alone]
    exact congrArg (List.map (· >>= Leaf.alone (marshaller.setting version)))
      (leaves_assemble takes marshaller.settings.captureTree initial)
  obtain ⟨after, wrote⟩ := encode_of_pieces pieces ([] : Bytes)
  rw [together] at wrote
  exact ⟨_, wrote⟩

/-- A leaf of each shape, read from the front of five bytes and written again. -/
theorem encode_decoded_record_sample :
    let decoded : Decoded Sample.schema := ⟨Sample.record "12" 3 10 258, none⟩
    (∃ left, decode Sample.schema 1 Sample.initial (default, ofBytes [1, 2, 0xa3, 0x12, 9]) =
      .ok decoded (left, ⟨[1, 2, 0xa3, 0x12, 9], 4⟩)) ∧
    ∃ after, encode Sample.schema 1 decoded.record (default, ([] : Bytes)) =
      .ok 4 (after, [1, 2, 0xa3, 0x12]) := by
  intro decoded
  have read : decode Sample.schema 1 Sample.initial (default, ofBytes [1, 2, 0xa3, 0x12, 9]) =
      .ok decoded (_, ⟨[1, 2, 0xa3, 0x12, 9], 4⟩) := rfl
  have faithful : Sample.schema.Faithful .builtin 1 := by decide +kernel
  have canonical : Marshaller.Canonical default Sample.schema 1 [1, 2, 0xa3, 0x12, 9] := by
    refine ⟨[[1, 2], [0xa3], [0x12]], rfl, ?_⟩
    exact .cons (by decide +kernel) (.cons (by decide +kernel) (.cons (by decide +kernel) .nil))
  exact ⟨⟨_, read⟩, encode_decoded_record faithful read canonical _⟩

end Marshaller

end Wireform
