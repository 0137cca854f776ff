import Wireform.Proofs.Container
import Wireform.Proofs.Normal

/-!
Records there and back. What a leaf writes is read as what is kept of it, whatever follows, unless
it takes all that is left; so a record is decoded from what it was encoded as, and every field that
travels holds what its codec keeps.
-/

namespace Wireform

open Cursor

namespace Leaf

def normalBits (bits : List (Planned BitDescriptor × Held)) :
    Except Fault (List (Planned BitDescriptor × Held)) :=
  bits.mapM fun (bit, held) =>
    (Held.ofValue held.type held.value).map fun kept => (bit, kept)

/-- What is kept of a leaf that is written and read again. -/
def normal (registry : Registry) : Leaf Held → Except Fault (Leaf Held)
  | scalar descriptor held => do
    let codec ← registry.lookup descriptor.wire
    (Held.ofValue held.type (codec.normal descriptor held.value)).map (scalar descriptor)
  | packed record length bits => (normalBits bits).map (packed record length)

/-- The spans of bit-fields lie inside their container. -/
def Checked : Except Fault (Leaf Held) → Prop
  | .ok (packed _ length bits) =>
    ∀ bit ∈ bits, Container.checkSpan length bit.1.descriptor = .ok ()
  | _ => True

def Fills (registry : Registry) : Except Fault (Leaf Held) → Prop
  | .ok (scalar descriptor held) =>
    registry.find? descriptor.wire = some .string → Codec.Fills descriptor held.value
  | _ => True

/-- No truth value travels as digits. -/
def Plain (registry : Registry) : Except Fault (Leaf Held) → Prop
  | .ok (scalar descriptor held) =>
    registry.find? descriptor.wire = some .bcd → held.type ≠ .bool
  | _ => True

/-- Bit-fields of one container share no bit. -/
def Apart : Except Fault (Leaf Held) → Prop
  | .ok (packed _ _ bits) => bits.Pairwise fun a b => a.1.descriptor.Apart b.1.descriptor
  | _ => True

instance (registry : Registry) (step : Except Fault (Leaf Held)) :
    Decidable (Fills registry step) :=
  match step with
  | .ok (scalar descriptor held) => inferInstanceAs (Decidable
    (registry.find? descriptor.wire = some .string → Codec.Fills descriptor held.value))
  | .ok (packed ..) | .error _ => isTrue trivial

instance (registry : Registry) (step : Except Fault (Leaf Held)) :
    Decidable (Plain registry step) :=
  match step with
  | .ok (scalar descriptor held) => inferInstanceAs (Decidable
    (registry.find? descriptor.wire = some .bcd → held.type ≠ .bool))
  | .ok (packed ..) | .error _ => isTrue trivial

instance (step : Except Fault (Leaf Held)) : Decidable (Apart step) :=
  match step with
  | .ok (packed _ _ bits) => inferInstanceAs (Decidable
    (bits.Pairwise fun a b => a.1.descriptor.Apart b.1.descriptor))
  | .ok (scalar ..) | .error _ => isTrue trivial

/-- Each leaf is found where it was written: text of declared length fills its span, only the last
leaf may take all that is left, and nothing follows one that does. -/
structure Aligned (registry : Registry) (steps : List (Except Fault (Leaf Held)))
    (tail : Bytes) : Prop where
  fills : ∀ step ∈ steps, Fills registry step
  inner : ∀ step ∈ steps.dropLast, ¬ Open step
  last : (∃ step ∈ steps, Open step) → tail = []

namespace Aligned

variable {registry : Registry} {step : Except Fault (Leaf Held)}
  {steps : List (Except Fault (Leaf Held))} {tail : Bytes}

theorem of_cons (aligned : Aligned registry (step :: steps) tail) :
    Aligned registry steps tail where
  fills other member := aligned.fills other (List.mem_cons_of_mem _ member)
  inner other member := by
    cases steps with
    | nil => cases member
    | cons next steps => exact aligned.inner other (List.mem_cons_of_mem _ member)
  last := fun ⟨other, member, all⟩ => aligned.last ⟨other, List.mem_cons_of_mem _ member, all⟩

theorem eq_nil_of_open (aligned : Aligned registry (step :: steps) tail) (all : Open step) :
    steps = [] ∧ tail = [] := by
  cases steps with
  | nil => exact ⟨rfl, aligned.last ⟨step, List.mem_cons_self .., all⟩⟩
  | cons next steps => exact absurd all (aligned.inner step (List.mem_cons_self ..))

end Aligned

/-- What is asked of the leaves of a record, and of what follows them, for the record to be read
back. Only the last leaf may take all that is left, and nothing follows one that does. -/
structure Reversible (registry : Registry) (steps : List (Except Fault (Leaf Held)))
    (tail : Bytes) : Prop where
  fills : ∀ step ∈ steps, Fills registry step
  plain : ∀ step ∈ steps, Plain registry step
  apart : ∀ step ∈ steps, Apart step
  inner : ∀ step ∈ steps.dropLast, ¬ Open step
  last : (∃ step ∈ steps, Open step) → tail = []

namespace Reversible

variable {registry : Registry} {step : Except Fault (Leaf Held)}
  {steps : List (Except Fault (Leaf Held))} {tail : Bytes}

theorem aligned (reversible : Reversible registry steps tail) : Aligned registry steps tail :=
  ⟨reversible.fills, reversible.inner, reversible.last⟩

theorem of_cons (reversible : Reversible registry (step :: steps) tail) :
    Reversible registry steps tail where
  fills other member := reversible.fills other (List.mem_cons_of_mem _ member)
  plain other member := reversible.plain other (List.mem_cons_of_mem _ member)
  apart other member := reversible.apart other (List.mem_cons_of_mem _ member)
  inner := reversible.aligned.of_cons.inner
  last := reversible.aligned.of_cons.last

end Reversible

end Leaf

section

variable {version : Nat} {step : Except Fault (Leaf Held)}

mutual

theorem Schema.checked_leaves : (schema : Schema) → (record : schema.Record) →
    step ∈ schema.leaves version record → Leaf.Checked step
  | .fields tag name declared, record, member => by
    rw [Schema.leaves] at member
    cases resolved : (Schema.fields tag name declared).resolve version with
    | error fault =>
      rw [resolved] at member
      cases List.mem_singleton.1 member
      exact trivial
    | ok plan =>
      rw [resolved] at member
      obtain ⟨planned, -, member⟩ := List.mem_flatMap.1 member
      exact Field.checked_leavesAt declared record planned.position planned.descriptor member
  | .packed tag name length declared, record, member => by
    rw [Schema.leaves] at member
    cases resolved : (Schema.packed tag name length declared).resolve version with
    | error fault =>
      rw [resolved] at member
      cases List.mem_singleton.1 member
      exact trivial
    | ok plan =>
      rw [resolved] at member
      cases List.mem_singleton.1 member
      intro entry member
      obtain ⟨bit, planned, rfl⟩ := List.mem_map.1 member
      exact ((Schema.of_resolve_packed resolved).2.2 bit planned).2

theorem Field.checked_leaves : (field : Field) → (content : field.Content) →
    (descriptor : Descriptor) → step ∈ field.leaves version content descriptor → Leaf.Checked step
  | .scalar .., _, _, member => by
    cases List.mem_singleton.1 member
    exact trivial
  | .nested _ schema _, content, _, member => schema.checked_leaves content member

theorem Field.checked_leavesAt : (fields : List Field) → (contents : Field.Contents fields) →
    (position : Nat) → (descriptor : Descriptor) →
    step ∈ Field.leavesAt version fields contents position descriptor → Leaf.Checked step
  | [], _, _, _, member => by cases member
  | field :: _, contents, 0, descriptor, member =>
    field.checked_leaves contents.1 descriptor member
  | _ :: rest, contents, position + 1, descriptor, member =>
    Field.checked_leavesAt rest contents.2 position descriptor member

end

end

namespace Leaf

variable {setting : Walk.Setting} {wire rest : Bytes}

theorem fillBits_of_words {record : String} {bits : List (Planned BitDescriptor × Held)}
    {entries : List (BitDescriptor × UInt64)} (found : words record bits = .ok entries) :
    entries.map Prod.fst = bits.map (·.1.descriptor) ∧ ∃ helds,
      fillBits (bits.map fun (bit, held) => (bit, held.type)) (entries.map Prod.snd) = .ok helds ∧
      normalBits bits = .ok helds := by
  have each := Except.mapM_eq_ok.1 found
  clear found
  induction each with
  | nil => exact ⟨rfl, [], rfl, rfl⟩
  | @cons entry given bits entries first others ih =>
    obtain ⟨bit, held⟩ := entry
    obtain ⟨spans, helds, filled, kept⟩ := ih
    obtain ⟨descriptor, value⟩ := of_word first
    obtain ⟨own, taken⟩ : ∃ own, Held.ofValue held.type held.value = .ok own :=
      Held.ofValue_of_kind rfl
    have assigned := taken
    rw [value] at assigned
    refine ⟨congrArg₂ List.cons descriptor.symm spans, (bit, own) :: helds, ?_, ?_⟩
    · rw [List.map_cons, List.map_cons, BitField.fillBits_cons, assigned]
      exact Except.map_eq_ok.2 ⟨helds, filled, rfl⟩
    · unfold normalBits
      rw [List.mapM_cons]
      refine Except.bind_eq_ok.2 ⟨(bit, own), Except.map_eq_ok.2 ⟨own, taken, rfl⟩, ?_⟩
      exact Except.bind_eq_ok.2 ⟨helds, kept, rfl⟩

theorem unpack_of_words {record : String} {length : Nat}
    {bits : List (Planned BitDescriptor × Held)} {entries : List (BitDescriptor × UInt64)}
    {container : Bytes} (checked : Checked (.ok (packed record length bits)))
    (apart : Apart (.ok (packed record length bits)))
    (spans : entries.map Prod.fst = bits.map (·.1.descriptor))
    (packed : Container.pack length entries = .ok container) :
    Container.unpack container (bits.map (·.1.descriptor)) = .ok (entries.map Prod.snd) := by
  have passed : ∀ field ∈ entries.map Prod.fst, Container.checkSpan length field = .ok () := by
    rw [spans]
    intro field member
    obtain ⟨bit, present, rfl⟩ := List.mem_map.1 member
    exact checked bit present
  have disjoint : (entries.map Prod.fst).Pairwise BitDescriptor.Apart := by
    rw [spans]
    exact List.pairwise_map.2 apart
  rw [← spans]
  exact Container.unpack_of_pack passed disjoint packed

theorem read_of_alone {leaf : Leaf Held} (written : leaf.alone setting = .ok wire)
    (checked : Checked (.ok leaf)) (fills : Fills setting.registry (.ok leaf))
    (plain : Plain setting.registry (.ok leaf)) (apart : Apart (.ok leaf))
    (last : Open (.ok leaf) → rest = []) :
    ∃ span filled, Takes ((leaf.map Held.type).read setting) wire rest span ∧
      (leaf.map Held.type).fill setting.registry span = .ok filled ∧
      leaf.normal setting.registry = .ok filled := by
  rw [alone_eq_frame] at written
  obtain ⟨pieces, framed, same⟩ := Except.map_eq_ok.1 written
  cases leaf with
  | scalar descriptor held =>
    obtain ⟨codec, known, framed⟩ := Except.bind_eq_ok.1 framed
    have found := Registry.lookup_eq_ok.1 known
    obtain ⟨span, kept, takes, interpreted, taken⟩ :=
      Codec.read_of_frame last (fun text => fills (text ▸ found))
        (fun digits => plain (digits ▸ found)) (Except.map_eq_ok.2 ⟨pieces, framed, same⟩)
    have filled : ((scalar descriptor held).map Held.type).fill setting.registry span =
        .ok (scalar descriptor kept) := by
      refine (fill_scalar setting.registry known span held.type).trans ?_
      exact Except.bind_eq_ok.2 ⟨_, interpreted, Except.map_eq_ok.2 ⟨kept, taken, rfl⟩⟩
    have spanned :
        Takes (((scalar descriptor held).map Held.type).readSpan setting) wire rest span :=
      takes_ofExcept_bind_iff.2 ⟨codec, known, takes⟩
    refine ⟨span, scalar descriptor kept, takes_read_iff.2 ⟨spanned, _, filled⟩, filled, ?_⟩
    exact Except.bind_eq_ok.2 ⟨codec, known, Except.map_eq_ok.2 ⟨kept, taken, rfl⟩⟩
  | packed record length bits =>
    obtain ⟨entries, found, framed⟩ := Except.bind_eq_ok.1 framed
    obtain ⟨container, packed, framed⟩ := Except.bind_eq_ok.1 framed
    cases framed
    rw [List.flatten_singleton] at same
    subst same
    obtain ⟨spans, helds, filled, kept⟩ := fillBits_of_words found
    have whole : ((Leaf.packed record length bits).map Held.type).fill setting.registry container =
        .ok (Leaf.packed record length helds) := by
      refine Except.bind_eq_ok.2 ⟨entries.map Prod.snd, ?_, Except.map_eq_ok.2 ⟨helds, filled, rfl⟩⟩
      rw [List.map_map]
      exact unpack_of_words checked apart spans packed
    have spanned : Takes (((Leaf.packed record length bits).map Held.type).readSpan setting)
        container rest container :=
      takes_readFixed_iff.2 ⟨rfl, Container.length_of_pack packed⟩
    exact ⟨container, Leaf.packed record length helds, takes_read_iff.2 ⟨spanned, _, whole⟩, whole,
      Except.map_eq_ok.2 ⟨helds, kept, rfl⟩⟩

/-- The leaf is there, and what is received is what is kept of it. -/
def Returns (registry : Registry) (sent received : Except Fault (Leaf Held)) : Prop :=
  ∃ leaf kept, sent = .ok leaf ∧ leaf.normal registry = .ok kept ∧ received = .ok kept

theorem readAll_of_alone {steps : List (Except Fault (Leaf Held))} {written : List Bytes}
    {tail : Bytes} (each : steps.map (· >>= alone setting) = written.map .ok)
    (checked : ∀ step ∈ steps, Checked step) (reversible : Reversible setting.registry steps tail) :
    ∃ spans, Takes (readAll setting (steps.map types)) written.flatten tail spans ∧
      List.Forall₂ (Returns setting.registry) steps
        (fillAll setting.registry (steps.map types) spans) := by
  induction steps generalizing written with
  | nil =>
    obtain rfl := List.map_eq_nil_iff.1 each.symm
    exact ⟨[], takes_pure_iff.2 ⟨rfl, rfl⟩, .nil⟩
  | cons step steps ih =>
    obtain ⟨wire, others, rfl, first, remaining⟩ := List.map_eq_cons_iff.1 each.symm
    obtain ⟨leaf, rfl, alone⟩ := Except.bind_eq_ok.1 first.symm
    have ends : Open (.ok leaf) → others.flatten ++ tail = [] := by
      intro all
      obtain ⟨rfl, rfl⟩ := reversible.aligned.eq_nil_of_open all
      obtain rfl := List.map_eq_nil_iff.1 remaining
      rfl
    have here := List.mem_cons_self (a := Except.ok leaf) (l := steps)
    obtain ⟨span, filled, takes, taken, kept⟩ := read_of_alone alone (checked _ here)
      (reversible.fills _ here) (reversible.plain _ here) (reversible.apart _ here) ends
    obtain ⟨spans, takesAll, returns⟩ := ih remaining.symm
      (fun other member => checked other (List.mem_cons_of_mem _ member)) reversible.of_cons
    refine ⟨span :: spans, ?_, .cons ⟨leaf, filled, rfl, kept, taken⟩ returns⟩
    exact takes_readAll_cons_iff.2
      ⟨_, rfl, span, wire, others.flatten, rfl, takes, spans, takesAll, rfl⟩

end Leaf

namespace Marshaller

variable {marshaller : Marshaller} {schema : Schema} {version : Nat}

/-- A record is decoded from what it was encoded as, and what follows stays unread. Every field
that travels then holds what its codec keeps of what it held. -/
theorem decode_encoded_record {record : schema.Record} {n : Nat} {bytes tail : Bytes}
    {left : Marshaller}
    (ran : encode schema version record (marshaller, ([] : Bytes)) = .ok n (left, bytes))
    (reversible : Leaf.Reversible marshaller.registry (schema.leaves version record) tail)
    (plans : PlanCache) (initial : schema.Record) :
    ∃ decoded after stopped,
      decode schema version initial ({ marshaller with plans := plans }, ofBytes (bytes ++ tail)) =
        .ok decoded (after, stopped) ∧
      stopped.position = bytes.length ∧ stopped.unread = tail ∧
      List.Forall₂ (Leaf.Returns marshaller.registry) (schema.leaves version record)
        (schema.leaves version decoded.record) := by
  obtain ⟨written, each, -, rfl⟩ := pieces_of_encode ran
  have pieces : (schema.leaves version record).map (· >>= Leaf.alone (marshaller.setting version)) =
      written.map .ok := each
  obtain ⟨spans, takes, returns⟩ := Leaf.readAll_of_alone pieces
    (fun step member => schema.checked_leaves record member) reversible
  rw [schema.types_leaves version record] at takes returns
  have fresh : Takes (Leaf.readAll (setting { marshaller with plans := plans } version)
      (schema.layout version)) written.flatten tail spans := takes
  obtain ⟨after, decoded⟩ := decode_of_takes fresh initial []
  have kept : List.Forall₂ (Leaf.Returns marshaller.registry) (schema.leaves version record)
      (Leaf.fillAll marshaller.registry (schema.layout version) spans) := returns
  rw [← leaves_assemble takes marshaller.settings.captureTree initial] at kept
  exact ⟨_, _, _, decoded, rfl, unread_between _ tail, kept⟩

/-- Digits come back in lower case, in front of two bytes that stay unread. -/
theorem decode_encoded_record_sample :
    let record := Sample.record "aF" 3 10 258
    ∃ decoded after stopped,
      decode Sample.schema 1 Sample.initial (default, ofBytes ([1, 2, 0xa3, 0xaf] ++ [9, 9])) =
        .ok decoded (after, stopped) ∧
      stopped.position = 4 ∧ stopped.unread = [9, 9] ∧
      List.Forall₂ (Leaf.Returns .builtin) (Sample.schema.leaves 1 record)
        (Sample.schema.leaves 1 decoded.record) := by
  intro record
  have wrote : (encode Sample.schema 1 record : Transfer _ Nat) (default, ([] : Bytes)) =
      .ok 4 _ := Transfer.eq_ok_of_answer (by decide +kernel)
  have written : encode Sample.schema 1 record (default, ([] : Bytes)) =
      .ok 4 (_, [1, 2, 0xa3, 0xaf]) :=
    wrote.trans (congrArg (EStateM.Result.ok 4) (Prod.ext rfl (by decide +kernel)))
  have closed : ∀ step ∈ Sample.schema.leaves 1 record, ¬ Leaf.Open step := by decide +kernel
  have reversible : Leaf.Reversible .builtin (Sample.schema.leaves 1 record) [9, 9] :=
    ⟨by decide +kernel, by decide +kernel, by decide +kernel, by decide +kernel,
      fun ⟨step, member, all⟩ => absurd all (closed step member)⟩
  exact decode_encoded_record written reversible _ _

end Marshaller

end Wireform
