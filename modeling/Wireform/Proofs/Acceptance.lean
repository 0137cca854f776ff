import Wireform.Proofs.Gathering
import Wireform.Proofs.Normal

/-!
Values there and back. What a codec writes for a field is read back by it, and the field takes what
was read, but for a truth value that travels as digits: the digits are read, and no truth value is
made of them.
-/

namespace Wireform

open Cursor

section

variable {σ τ : Type} [Source σ] [Source τ]

theorem Codec.alike_decode (codec : Codec) (limit : Nat) {field : Descriptor} {openEnded : Prop}
    (opens : field.mode = .remaining → openEnded) :
    Alike openEnded (codec.decode limit field : Transfer σ Value)
      (codec.decode limit field : Transfer τ Value) :=
  .bind (codec.alike_readSpan limit opens) fun _ => .ofExcept _

end

namespace Codec

variable {codec : Codec} {limit : Nat} {field : Descriptor} {value : Value} {wire : Bytes}

theorem frame_of_encode {n : Nat}
    (ran : codec.encode limit field value ([] : Bytes) = .ok n wire) :
    (codec.frame limit field value).map List.flatten = .ok wire ∧ n = wire.length := by
  obtain ⟨pieces, mid, framed, wrote⟩ := Transfer.bind_eq_ok.1 ran
  change (Transfer.ofExcept (codec.frame limit field value) : Transfer Bytes _) [] = _ at framed
  obtain ⟨found, rfl⟩ := Transfer.ofExcept_eq_ok.1 framed
  cases (Leaf.write_eq pieces ([] : Bytes)).symm.trans wrote
  exact ⟨Except.map_eq_ok.2 ⟨pieces, found, rfl⟩, rfl⟩

theorem fills_of_length
    (written : (frameText limit field value).map List.flatten = .ok wire)
    (whole : field.mode = .fixed → field.length = some wire.length) : Fills field value := by
  intro mode content given data encoded
  obtain ⟨pieces, framed, same⟩ := Except.map_eq_ok.1 written
  rw [frameText, given] at framed
  obtain ⟨other, spelled, framed⟩ := Except.bind_eq_ok.1 framed
  rw [spelled] at encoded
  cases encoded
  have spans := Span.map_flatten_frame_iff.1 (Except.map_eq_ok.2 ⟨pieces, framed, same⟩)
  unfold Span.Framed at spans
  rw [mode] at spans
  rw [← spans]
  exact whole mode

/-- What is written for a value is the span of what its codec keeps of it, whether or not the field
takes that again. -/
theorem span_of_frame {rest : Bytes}
    (written : (codec.frame limit field value).map List.flatten = .ok wire)
    (fills : codec = string → Fills field value) (last : field.mode = .remaining → rest = []) :
    ∃ span, Takes (codec.readSpan limit field) wire rest span ∧
      codec.interpret field span = .ok (codec.normal field value) := by
  -- a field that may hold any value makes no difference between codecs
  have comes : ComesBack codec limit field ⟨.value, value⟩ wire rest :=
    read_of_frame last fills (fun _ => nofun) written
  obtain ⟨span, -, takes, interpreted, -⟩ := comes
  exact ⟨span, takes, interpreted⟩

theorem takes_of_frame {rest : Bytes}
    (written : (codec.frame limit field value).map List.flatten = .ok wire)
    (fills : codec = string → Fills field value) (last : field.mode = .remaining → rest = []) :
    Takes (codec.decode limit field) wire rest (codec.normal field value) := by
  obtain ⟨span, takes, interpreted⟩ := span_of_frame written fills last
  refine (takes_bind_iff (codec.forward_readSpan limit field) fun _ => forward_ofExcept _).2
    ⟨span, wire, [], (List.append_nil wire).symm, takes, ?_⟩
  rw [interpreted]
  exact takes_pure _ rest

/-- A truth value is not made of digits, and everything else is made of what is kept of it. -/
theorem ofValue_normal_iff {held : Held}
    (written : (codec.frame limit field held.value).map List.flatten = .ok wire)
    (fills : codec = string → Fills field held.value) :
    (∃ kept, held.type.ofValue (codec.normal field held.value) = .ok kept) ↔
      ¬ (codec = bcd ∧ held.type = .bool) := by
  apply Iff.intro
  · rintro ⟨kept, taken⟩ ⟨rfl, truth⟩
    obtain ⟨type, content⟩ := held
    obtain rfl : type = .bool := truth
    cases taken
  · intro other
    have comes : ComesBack codec limit field held wire [] :=
      read_of_frame (fun _ => rfl) fills (fun digits truth => other ⟨digits, truth⟩) written
    obtain ⟨-, kept, -, -, taken⟩ := comes
    obtain ⟨content, taken, -⟩ := Held.ofValue_eq_ok.1 taken
    exact ⟨content, taken⟩

/-- What a codec writes for a field is decoded by it, from any source that holds just that, and the
field takes the value. The one exception is a truth value written as digits: it is decoded, and
never taken. -/
theorem decode_encoded_value (codec : Codec) (limit : Nat) (field : Descriptor) (type : FieldType)
    (content : type.Carrier) {n : Nat} {wire : Bytes}
    (ran : codec.encode limit field (type.toValue content) ([] : Bytes) = .ok n wire)
    (whole : codec = .string → field.mode = .fixed → field.length = some wire.length) :
    ∃ value,
      (∃ stopped, codec.decode limit field (ofBytes wire) = .ok value stopped ∧
        stopped.unread = []) ∧
      (∀ {σ : Type} [Source σ] [Supply σ] {source : σ} {taken : Nat},
        Supply.Holds source taken wire → ∃ after,
          codec.decode limit field source = .ok value after ∧
            Supply.Holds after (taken + wire.length) []) ∧
      ((∃ kept, type.ofValue value = .ok kept) ↔ ¬ (codec = .bcd ∧ type = .bool)) := by
  obtain ⟨written, -⟩ := frame_of_encode ran
  have fills : codec = string → Fills field (type.toValue content) := by
    rintro rfl
    exact fills_of_length written (whole rfl)
  have takes (rest : Bytes) (last : field.mode = .remaining → rest = []) :=
    takes_of_frame written fills last
  refine ⟨codec.normal field (type.toValue content), ?_, fun {σ} _ _ source taken holds => ?_,
    @ofValue_normal_iff codec limit field wire ⟨type, content⟩ written fills⟩
  · have ran := takes [] (fun _ => rfl) []
    rw [List.append_nil] at ran
    exact ⟨_, ran, unread_between _ []⟩
  · rw [← List.append_nil wire] at holds
    have alike : Alike True (codec.decode limit field : Transfer Cursor Value)
        (codec.decode limit field : Transfer σ Value) := codec.alike_decode limit fun _ => trivial
    exact alike.run_of_takes (takes [] fun _ => rfl) (fun _ => rfl) holds

/-- A byte carried as digits comes back; a truth value does not. -/
theorem decode_encoded_value_digits :
    (∃ value stopped,
      decode .bcd 8 (.sized .bcd 1) (ofBytes [0x42]) = .ok value stopped ∧
      ∃ kept : UInt8, FieldType.ofValue .uint8 value = .ok kept) ∧
    ∃ value stopped,
      decode .bcd 8 (.sized .bcd 1) (ofBytes [0x01]) = .ok value stopped ∧
      ¬ ∃ kept : Bool, FieldType.ofValue .bool value = .ok kept := by
  have number : (encode .bcd 8 (.sized .bcd 1) (FieldType.toValue .uint8 42)) ([] : Bytes) =
      .ok 1 [0x42] := rfl
  have truth : (encode .bcd 8 (.sized .bcd 1) (FieldType.toValue .bool true)) ([] : Bytes) =
      .ok 1 [0x01] := rfl
  obtain ⟨value, ⟨stopped, read, -⟩, -, taken⟩ :=
    decode_encoded_value .bcd 8 (.sized .bcd 1) .uint8 42 number nofun
  obtain ⟨other, ⟨stopped', read', -⟩, -, refused⟩ :=
    decode_encoded_value .bcd 8 (.sized .bcd 1) .bool true truth nofun
  refine ⟨⟨value, stopped, read, taken.2 (by decide)⟩, other, stopped', read', fun kept => ?_⟩
  exact refused.1 kept ⟨rfl, rfl⟩

end Codec

end Wireform
