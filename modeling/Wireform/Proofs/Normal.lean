import Wireform.Proofs.Assignment
import Wireform.Proofs.Charset
import Wireform.Proofs.Layout
import Wireform.Proofs.Locality

/-!
What a codec keeps of a value. Integers lose what is wider than their wire type, bytes are cut or
filled to a declared length, digits lose their case and leading zeros, and text the zeros at its
end. What is written for a value is read back as what is kept of it, and the field it came from
takes that.
-/

namespace Wireform

open Cursor

def Digits.normal (content : String) : String :=
  trim (content.toList.map Char.toLower)

namespace Codec

def normalWord (width : Nat) : Value → Value
  | .uint n => .uint (UInt64.ofNat (n.toNat % 256 ^ width))
  | other => other

def normalBytes (field : Descriptor) : Value → Value
  | .bytes data =>
    .bytes (match field.mode, field.length with
      | .fixed, some declared => fillRight declared data
      | _, _ => data)
  | other => other

def normalDigits : Value → Value
  | .digits content | .text content => .digits (Digits.normal content)
  | .uint n => .digits (toString n.toNat)
  | other => other

def normalText : Value → Value
  | .text content | .digits content => .text (Charset.trimEnd content)
  | other => other

/-- What a codec keeps of a value. -/
def normal (codec : Codec) (field : Descriptor) : Value → Value :=
  match codec with
  | byte => normalWord 1
  | word => normalWord 2
  | dword => normalWord 4
  | bytes => normalBytes field
  | bcd => normalDigits
  | string => normalText

/-- Text of declared length fills its span. -/
def Fills (field : Descriptor) (value : Value) : Prop :=
  field.mode = .fixed → ∀ content ∈ value.content?,
    ∀ data ∈ (field.charset.encode content).toOption, field.length = some data.length

instance (field : Descriptor) (value : Value) : Decidable (Fills field value) :=
  inferInstanceAs (Decidable (field.mode = .fixed → ∀ content ∈ value.content?,
    ∀ data ∈ (field.charset.encode content).toOption, field.length = some data.length))

/-- A span is read off the bytes, it stands for what is kept of the value, and the field takes
that. -/
def ComesBack (codec : Codec) (limit : Nat) (field : Descriptor) (held : Held) (wire rest : Bytes) :
    Prop :=
  ∃ span kept, Takes (codec.readSpan limit field) wire rest span ∧
    codec.interpret field span = .ok (codec.normal field held.value) ∧
    Held.ofValue held.type (codec.normal field held.value) = .ok kept

end Codec

theorem Held.ofValue_of_kind {held : Held} {value : Value} (same : value.kind = held.value.kind) :
    ∃ kept, ofValue held.type value = .ok kept := by
  obtain ⟨content, taken⟩ := FieldType.ofValue_of_kind same
  exact ⟨⟨held.type, content⟩, ofValue_eq_ok.2 ⟨content, taken, rfl⟩⟩

theorem Held.ofValue_of_content {held : Held} {value : Value} {given other : String}
    (gives : held.value.content? = some given) (text : value.content? = some other) :
    ∃ kept, ofValue held.type value = .ok kept := by
  obtain ⟨content, taken⟩ := FieldType.ofValue_of_content gives text
  exact ⟨⟨held.type, content⟩, ofValue_eq_ok.2 ⟨content, taken, rfl⟩⟩

theorem Span.takes_of_frame {limit : Nat} {field : Descriptor} {data wire rest : Bytes}
    (framed : (frame limit field data).map List.flatten = .ok wire)
    (declared : field.mode = .fixed → field.length = some data.length)
    (last : field.mode = .remaining → rest = []) : Takes (read limit field) wire rest data := by
  refine takes_read_iff.2 ⟨map_flatten_frame_iff.1 framed, ?_⟩
  unfold Stands
  cases mode : field.mode with
  | fixed => exact declared mode
  | remaining => exact last mode
  | counted _ | terminated _ => trivial

namespace Codec

variable {limit : Nat} {field : Descriptor} {held : Held} {wire rest : Bytes}

theorem ofBytes_toBytes (width : Nat) (n : UInt64) :
    BigEndian.ofBytes (BigEndian.toBytes width n) = UInt64.ofNat (n.toNat % 256 ^ width) := by
  have fits : n.toNat % 256 ^ width < 2 ^ 64 := Nat.lt_of_le_of_lt (Nat.mod_le _ _) n.toNat_lt
  apply UInt64.toNat_inj.1
  rw [BigEndian.toNat_ofBytes_toBytes, UInt64.toNat_ofNat', Nat.mod_eq_of_lt fits]

theorem read_of_frameWord {codec : Codec} {width : Nat}
    (written : (codec.frameWord width field held.value).map List.flatten = .ok wire) :
    ∃ kept, Takes (codec.readWord width field) wire rest wire ∧
      Value.uint (BigEndian.ofBytes wire) = normalWord width held.value ∧
      Held.ofValue held.type (normalWord width held.value) = .ok kept := by
  obtain ⟨pieces, framed, same⟩ := Except.map_eq_ok.1 written
  obtain ⟨_, checked, framed⟩ := Except.bind_eq_ok.1 framed
  cases given : held.value with
  | uint n =>
    rw [given] at framed
    cases framed
    rw [List.flatten_singleton] at same
    subst same
    have taken : ∃ kept, Held.ofValue held.type (normalWord width (.uint n)) = .ok kept := by
      apply Held.ofValue_of_kind
      rw [given]
      rfl
    obtain ⟨kept, taken⟩ := taken
    refine ⟨kept, takes_readWord_iff.2 ⟨checked, rfl, BigEndian.length_toBytes _ _⟩, ?_, taken⟩
    exact congrArg Value.uint (ofBytes_toBytes width n)
  | bytes _ | text _ | digits _ => rw [given] at framed; cases framed

theorem read_of_frameBytes (last : field.mode = .remaining → rest = [])
    (written : (frameBytes limit field held.value).map List.flatten = .ok wire) :
    ComesBack bytes limit field held wire rest := by
  cases given : held.value with
  | bytes data =>
    rw [given] at written
    have taken : ∃ kept, Held.ofValue held.type (normalBytes field held.value) = .ok kept := by
      apply Held.ofValue_of_kind
      rw [given]
      rfl
    obtain ⟨kept, taken⟩ := taken
    by_cases mode : field.mode = .fixed
    · have split : frameBytes limit field (.bytes data) = Span.fixedLength field >>= fun declared =>
          Span.frame limit field (fillRight declared data) := if_pos mode
      rw [split] at written
      obtain ⟨pieces, framed, same⟩ := Except.map_eq_ok.1 written
      obtain ⟨declared, length, framed⟩ := Except.bind_eq_ok.1 framed
      have known := Span.fixedLength_eq_ok.1 length
      have cut : normalBytes field held.value = .bytes (fillRight declared data) := by
        rw [given]
        simp only [normalBytes, mode, known]
      refine ⟨fillRight declared data, kept, ?_, congrArg Except.ok cut.symm, taken⟩
      have whole := Except.map_eq_ok.2 ⟨pieces, framed, same⟩
      exact Span.takes_of_frame whole (fun _ => by rw [known, length_fillRight]) last
    · have split : frameBytes limit field (.bytes data) = Span.frame limit field data :=
        if_neg mode
      rw [split] at written
      have whole : normalBytes field held.value = .bytes data := by
        rw [given]
        cases other : field.mode with
        | fixed => exact absurd other mode
        | counted _ | terminated _ | remaining => simp only [normalBytes, other]
      refine ⟨data, kept, ?_, congrArg Except.ok whole.symm, taken⟩
      exact Span.takes_of_frame written (fun fixed => absurd fixed mode) last
  | uint _ | text _ | digits _ => rw [given] at written; cases written

theorem normalDigits_of_digitsOf {value : Value} {digits : String}
    (found : digitsOf field value = .ok digits) :
    normalDigits value = .digits (Digits.normal digits) := by
  cases value with
  | digits content | text content => cases found; rfl
  | uint n =>
    cases found
    exact congrArg Value.digits (Digits.trim_toString n.toNat).symm
  | bytes _ => cases found

theorem ofValue_normalDigits {digits : String} (found : digitsOf field held.value = .ok digits)
    (plain : held.type ≠ .bool) :
    ∃ kept, Held.ofValue held.type (normalDigits held.value) = .ok kept := by
  cases given : held.value with
  | digits content | text content =>
    have text : held.value.content? = some content := by
      rw [given]
      rfl
    exact Held.ofValue_of_content text rfl
  | uint n =>
    obtain ⟨content, taken⟩ := FieldType.ofValue_of_numeral given plain
    exact ⟨⟨held.type, content⟩, Held.ofValue_eq_ok.2 ⟨content, taken, rfl⟩⟩
  | bytes _ => rw [given] at found; cases found

theorem read_of_frameDigits (last : field.mode = .remaining → rest = [])
    (plain : held.type ≠ .bool)
    (written : (frameDigits limit field held.value).map List.flatten = .ok wire) :
    ComesBack bcd limit field held wire rest := by
  obtain ⟨pieces, framed, same⟩ := Except.map_eq_ok.1 written
  obtain ⟨digits, found, framed⟩ := Except.bind_eq_ok.1 framed
  obtain ⟨packed, ran, framed⟩ := Except.bind_eq_ok.1 framed
  obtain ⟨kept, taken⟩ := ofValue_normalDigits found plain
  have unpacked : Digits.unpack packed = Digits.normal digits := Digits.unpack_of_pack ran
  have normal := normalDigits_of_digitsOf found
  by_cases mode : field.mode = .fixed
  · rw [if_pos mode] at framed
    obtain ⟨declared, length, framed⟩ := Except.bind_eq_ok.1 framed
    split at framed
    next => cases framed
    next room =>
      have filled : (fillLeft declared packed).length = declared := length_fillLeft (by omega)
      have whole := Except.map_eq_ok.2 ⟨pieces, framed, same⟩
      refine ⟨fillLeft declared packed, kept, ?_, ?_, taken⟩
      · apply Span.takes_of_frame whole _ last
        intro _
        rw [Span.fixedLength_eq_ok.1 length, filled]
      · change Except.ok (Value.digits (Digits.unpack (fillLeft declared packed))) =
          .ok (normalDigits held.value)
        rw [Digits.unpack_fillLeft, unpacked, normal]
  · rw [if_neg mode] at framed
    have whole := Except.map_eq_ok.2 ⟨pieces, framed, same⟩
    refine ⟨packed, kept, Span.takes_of_frame whole (fun fixed => absurd fixed mode) last, ?_,
      taken⟩
    change Except.ok (Value.digits (Digits.unpack packed)) = .ok (normalDigits held.value)
    rw [unpacked, normal]

theorem read_of_frameText (last : field.mode = .remaining → rest = [])
    (fills : Fills field held.value)
    (written : (frameText limit field held.value).map List.flatten = .ok wire) :
    ComesBack string limit field held wire rest := by
  obtain ⟨pieces, framed, same⟩ := Except.map_eq_ok.1 written
  unfold frameText at framed
  split at framed
  next content given =>
    obtain ⟨data, encoded, framed⟩ := Except.bind_eq_ok.1 framed
    have normal : normalText held.value = .text (Charset.trimEnd content) := by
      cases kind : held.value with
      | text _ | digits _ => rw [kind] at given; cases given; rfl
      | uint _ | bytes _ => rw [kind] at given; cases given
    have taken : ∃ kept, Held.ofValue held.type (normalText held.value) = .ok kept := by
      rw [normal]
      exact Held.ofValue_of_content given rfl
    obtain ⟨kept, taken⟩ := taken
    have whole := Except.map_eq_ok.2 ⟨pieces, framed, same⟩
    refine ⟨data, kept, ?_, ?_, taken⟩
    · apply Span.takes_of_frame whole _ last
      intro fixed
      exact fills fixed content given data (congrArg Except.toOption encoded)
    · change (field.charset.decode (dropTrailingZeros data)).map Value.text =
        .ok (normalText held.value)
      rw [Charset.decode_of_encode (Charset.encode_trimEnd encoded), normal]
      rfl
  next => cases framed

/-- What a codec writes for a value is read back as what it keeps of it. -/
theorem read_of_frame {codec : Codec} (last : field.mode = .remaining → rest = [])
    (fills : codec = string → Fills field held.value) (plain : codec = bcd → held.type ≠ .bool)
    (written : (codec.frame limit field held.value).map List.flatten = .ok wire) :
    ComesBack codec limit field held wire rest := by
  cases codec with
  | byte =>
    obtain ⟨kept, takes, same, taken⟩ := read_of_frameWord written
    exact ⟨wire, kept, takes, congrArg Except.ok same, taken⟩
  | word =>
    obtain ⟨kept, takes, same, taken⟩ := read_of_frameWord written
    exact ⟨wire, kept, takes, congrArg Except.ok same, taken⟩
  | dword =>
    obtain ⟨kept, takes, same, taken⟩ := read_of_frameWord written
    exact ⟨wire, kept, takes, congrArg Except.ok same, taken⟩
  | bytes => exact read_of_frameBytes last written
  | bcd => exact read_of_frameDigits last (plain rfl) written
  | string => exact read_of_frameText last (fills rfl) written

end Codec

end Wireform
