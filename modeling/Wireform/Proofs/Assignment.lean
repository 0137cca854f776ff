import Wireform.Assignment
import Wireform.Codec.Frame
import Wireform.Proofs.Numeral
import Wireform.Proofs.Transfer
import Wireform.Proofs.Width

/-!
Values of field types. A field takes every value of the kind that it gives, and an integer field
gives the very word that it took, if that has no more bits than the field.
-/

namespace Wireform.FieldType

def width? : FieldType → Option Nat
  | uint8 | int8 => some 1
  | uint16 | int16 => some 2
  | uint32 | int32 => some 4
  | uint64 => some 8
  | bool | bytes | string | value => none

variable {type : FieldType} {width : Nat} {v : Value} {word : UInt64}

theorem bits_eq (integer : type.width? = some width) :
    Width.bits width = 8 * width ∧ width ≤ 8 := by
  cases type <;> cases integer <;> decide

theorem bits_le (integer : type.width? = some width) : Width.bits width ≤ 64 := by
  have bits := bits_eq integer
  omega

theorem two_pow_bits (integer : type.width? = some width) : 2 ^ Width.bits width = 256 ^ width := by
  rw [(bits_eq integer).1, Nat.pow_mul]

theorem wordOfDigits_eq_ok {digits : String} :
    type.wordOfDigits width digits = .ok word ↔
      Numeral.read digits.toList = .ok word ∧ Width.fits word width = true := by
  unfold wordOfDigits
  apply Iff.intro
  · intro taken
    split at taken
    next => cases taken
    next => cases taken
    next found =>
      split at taken
      next fits => cases taken; exact ⟨found, fits⟩
      next => cases taken
  · intro ⟨found, fits⟩
    rw [found]
    exact if_pos fits

theorem lt_of_wordOf (taken : type.wordOf width v = .ok word) :
    word.toNat < 2 ^ Width.bits width := by
  cases v with
  | uint word =>
    cases taken
    exact Width.truncate_lt word width
  | digits content =>
    exact Width.fits_iff.1 (wordOfDigits_eq_ok.1 taken).2
  | bytes _ | text _ => cases taken

theorem toValue_of_wordOf (integer : type.width? = some width)
    (taken : type.wordOf width v = .ok word) :
    ∃ content, type.ofValue v = .ok content ∧ type.toValue content = .uint word := by
  have small := lt_of_wordOf taken
  cases type with
  | uint8 =>
    cases integer
    change word.toNat < 2 ^ 8 at small
    refine ⟨word.toUInt8, by rw [ofValue, taken]; rfl, congrArg Value.uint ?_⟩
    apply UInt64.toNat_inj.1
    rw [UInt8.toNat_toUInt64, UInt64.toNat_toUInt8, Nat.mod_eq_of_lt small]
  | uint16 =>
    cases integer
    change word.toNat < 2 ^ 16 at small
    refine ⟨word.toUInt16, by rw [ofValue, taken]; rfl, congrArg Value.uint ?_⟩
    apply UInt64.toNat_inj.1
    rw [UInt16.toNat_toUInt64, UInt64.toNat_toUInt16, Nat.mod_eq_of_lt small]
  | uint32 =>
    cases integer
    change word.toNat < 2 ^ 32 at small
    refine ⟨word.toUInt32, by rw [ofValue, taken]; rfl, congrArg Value.uint ?_⟩
    apply UInt64.toNat_inj.1
    rw [UInt32.toNat_toUInt64, UInt64.toNat_toUInt32, Nat.mod_eq_of_lt small]
  | uint64 =>
    cases integer
    exact ⟨word, taken, rfl⟩
  | int8 =>
    cases integer
    refine ⟨(Width.toSigned word 1).toInt8, by rw [ofValue, signedOf, taken]; rfl,
      congrArg Value.uint ?_⟩
    exact Width.ofSigned_signExtend rfl small rfl
  | int16 =>
    cases integer
    refine ⟨(Width.toSigned word 2).toInt16, by rw [ofValue, signedOf, taken]; rfl,
      congrArg Value.uint ?_⟩
    exact Width.ofSigned_signExtend rfl small rfl
  | int32 =>
    cases integer
    refine ⟨(Width.toSigned word 4).toInt32, by rw [ofValue, signedOf, taken]; rfl,
      congrArg Value.uint ?_⟩
    exact Width.ofSigned_signExtend rfl small rfl
  | bool | bytes | string | value => cases integer

theorem ofValue_of_wordOf_error (integer : type.width? = some width) {fault : Fault}
    (refused : type.wordOf width v = .error fault) : type.ofValue v = .error fault := by
  cases type with
  | uint8 | uint16 | uint32 | uint64 | int8 | int16 | int32 =>
    cases integer
    simp only [ofValue, signedOf, refused, Except.map]
  | bool | bytes | string | value => cases integer

theorem lt_of_toValue (integer : type.width? = some width) {content : type.Carrier}
    (given : type.toValue content = .uint word) : word.toNat < 2 ^ Width.bits width := by
  cases type with
  | uint8 => cases integer; cases given; exact content.toNat_lt
  | uint16 => cases integer; cases given; exact content.toNat_lt
  | uint32 => cases integer; cases given; exact content.toNat_lt
  | uint64 => cases integer; cases given; exact word.toNat_lt
  | int8 | int16 | int32 => cases integer; cases given; exact Width.truncate_lt _ _
  | bool | bytes | string | value => cases integer

theorem ofValue_of_kind {content : type.Carrier} (same : v.kind = (type.toValue content).kind) :
    ∃ taken, type.ofValue v = .ok taken := by
  cases type with
  | value => exact ⟨v, rfl⟩
  | uint8 | uint16 | uint32 | uint64 | int8 | int16 | int32 | bool =>
    cases v with
    | uint word => exact ⟨_, rfl⟩
    | bytes _ | text _ | digits _ => cases same
  | bytes =>
    cases v with
    | bytes data => exact ⟨data, rfl⟩
    | uint _ | text _ | digits _ => cases same
  | string =>
    cases v with
    | text content => exact ⟨content, rfl⟩
    | uint _ | bytes _ | digits _ => cases same

theorem ofValue_of_content {content : type.Carrier} {given other : String}
    (gives : (type.toValue content).content? = some given) (text : v.content? = some other) :
    ∃ taken, type.ofValue v = .ok taken := by
  cases type with
  | value => exact ⟨v, rfl⟩
  | string =>
    cases v with
    | text content | digits content => exact ⟨content, rfl⟩
    | uint _ | bytes _ => cases text
  | uint8 | uint16 | uint32 | uint64 | int8 | int16 | int32 | bool | bytes => cases gives

/-- A field that gives a number takes its numeral, unless it holds a truth value. -/
theorem ofValue_of_numeral {content : type.Carrier} (given : type.toValue content = .uint word)
    (different : type ≠ .bool) :
    ∃ taken, type.ofValue (.digits (toString word.toNat)) = .ok taken := by
  cases integer : type.width? with
  | some width =>
    have small := lt_of_toValue integer given
    have taken : type.wordOf width (.digits (toString word.toNat)) = .ok word := by
      refine wordOfDigits_eq_ok.2 ⟨?_, Width.fits_iff.2 small⟩
      rw [Nat.toString_eq_repr, Nat.toList_repr, Numeral.read_toDigits]
    obtain ⟨content, assigned, -⟩ := toValue_of_wordOf integer taken
    exact ⟨content, assigned⟩
  | none =>
    cases type with
    | value => exact ⟨.digits (toString word.toNat), rfl⟩
    | bool => exact absurd rfl different
    | bytes | string => cases given
    | uint8 | uint16 | uint32 | uint64 | int8 | int16 | int32 => cases integer

/-- Words of that many bits come through a field of this type. -/
def Holds (type : FieldType) (bits : Nat) : Prop :=
  type = .value ∨ ∃ width, type.width? = some width ∧ bits ≤ 8 * width

instance (type : FieldType) (bits : Nat) : Decidable (type.Holds bits) :=
  inferInstanceAs (Decidable (type = .value ∨ ∃ width ∈ type.width?, bits ≤ 8 * width))

theorem toValue_of_uint {bits : Nat} (holds : type.Holds bits) (small : word.toNat < 2 ^ bits)
    {content : type.Carrier} (assigned : type.ofValue (.uint word) = .ok content) :
    type.toValue content = .uint word := by
  rcases holds with same | ⟨width, integer, room⟩
  · subst same
    cases assigned
    rfl
  · have same := bits_eq integer
    have fits : word.toNat < 2 ^ Width.bits width :=
      Nat.lt_of_lt_of_le small (Nat.pow_le_pow_right (by decide) (by omega))
    have taken : type.wordOf width (.uint word) = .ok word :=
      congrArg Except.ok (Width.truncate_of_lt fits)
    obtain ⟨held, put, given⟩ := toValue_of_wordOf integer taken
    cases assigned.symm.trans put
    exact given

theorem toValue_of_bytes {data : Bytes} (holds : type = .bytes ∨ type = .value)
    {content : type.Carrier} (assigned : type.ofValue (.bytes data) = .ok content) :
    type.toValue content = .bytes data := by
  rcases holds with same | same <;> subst same <;> cases assigned <;> rfl

theorem toValue_of_text {text : String} (holds : type = .string ∨ type = .value)
    {content : type.Carrier} (assigned : type.ofValue (.text text) = .ok content) :
    type.toValue content = .text text := by
  rcases holds with same | same <;> subst same <;> cases assigned <;> rfl

theorem digitsOf_toValue (field : Descriptor)
    (holds : type.width? ≠ none ∨ type = .string ∨ type = .value) {bytes : Bytes}
    {content : type.Carrier}
    (assigned : type.ofValue (.digits (Digits.unpack bytes)) = .ok content) :
    Codec.digitsOf field (type.toValue content) = .ok (Digits.unpack bytes) := by
  rcases holds with integer | same | same
  · obtain ⟨width, integer⟩ := Option.ne_none_iff_exists'.1 integer
    have read : ∃ word, type.wordOf width (.digits (Digits.unpack bytes)) = .ok word := by
      cases taken : type.wordOf width (.digits (Digits.unpack bytes)) with
      | ok word => exact ⟨word, rfl⟩
      | error fault => cases assigned.symm.trans (ofValue_of_wordOf_error integer taken)
    obtain ⟨word, taken⟩ := read
    obtain ⟨held, put, given⟩ := toValue_of_wordOf integer taken
    cases assigned.symm.trans put
    rw [given]
    exact congrArg Except.ok (Digits.toString_of_read (wordOfDigits_eq_ok.1 taken).1)
  · subst same
    cases assigned
    rfl
  · subst same
    cases assigned
    rfl

end Wireform.FieldType
