import Wireform.Fault
import Wireform.Numeral

/-!
Assigning a value to a field. An integer that is wider than its field keeps its low bits, and a
signed field reads them as two's complement; decimal digits must fit instead.
-/

namespace Wireform.FieldType

/-- The number that `digits` spell, for an integer field of `width` bytes. -/
def wordOfDigits (type : FieldType) (width : Nat) (digits : String) : Except Fault UInt64 :=
  match Numeral.read digits.toList with
  | .error .malformed => .error (.encoding (.digits digits type))
  | .error .overflow => .error (.range (.digits digits type))
  | .ok word =>
    if Width.fits word width then .ok word else .error (.range (.digits digits type))

/-- The low `width` bytes of an integer value, for an integer field of that width. -/
def wordOf (type : FieldType) (width : Nat) : Value → Except Fault UInt64
  | .uint word => .ok (Width.truncate word width)
  | .digits content => type.wordOfDigits width content
  | other => .error (.unsupported (.assignment other.kind type))

def signedOf (type : FieldType) (width : Nat) (v : Value) : Except Fault Int64 :=
  (type.wordOf width v).map (Width.toSigned · width)

def ofValue : (type : FieldType) → Value → Except Fault type.Carrier
  | uint8, v => (uint8.wordOf 1 v).map UInt64.toUInt8
  | uint16, v => (uint16.wordOf 2 v).map UInt64.toUInt16
  | uint32, v => (uint32.wordOf 4 v).map UInt64.toUInt32
  | uint64, v => uint64.wordOf 8 v
  | int8, v => (int8.signedOf 1 v).map Int64.toInt8
  | int16, v => (int16.signedOf 2 v).map Int64.toInt16
  | int32, v => (int32.signedOf 4 v).map Int64.toInt32
  | bool, .uint word => .ok (word != 0)
  | bool, other => .error (.unsupported (.assignment other.kind .bool))
  | bytes, .bytes data => .ok data
  | bytes, other => .error (.unsupported (.assignment other.kind .bytes))
  | string, .text content | string, .digits content => .ok content
  | string, other => .error (.unsupported (.assignment other.kind .string))
  | value, v => .ok v

end Wireform.FieldType
