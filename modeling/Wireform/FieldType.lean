import Wireform.Value
import Wireform.Width

/-!
Types of record fields. A field of type `type` holds a `type.Carrier`; on the wire every carrier is
a `Value`.
-/

namespace Wireform

inductive FieldType where
  | uint8
  | uint16
  | uint32
  | uint64
  | int8
  | int16
  | int32
  | bool
  | bytes
  | string
  | value
  deriving DecidableEq, Repr

namespace FieldType

def name : FieldType → String
  | uint8 => "u8"
  | uint16 => "u16"
  | uint32 => "u32"
  | uint64 => "u64"
  | int8 => "i8"
  | int16 => "i16"
  | int32 => "i32"
  | bool => "bool"
  | bytes => "bytes"
  | string => "string"
  | value => "value"

@[reducible] def Carrier : FieldType → Type
  | uint8 => UInt8
  | uint16 => UInt16
  | uint32 => UInt32
  | uint64 => UInt64
  | int8 => Int8
  | int16 => Int16
  | int32 => Int32
  | bool => Bool
  | bytes => Bytes
  | string => String
  | value => Value

/-- What a field holds in a record that is blank. -/
def blank : (type : FieldType) → type.Carrier
  | uint8 => 0
  | uint16 => 0
  | uint32 => 0
  | uint64 => 0
  | int8 => 0
  | int16 => 0
  | int32 => 0
  | bool => false
  | bytes => []
  | string => ""
  | value => .uint 0

/-- Integers go out unsigned; a negative one by its two's complement in its own width. -/
def toValue : (type : FieldType) → type.Carrier → Value
  | uint8, n => .uint n.toUInt64
  | uint16, n => .uint n.toUInt64
  | uint32, n => .uint n.toUInt64
  | uint64, n => .uint n
  | int8, n => .uint (Width.ofSigned n.toInt64 1)
  | int16, n => .uint (Width.ofSigned n.toInt64 2)
  | int32, n => .uint (Width.ofSigned n.toInt64 4)
  | bool, b => .uint b.toUInt64
  | bytes, data => .bytes data
  | string, content => .text content
  | value, v => v

end FieldType

end Wireform
