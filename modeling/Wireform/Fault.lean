import Wireform.Codec
import Wireform.FieldType
import Wireform.Text.Utf8

/-!
What can go wrong, by cause, and the wording of each. Every fault ends the call that raised it.
-/

namespace Wireform

/-- A field as a fault names it: on its own, or within its record. -/
inductive Place where
  | field (name : String)
  | member (record name : String)
  deriving DecidableEq, Repr

def Place.text : Place → String
  | field name => "field '" ++ name ++ "'"
  | member record name => record ++ "." ++ name

inductive LengthFault where
  | noSeparator (limit : Nat)
  | remaining (length limit : Nat)
  | announced (field : String) (length limit : Nat)
  | uncountable (field : String) (length width limit : Nat)
  | overLimit (field : String) (length limit : Nat)
  | notNatural (field : String) (declared : Nat) (codec : Codec) (width : Nat)
  | digits (field : String) (needed count declared : Nat)
  | container (most length : Nat)
  | packed (record field : String) (declared : Nat) (inner : String) (length : Nat)
  deriving DecidableEq, Repr

def LengthFault.text : LengthFault → String
  | noSeparator limit => s!"no separator within {limit} bytes"
  | remaining length limit =>
    s!"remaining span of {length} bytes exceeds limit of {limit}"
  | announced field length limit => s!"field '{field}' announces {length} bytes (max {limit})"
  | uncountable field length width limit =>
    s!"field '{field}' of {length} bytes does not fit a {width}-byte length prefix (max {limit})"
  | overLimit field length limit =>
    s!"field '{field}' of {length} bytes exceeds max variable length {limit}"
  | notNatural field declared codec width =>
    let name := codec.name
    s!"field '{field}' declares {declared} bytes, {name} is {width} bytes"
  | digits field needed count declared =>
    s!"field '{field}' needs {needed} bytes for {count} digits, declared {declared}"
  | container most length => s!"bit-field container must be 1..={most} bytes, got {length}"
  | packed record field declared inner length =>
    s!"{record}.{field} declares {declared} bytes, packed record {inner} is {length} bytes"

inductive UnsupportedFault where
  | assignment (kind : Value.Kind) (type : FieldType)
  | notFixed (codec : Codec) (field : String) (mode : LengthMode)
  | content (codec : Codec) (kind : Value.Kind) (field : String)
  | bits (record field : String) (kind : Value.Kind)
  | object
  | registered (wire : WireType)
  | unregistered (wire : WireType)
  deriving DecidableEq, Repr

def UnsupportedFault.text : UnsupportedFault → String
  | assignment kind type => "cannot assign " ++ kind.name ++ " value to " ++ type.name ++ " field"
  | notFixed codec field mode =>
    codec.name ++ " codec only supports FIXED length, field '" ++ field ++ "' uses " ++
      mode.describe
  | content codec kind field =>
    codec.name ++ " codec cannot encode " ++ kind.name ++ " value of field '" ++ field ++ "'"
  | bits record field kind =>
    "bit-field " ++ record ++ "." ++ field ++ " holds a " ++ kind.name ++ " value"
  | object => "OBJECT is handled by the composite codec"
  | registered wire => "a codec for " ++ wire.name ++ " is already registered"
  | unregistered wire => "no codec registered for " ++ wire.name

inductive RangeFault where
  | digits (content : String) (type : FieldType)
  | wide (field : String) (length most : Nat)
  | outside (field : String) (offset stop available : Nat)
  | bits (value : UInt64) (field : String) (length : Nat)
  deriving DecidableEq, Repr

def RangeFault.text : RangeFault → String
  | digits content type =>
    "digits " ++ Text.quoted content ++ " overflow a " ++ type.name ++ " field"
  | wide field length most =>
    s!"bit-field '{field}' is {length} bits wide, accumulator holds {most}"
  | outside field offset stop available =>
    s!"bit-field '{field}' spans bits {offset}..{stop}, container has {available}"
  | bits value field length =>
    let n := value.toNat
    s!"value {n} of bit-field '{field}' does not fit in {length} bits"

inductive EncodingFault where
  | digits (content : String) (type : FieldType)
  | digit (c : Char) (content : String)
  | character (c : Char) (charset : Charset)
  | utf8 (fault : Text.Utf8.Fault)
  | nonAscii (byte : UInt8)
  | separator (field : String) (byte : UInt8)
  deriving DecidableEq, Repr

def EncodingFault.text : EncodingFault → String
  | digits content type =>
    "digits " ++ Text.quoted content ++ " are not a decimal " ++ type.name ++ " value"
  | digit c content => "invalid BCD digit " ++ Text.quotedChar c ++ " in " ++ Text.quoted content
  | character c charset =>
    "character " ++ Text.quotedChar c ++ " cannot be encoded as " ++ charset.name
  | utf8 (.invalid length index) =>
    s!"invalid UTF-8: invalid utf-8 sequence of {length} bytes from index {index}"
  | utf8 (.incomplete index) =>
    s!"invalid UTF-8: incomplete utf-8 byte sequence from index {index}"
  | nonAscii byte => "byte 0x" ++ String.ofList (Text.Hex.ofByte byte) ++ " is not ASCII"
  | separator field byte =>
    "field '" ++ field ++ "' contains its separator byte 0x" ++ String.ofList (Text.Hex.ofByte byte)

inductive SchemaFault where
  | noLength (place : Place)
  | countWidth (place : Place) (width : Nat)
  | sharedOrder (record first second : String) (order : Int) (version : Nat)
  | repeated (record name : String)
  | scalarObject (record field : String)
  | nestedScalar (record field : String) (wire : WireType)
  deriving DecidableEq, Repr

def SchemaFault.text : SchemaFault → String
  | noLength place => place.text ++ " is FIXED but declares no length"
  | countWidth place width =>
    place.text ++ " uses a " ++ toString width ++ "-byte length prefix (expected 1, 2 or 4)"
  | sharedOrder record first second order version =>
    s!"{record}: fields '{first}' and '{second}' share order {order} in version {version}"
  | repeated record name => s!"{record}: field name '{name}' is declared more than once"
  | scalarObject record field => s!"{record}.{field} is OBJECT but bound to a scalar accessor"
  | nestedScalar record field wire =>
    record ++ "." ++ field ++ " binds a nested record but is " ++ wire.name

inductive Fault where
  /-- The stream underneath failed with a message of its own. -/
  | io (message : String)
  | insufficient (needed available : Nat)
  | length (cause : LengthFault)
  | unsupported (cause : UnsupportedFault)
  | range (cause : RangeFault)
  | encoding (cause : EncodingFault)
  /-- Two descriptors of one field cover the same version. -/
  | ambiguous (record field : String) (version : Nat)
  | schema (cause : SchemaFault)
  /-- No variable span would be allowed. -/
  | zeroLimit
  deriving DecidableEq, Repr

def Fault.message : Fault → String
  | io message => "IO error: " ++ message
  | insufficient needed available =>
    s!"Insufficient data: needed {needed} bytes, {available} available"
  | length cause => "Length mismatch: " ++ cause.text
  | unsupported cause => "Unsupported type: " ++ cause.text
  | range cause => "Value out of range: " ++ cause.text
  | encoding cause => "Encoding error: " ++ cause.text
  | ambiguous record field version =>
    "Ambiguous version mapping: " ++
      s!"{record}.{field} has more than one descriptor for version {version}"
  | schema cause => "Schema error: " ++ cause.text
  | zeroLimit => "Configuration error: max_variable_length must be greater than zero"

end Wireform
