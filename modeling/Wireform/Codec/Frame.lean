import Wireform.Charset
import Wireform.Digits
import Wireform.Span

/-!
What a scalar codec writes for a value. All that can be wrong with the value or its field is found
before the first byte is written.
-/

namespace Wireform.Codec

def checkNatural (codec : Codec) (width : Nat) (field : Descriptor) : Except Fault Unit :=
  if field.mode = .fixed then
    match field.length with
    | some declared =>
      if declared = width then .ok ()
      else .error (.length (.notNatural field.name declared codec width))
    | none => .ok ()
  else .error (.unsupported (.notFixed codec field.name field.mode))

/-- An integer that is too wide loses its high bytes. -/
def frameWord (codec : Codec) (width : Nat) (field : Descriptor) (value : Value) :
    Except Fault (List Bytes) := do
  codec.checkNatural width field
  match value with
  | .uint n => .ok [BigEndian.toBytes width n]
  | other => .error (.unsupported (.content codec other.kind field.name))

/-- Data cut, or filled with zeros behind, to `length` bytes. -/
def fillRight (length : Nat) (data : Bytes) : Bytes :=
  data.take length ++ List.replicate (length - data.length) 0

/-- Data filled with zeros in front to `length` bytes. -/
def fillLeft (length : Nat) (data : Bytes) : Bytes :=
  List.replicate (length - data.length) 0 ++ data

@[simp] theorem length_fillRight (length : Nat) (data : Bytes) :
    (fillRight length data).length = length := by
  simp only [fillRight, List.length_append, List.length_take, List.length_replicate]
  omega

theorem length_fillLeft {length : Nat} {data : Bytes} (fits : data.length ≤ length) :
    (fillLeft length data).length = length := by
  simp only [fillLeft, List.length_append, List.length_replicate]
  omega

def frameBytes (limit : Nat) (field : Descriptor) (value : Value) : Except Fault (List Bytes) :=
  match value with
  | .bytes data =>
    if field.mode = .fixed then do
      Span.frame limit field (fillRight (← Span.fixedLength field) data)
    else Span.frame limit field data
  | other => .error (.unsupported (.content bytes other.kind field.name))

/-- The digits that stand for a value. -/
def digitsOf (field : Descriptor) : Value → Except Fault String
  | .digits content | .text content => .ok content
  | .uint n => .ok (toString n.toNat)
  | .bytes _ => .error (.unsupported (.content bcd .bytes field.name))

def frameDigits (limit : Nat) (field : Descriptor) (value : Value) :
    Except Fault (List Bytes) := do
  let digits ← digitsOf field value
  let packed ← Digits.pack digits
  if field.mode = .fixed then
    let declared ← Span.fixedLength field
    if declared < packed.length then
      .error (.length (.digits field.name packed.length digits.length declared))
    else Span.frame limit field (fillLeft declared packed)
  else Span.frame limit field packed

def frameText (limit : Nat) (field : Descriptor) (value : Value) : Except Fault (List Bytes) :=
  match value.content? with
  | some content => do Span.frame limit field (← field.charset.encode content)
  | none => .error (.unsupported (.content string value.kind field.name))

/-- The pieces to write for a value, in order. -/
def frame (codec : Codec) (limit : Nat) (field : Descriptor) (value : Value) :
    Except Fault (List Bytes) :=
  match codec with
  | byte => byte.frameWord 1 field value
  | word => word.frameWord 2 field value
  | dword => dword.frameWord 4 field value
  | bytes => frameBytes limit field value
  | bcd => frameDigits limit field value
  | string => frameText limit field value

/-- Writes a value and says how many bytes it took. -/
def encode {κ : Type} [Sink κ] (codec : Codec) (limit : Nat) (field : Descriptor)
    (value : Value) : Transfer κ Nat := do
  Span.write (← Transfer.ofExcept (codec.frame limit field value))

end Wireform.Codec
