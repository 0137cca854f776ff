import Wireform.Codec.Frame

/-!
Reading a value back from the span of its field.
-/

namespace Wireform.Codec

def dropTrailingZeros (bytes : Bytes) : Bytes :=
  (bytes.reverse.dropWhile (· == 0)).reverse

def interpret (codec : Codec) (field : Descriptor) (span : Bytes) : Except Fault Value :=
  match codec with
  | byte | word | dword => .ok (.uint (BigEndian.ofBytes span))
  | bytes => .ok (.bytes span)
  | bcd => .ok (.digits (Digits.unpack span))
  | string => (field.charset.decode (dropTrailingZeros span)).map .text

def readWord {σ : Type} [Source σ] (codec : Codec) (width : Nat) (field : Descriptor) :
    Transfer σ Bytes := do
  Transfer.ofExcept (codec.checkNatural width field)
  Span.readFixed width

def readSpan {σ : Type} [Source σ] (codec : Codec) (limit : Nat) (field : Descriptor) :
    Transfer σ Bytes :=
  match codec with
  | byte => byte.readWord 1 field
  | word => word.readWord 2 field
  | dword => dword.readWord 4 field
  | bytes | bcd | string => Span.read limit field

def decode {σ : Type} [Source σ] (codec : Codec) (limit : Nat) (field : Descriptor) :
    Transfer σ Value := do
  let span ← codec.readSpan limit field
  Transfer.ofExcept (codec.interpret field span)

end Wireform.Codec
