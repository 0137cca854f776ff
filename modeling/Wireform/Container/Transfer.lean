import Wireform.Container
import Wireform.Span

/-!
Containers of bit-fields on a stream.
-/

namespace Wireform.Container

def decode {σ : Type} [Source σ] (length : Nat) (fields : List BitDescriptor) :
    Transfer σ (List UInt64) := do
  let container ← Span.readFixed length
  Transfer.ofExcept (unpack container fields)

def encode {κ : Type} [Sink κ] (length : Nat) (fields : List (BitDescriptor × UInt64)) :
    Transfer κ Nat := do
  Span.write [← Transfer.ofExcept (pack length fields)]

end Wireform.Container
