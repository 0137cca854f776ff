import Wireform.WireType

/-!
The scalar codecs. Three carry unsigned integers of one width each; the others carry bytes, digits
packed two to a byte, and text.
-/

namespace Wireform

inductive Codec where
  | byte
  | word
  | dword
  | bytes
  | bcd
  | string
  deriving DecidableEq, Repr

namespace Codec

def name : Codec → String
  | byte => "BYTE"
  | word => "WORD"
  | dword => "DWORD"
  | bytes => "BYTES"
  | bcd => "BCD"
  | string => "STRING"

end Codec

end Wireform
