import Wireform.Fault

/-!
Text as bytes, in one of three character sets. UTF-8 holds every text, ASCII and ISO-8859-1 those
whose code points are small enough.
-/

namespace Wireform.Charset

/-- One byte per character; the first character that has none is refused. -/
def encodeNarrow (charset : Charset) (bound : Nat) (text : List Char) : Except Fault Bytes :=
  text.mapM fun c =>
    if c.toNat < bound then .ok (UInt8.ofNat c.toNat) else .error (.encoding (.character c charset))

def decodeNarrow (bytes : Bytes) : String :=
  String.ofList (bytes.map fun byte => Char.ofNat byte.toNat)

def encode (charset : Charset) (text : String) : Except Fault Bytes :=
  match charset with
  | utf8 => .ok (Text.Utf8.encode text.toList)
  | ascii => ascii.encodeNarrow 0x80 text.toList
  | latin1 => latin1.encodeNarrow 0x100 text.toList

def decode (charset : Charset) (bytes : Bytes) : Except Fault String :=
  match charset with
  | utf8 =>
    match Text.Utf8.decode bytes with
    | .ok text => .ok (String.ofList text)
    | .error fault => .error (.encoding (.utf8 fault))
  | ascii =>
    match bytes.find? (0x80 ≤ ·) with
    | some byte => .error (.encoding (.nonAscii byte))
    | none => .ok (decodeNarrow bytes)
  | latin1 => .ok (decodeNarrow bytes)

end Wireform.Charset
