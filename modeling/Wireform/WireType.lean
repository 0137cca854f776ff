/-!
The wire form a field declares: which codec carries it, how its span is delimited, and the
character set of its text.
-/

namespace Wireform

inductive WireType where
  | byte
  | word
  | dword
  | bytes
  | bcd
  | string
  /-- A record inside the record; it has no codec of its own. -/
  | object
  /-- A wire type that an application registers a codec for. -/
  | custom (tag : Nat)
  deriving DecidableEq, Repr

def WireType.width? : WireType → Option Nat
  | byte => some 1
  | word => some 2
  | dword => some 4
  | _ => none

def WireType.name : WireType → String
  | byte => "BYTE"
  | word => "WORD"
  | dword => "DWORD"
  | bytes => "BYTES"
  | bcd => "BCD"
  | string => "STRING"
  | object => "OBJECT"
  | custom tag => "CUSTOM(" ++ toString tag ++ ")"

inductive LengthMode where
  /-- As many bytes as the field declares. -/
  | fixed
  /-- The length in front, as an integer of `width` bytes. -/
  | counted (width : Nat)
  /-- The data, then one `separator` byte. -/
  | terminated (separator : UInt8)
  /-- All that is left. -/
  | remaining
  deriving DecidableEq, Repr

def LengthMode.describe : LengthMode → String
  | fixed => "Fixed"
  | counted width => "LengthPrefixed \x7b prefix: " ++ toString width ++ " \x7d"
  | terminated separator =>
    "SeparatorTerminated \x7b separator: " ++ toString separator.toNat ++ " \x7d"
  | remaining => "AllRemainingBytes"

/-- Widths that a length in front may have. -/
def LengthMode.countWidths : List Nat :=
  [1, 2, 4]

inductive Charset where
  | utf8
  | ascii
  | latin1
  deriving DecidableEq, Repr

def Charset.name : Charset → String
  | utf8 => "UTF-8"
  | ascii => "ASCII"
  | latin1 => "ISO-8859-1"

end Wireform
