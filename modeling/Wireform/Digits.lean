import Wireform.Fault

/-!
Hexadecimal digits, two to a byte, high half first. Decimal digits are the common case; the others
are fillers that have to survive.
-/

namespace Wireform.Digits

/-- Bytes made of digits taken from the right: the low half of the first byte, if its high half is
still to come, and the bytes after it. -/
def pair (nibble : Nat) : Option Nat × Bytes → Option Nat × Bytes
  | (none, bytes) => (some nibble, bytes)
  | (some low, bytes) => (none, UInt8.ofNat (nibble * 16 + low) :: bytes)

/-- Pairs digits up from the right; one that stays alone is the low half of the first byte. -/
def join (nibbles : List Nat) : Bytes :=
  match nibbles.foldr pair (none, []) with
  | (none, bytes) => bytes
  | (some low, bytes) => UInt8.ofNat low :: bytes

def pack (content : String) : Except Fault Bytes := do
  let nibbles ← content.toList.mapM fun c =>
    match Text.Hex.digit? c with
    | some nibble => .ok nibble
    | none => .error (.encoding (.digit c content))
  .ok (join nibbles)

/-- Digits in lower case, without leading zeros; nothing reads as zero. -/
def unpack (bytes : Bytes) : String :=
  match (Text.Hex.ofBytes bytes).dropWhile (· == '0') with
  | [] => "0"
  | digits => String.ofList digits

/-- Bytes that `count` digits take. -/
def bytesFor (count : Nat) : Nat :=
  (count + 1) / 2

end Wireform.Digits
