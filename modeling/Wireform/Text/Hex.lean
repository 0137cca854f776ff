import Wireform.Width

/-!
Hexadecimal text. Digits are lower case unless a name says otherwise.
-/

namespace Wireform.Text.Hex

/-- The two digits of a byte, high half first. -/
def ofByte (byte : UInt8) : List Char :=
  [(byte.toNat / 16).digitChar, (byte.toNat % 16).digitChar]

def ofBytes (bytes : Bytes) : List Char :=
  bytes.flatMap ofByte

def ofNat (n : Nat) : List Char :=
  Nat.toDigits 16 n

def upperOfNat (n : Nat) : List Char :=
  (ofNat n).map Char.toUpper

/-- Value of a digit of either case; only the ASCII digits and letters count. -/
def digit? (c : Char) : Option Nat :=
  if '0' ≤ c ∧ c ≤ '9' then some (c.toNat - '0'.toNat)
  else if 'a' ≤ c ∧ c ≤ 'f' then some (c.toNat - 'a'.toNat + 10)
  else if 'A' ≤ c ∧ c ≤ 'F' then some (c.toNat - 'A'.toNat + 10)
  else none

end Wireform.Text.Hex
