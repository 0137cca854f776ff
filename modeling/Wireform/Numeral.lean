/-!
Decimal numerals of unsigned 64-bit words, read from left to right: the first character that is no
digit, or the first digit that takes the number out of range, settles the answer.
-/

namespace Wireform.Numeral

inductive Fault where
  | malformed
  | overflow
  deriving DecidableEq, Repr

def readFrom : Nat → List Char → Except Fault Nat
  | value, [] => .ok value
  | value, c :: rest =>
    if '0' ≤ c ∧ c ≤ '9' then
      let next := value * 10 + (c.toNat - '0'.toNat)
      if next < UInt64.size then readFrom next rest else .error .overflow
    else .error .malformed

/-- A numeral has at least one digit; a plus sign may stand before it. -/
def read (text : List Char) : Except Fault UInt64 :=
  match text with
  | [] | ['+'] => .error .malformed
  | '+' :: digits => (readFrom 0 digits).map UInt64.ofNat
  | digits => (readFrom 0 digits).map UInt64.ofNat

end Wireform.Numeral
