/-!
Integers of a declared width. Every integer travels as an unsigned 64-bit word; a width counts
whole bytes and is itself a 32-bit number. A word holds eight bytes, so a wider width keeps all of
it.
-/

namespace Wireform

/-- Raw bytes, first byte first. -/
abbrev Bytes := List UInt8

namespace Width

/-- The word whose lowest `bits` bits are set. -/
def lowBits (bits : Nat) : UInt64 :=
  UInt64.ofNat (Nat.pow 2 (min bits 64) - 1)

def bits (width : Nat) : Nat :=
  8 * (width % UInt32.size)

def mask (width : Nat) : UInt64 :=
  lowBits (bits width)

/-- Keeps the low `width` bytes. -/
def truncate (word : UInt64) (width : Nat) : UInt64 :=
  word &&& mask width

def fits (word : UInt64) (width : Nat) : Bool :=
  truncate word width == word

/-- Two's-complement reading of a signed integer, cut to `width` bytes. -/
def ofSigned (value : Int64) (width : Nat) : UInt64 :=
  truncate value.toUInt64 width

/-- Reads the low `width` bytes as two's complement; no bytes read as zero. -/
def toSigned (word : UInt64) (width : Nat) : Int64 :=
  let held := bits width
  if held = 0 then 0
  else if 64 ≤ held then word.toInt64
  else
    let unused := 64 - held
    (word <<< UInt64.ofNat unused).toInt64 >>> Int64.ofNat unused

end Width

end Wireform
