import Wireform.BigEndian
import Wireform.Descriptor
import Wireform.Fault

/-!
Bit-fields packed into a container of one to four bytes. Bits count from the least significant bit
of the last byte. A bit-field of value zero sets nothing, so it need not lie inside the container.
-/

namespace Wireform.Container

/-- Bits of the integer that a container is gathered in. -/
def accumulatorBits : Nat :=
  32

def maxLength : Nat :=
  accumulatorBits / 8

def check (length : Nat) : Except Fault Unit :=
  if 1 ≤ length ∧ length ≤ maxLength then .ok ()
  else .error (.length (.container maxLength length))

/-- Bit positions are 32-bit numbers; the end of a span stops at the largest of them. -/
def stop (field : BitDescriptor) : Nat :=
  min (field.offset + field.length) (UInt32.size - 1)

def checkSpan (length : Nat) (field : BitDescriptor) : Except Fault Unit :=
  let available := 8 * length % UInt32.size
  if accumulatorBits < field.length then
    .error (.range (.wide field.name field.length accumulatorBits))
  else if available < stop field then
    .error (.range (.outside field.name field.offset (stop field) available))
  else .ok ()

/-- The bits of one bit-field, in place. -/
def place (length : Nat) (field : BitDescriptor) (value : UInt64) : Except Fault UInt64 :=
  if value = 0 then .ok 0
  else do
    checkSpan length field
    if value >>> UInt64.ofNat field.length = 0 then .ok (value <<< UInt64.ofNat field.offset)
    else .error (.range (.bits value field.name field.length))

def pack (length : Nat) (fields : List (BitDescriptor × UInt64)) : Except Fault Bytes := do
  check length
  let word ← fields.foldlM
    (fun word (field, value) => (place length field value).map (word ||| ·)) 0
  .ok (BigEndian.toBytes length word)

/-- The bits of one bit-field of a container that spells `word`. -/
def extract (length : Nat) (word : UInt64) (field : BitDescriptor) : Except Fault UInt64 := do
  checkSpan length field
  .ok ((word >>> UInt64.ofNat field.offset) &&& Width.lowBits field.length)

def unpack (container : Bytes) (fields : List BitDescriptor) : Except Fault (List UInt64) := do
  check container.length
  fields.mapM (extract container.length (BigEndian.ofBytes container))

end Wireform.Container
