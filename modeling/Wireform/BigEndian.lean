import Wireform.Width

/-!
Integers as bytes, most significant byte first.
-/

namespace Wireform.BigEndian

/-- The integer that `bytes` spell; of more than eight bytes the last eight count. -/
def ofBytes (bytes : Bytes) : UInt64 :=
  bytes.foldl (fun word byte => (word <<< 8) ||| byte.toUInt64) 0

/-- The low `width` bytes of `word`, in front of `after`. -/
def toBytesBefore : Nat → UInt64 → Bytes → Bytes
  | 0, _, after => after
  | width + 1, word, after => toBytesBefore width (word >>> 8) (word.toUInt8 :: after)

/-- The low `width` bytes of `word`; bytes above the eighth are zero. -/
def toBytes (width : Nat) (word : UInt64) : Bytes :=
  toBytesBefore width word []

theorem length_toBytesBefore (width : Nat) (word : UInt64) (after : Bytes) :
    (toBytesBefore width word after).length = width + after.length := by
  induction width generalizing word after with
  | zero => simp [toBytesBefore]
  | succ width ih => simp only [toBytesBefore, ih, List.length_cons]; omega

@[simp] theorem length_toBytes (width : Nat) (word : UInt64) :
    (toBytes width word).length = width := by
  simp [toBytes, length_toBytesBefore]

end Wireform.BigEndian
