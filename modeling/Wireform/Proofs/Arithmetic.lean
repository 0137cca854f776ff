import Wireform.Proofs.BigEndian
import Wireform.Proofs.Width

/-!
The arithmetic of widths. Cutting a word, asking whether it fits, spelling it in bytes and reading
it as signed are all about the same remainder: that of a power of 256, up to the eight bytes that a
word holds.
-/

namespace Wireform.Width

open BigEndian

variable {width : Nat}

theorem two_pow_bits_of_lt (below : width < 2 ^ 32) : 2 ^ bits width = 256 ^ width := by
  rw [bits_of_lt below, Nat.pow_mul]

theorem word_lt (wide : 8 ≤ width) (word : UInt64) : word.toNat < 256 ^ width := by
  calc word.toNat < 2 ^ 64 := word.toNat_lt
    _ = 256 ^ 8 := by decide
    _ ≤ 256 ^ width := Nat.pow_le_pow_right (by decide) wide

theorem ofBytes_toBytes_of_lt (below : width < 2 ^ 32) (word : UInt64) :
    ofBytes (toBytes width word) = truncate word width := by
  apply UInt64.toNat_inj.1
  rw [toNat_ofBytes_toBytes, toNat_truncate, two_pow_bits_of_lt below]

/-- What a width keeps of words and of signed integers. -/
structure Consistent (width : Nat) : Prop where
  spelled : ∀ word, (toBytes width word).length = width ∧
    ofBytes (toBytes width word) = truncate word width
  remainder : width < 8 → ∀ word, (truncate word width).toNat = word.toNat % 256 ^ width
  whole : 8 ≤ width → ∀ word, truncate word width = word
  bounded : ∀ word, fits word width = true ↔ word.toNat < 256 ^ width
  signed : 1 ≤ width → width ≤ 8 → ∀ value : Int64, toSigned (ofSigned value width) width = value ↔
    -(2 ^ (8 * width - 1) : Int) ≤ value.toInt ∧ value.toInt < 2 ^ (8 * width - 1)

theorem consistent_of_lt (below : width < 2 ^ 32) : Consistent width where
  spelled word := ⟨length_toBytes width word, ofBytes_toBytes_of_lt below word⟩
  remainder _ word := by rw [toNat_truncate, two_pow_bits_of_lt below]
  whole wide word := truncate_of_lt (two_pow_bits_of_lt below ▸ word_lt wide word)
  bounded word := by rw [fits_iff, two_pow_bits_of_lt below]
  signed some narrow value := by
    have count := bits_of_lt below
    rw [toSigned_ofSigned_iff (by omega) (by omega), count]

/-- Cutting, fitting, spelling in bytes and reading as signed agree with each other, and with the
numbers that words and bytes stand for, at every width. -/
theorem arithmetic_consistent :
    (∀ width < 2 ^ 32, Consistent width) ∧
    (∀ bytes, (ofBytes bytes).toNat = number bytes % 2 ^ 64) ∧
    (∀ bytes : Bytes, bytes.length ≤ 8 → toBytes bytes.length (ofBytes bytes) = bytes) ∧
    ∀ width word, ofSigned (toSigned word width) width = truncate word width :=
  ⟨fun _ => consistent_of_lt, toNat_ofBytes, fun _ => toBytes_ofBytes, fun width word =>
    ofSigned_toSigned word width⟩

/-- A byte holds -128, but not 128; two hold 65535, but not 65536; nine bytes spell any word,
and eight come back as they are. -/
theorem arithmetic_consistent_at_edges :
    toSigned (ofSigned (-128) 1) 1 = -128 ∧ ¬ toSigned (ofSigned 128 1) 1 = 128 ∧
    fits 65535 2 = true ∧ ¬ fits 65536 2 = true ∧
    ofBytes (toBytes 9 0xffffffffffffffff) = 0xffffffffffffffff ∧
    toBytes 8 (ofBytes [0xff, 0, 0, 0, 0, 0, 0, 1]) = [0xff, 0, 0, 0, 0, 0, 0, 1] := by
  obtain ⟨each, -, spelled, -⟩ := arithmetic_consistent
  have one := (each 1 (by decide)).signed (by decide) (by decide)
  have two := (each 2 (by decide)).bounded
  have nine := each 9 (by decide)
  refine ⟨(one (-128)).2 (by decide), fun same => ?_, (two 65535).2 (by decide), fun fits => ?_, ?_,
    spelled [0xff, 0, 0, 0, 0, 0, 0, 1] (by decide)⟩
  · exact absurd ((one 128).1 same).2 (by decide)
  · exact absurd ((two 65536).1 fits) (by decide)
  · exact (nine.spelled _).2.trans (nine.whole (by decide) _)

end Wireform.Width
