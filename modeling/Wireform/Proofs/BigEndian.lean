import Mathlib.Algebra.Group.Nat.Defs
import Mathlib.Data.List.Induction
import Mathlib.Data.Nat.Digits.Defs
import Wireform.BigEndian

/-!
Integers as bytes, there and back. As many bytes as a word holds spell it without loss; fewer keep
its remainder.
-/

namespace Wireform.BigEndian

theorem toBytesBefore_eq (width : Nat) (word : UInt64) (after : Bytes) :
    toBytesBefore width word after = toBytes width word ++ after := by
  induction width generalizing word after with
  | zero => rfl
  | succ width ih =>
    have one : toBytes (width + 1) word = toBytes width (word >>> 8) ++ [word.toUInt8] := ih _ _
    rw [toBytesBefore, ih, one, List.append_assoc, List.singleton_append]

theorem toBytes_succ (width : Nat) (word : UInt64) :
    toBytes (width + 1) word = toBytes width (word >>> 8) ++ [word.toUInt8] :=
  toBytesBefore_eq width (word >>> 8) [word.toUInt8]

theorem ofBytes_concat (bytes : Bytes) (byte : UInt8) :
    ofBytes (bytes ++ [byte]) = ofBytes bytes <<< 8 ||| byte.toUInt64 := by
  unfold ofBytes
  rw [List.foldl_append]
  rfl

theorem toNat_ofBytes_concat (bytes : Bytes) (byte : UInt8) :
    (ofBytes (bytes ++ [byte])).toNat =
      ((ofBytes bytes).toNat * 256 + byte.toNat) % 2 ^ 64 := by
  have small : byte.toNat < 2 ^ 8 := byte.toNat_lt
  have fits : byte.toNat = byte.toNat % 2 ^ 64 := by omega
  rw [ofBytes_concat, UInt64.toNat_or, UInt64.toNat_shiftLeft, UInt8.toNat_toUInt64]
  calc (ofBytes bytes).toNat <<< 8 % 2 ^ 64 ||| byte.toNat
      = ((ofBytes bytes).toNat <<< 8 ||| byte.toNat) % 2 ^ 64 := by
        rw [Nat.or_mod_two_pow, ← fits]
    _ = ((ofBytes bytes).toNat * 256 + byte.toNat) % 2 ^ 64 := by
        rw [← Nat.shiftLeft_add_eq_or_of_lt small, Nat.shiftLeft_eq]

theorem toNat_shiftRight_eight (word : UInt64) : (word >>> 8).toNat = word.toNat / 256 := by
  rw [UInt64.toNat_shiftRight, Nat.shiftRight_eq_div_pow]
  rfl

theorem pow_le_word {width : Nat} (narrow : width ≤ 8) : 256 ^ width ≤ 2 ^ 64 := by
  calc 256 ^ width ≤ 256 ^ 8 := Nat.pow_le_pow_right (by decide) narrow
    _ = 2 ^ 64 := by decide

theorem toNat_ofBytes_lt {bytes : Bytes} (narrow : bytes.length ≤ 8) :
    (ofBytes bytes).toNat < 256 ^ bytes.length := by
  induction bytes using List.reverseRecOn with
  | nil => decide
  | append_singleton bytes byte ih =>
    rw [List.length_append, List.length_singleton] at narrow ⊢
    have before := ih (by omega)
    have small : byte.toNat < 256 := byte.toNat_lt
    rw [toNat_ofBytes_concat, Nat.pow_succ]
    have bound : (ofBytes bytes).toNat * 256 + byte.toNat < 256 ^ bytes.length * 256 := by omega
    exact Nat.lt_of_le_of_lt (Nat.mod_le _ _) bound

theorem toBytes_ofBytes {bytes : Bytes} (narrow : bytes.length ≤ 8) :
    toBytes bytes.length (ofBytes bytes) = bytes := by
  induction bytes using List.reverseRecOn with
  | nil => rfl
  | append_singleton bytes byte ih =>
    rw [List.length_append, List.length_singleton] at narrow ⊢
    have small : byte.toNat < 256 := byte.toNat_lt
    have before : (ofBytes bytes).toNat < 256 ^ bytes.length := toNat_ofBytes_lt (by omega)
    have room := pow_le_word narrow
    rw [Nat.pow_succ] at room
    have whole : (ofBytes (bytes ++ [byte])).toNat = (ofBytes bytes).toNat * 256 + byte.toNat := by
      rw [toNat_ofBytes_concat, Nat.mod_eq_of_lt (by omega)]
    have high : ofBytes (bytes ++ [byte]) >>> 8 = ofBytes bytes := by
      apply UInt64.toNat_inj.1
      rw [toNat_shiftRight_eight, whole]
      omega
    have low : (ofBytes (bytes ++ [byte])).toUInt8 = byte := by
      apply UInt8.toNat_inj.1
      rw [UInt64.toNat_toUInt8, whole]
      omega
    rw [toBytes_succ, high, low, ih (by omega)]

theorem toNat_ofBytes_toBytes (width : Nat) (word : UInt64) :
    (ofBytes (toBytes width word)).toNat = word.toNat % 256 ^ width := by
  induction width generalizing word with
  | zero => simp only [Nat.pow_zero, Nat.mod_one]; rfl
  | succ width ih =>
    have bound : word.toNat < 2 ^ 64 := word.toNat_lt
    have rest : word.toNat / 256 % 256 ^ width ≤ word.toNat / 256 := Nat.mod_le _ _
    have split : word.toNat % 256 ^ (width + 1) =
        word.toNat % 256 + 256 * (word.toNat / 256 % 256 ^ width) := by
      rw [Nat.pow_succ', Nat.mod_mul]
    rw [toBytes_succ, toNat_ofBytes_concat, ih, toNat_shiftRight_eight, UInt64.toNat_toUInt8, split]
    omega

/-- The number that bytes spell in base 256, the first of them its highest digit. -/
def number (bytes : Bytes) : Nat :=
  Nat.ofDigits 256 (bytes.reverse.map UInt8.toNat)

theorem number_concat (bytes : Bytes) (byte : UInt8) :
    number (bytes ++ [byte]) = number bytes * 256 + byte.toNat := by
  unfold number
  rw [List.reverse_append, List.reverse_singleton, List.singleton_append, List.map_cons,
    Nat.ofDigits_cons, Nat.add_comm, Nat.mul_comm]

theorem toNat_ofBytes (bytes : Bytes) : (ofBytes bytes).toNat = number bytes % 2 ^ 64 := by
  induction bytes using List.reverseRecOn with
  | nil => rfl
  | append_singleton bytes byte ih =>
    rw [toNat_ofBytes_concat, ih, number_concat]
    omega

end Wireform.BigEndian
