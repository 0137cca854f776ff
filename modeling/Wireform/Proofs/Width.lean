import Mathlib.Algebra.Divisibility.Basic
import Mathlib.Algebra.Group.Int.Defs
import Mathlib.Algebra.Group.Nat.Defs
import Wireform.Width

/-!
Words cut to a width, bit by bit. A word that fits its width is kept whole, also when it is read as
a signed integer in between.
-/

namespace Wireform.Width

theorem bits_of_lt {width : Nat} (below : width < 2 ^ 32) : bits width = 8 * width :=
  congrArg (8 * ·) (Nat.mod_eq_of_lt below)

theorem toNat_lowBits (n : Nat) : (lowBits n).toNat = 2 ^ min n 64 - 1 := by
  have bound : 2 ^ min n 64 ≤ 2 ^ 64 := Nat.pow_le_pow_right (by decide) (Nat.min_le_right n 64)
  have positive : 0 < 2 ^ min n 64 := Nat.two_pow_pos _
  unfold lowBits
  rw [UInt64.toNat_ofNat', Nat.pow_eq]
  exact Nat.mod_eq_of_lt (by omega)

theorem toNat_truncate (word : UInt64) (width : Nat) :
    (truncate word width).toNat = word.toNat % 2 ^ bits width := by
  unfold truncate mask
  rw [UInt64.toNat_and, toNat_lowBits, Nat.and_two_pow_sub_one_eq_mod]
  rcases Nat.le_total (bits width) 64 with narrow | wide
  · rw [Nat.min_eq_left narrow]
  · have room : 2 ^ 64 ≤ 2 ^ bits width := Nat.pow_le_pow_right (by decide) wide
    rw [Nat.min_eq_right wide, Nat.mod_eq_of_lt word.toNat_lt,
      Nat.mod_eq_of_lt (Nat.lt_of_lt_of_le word.toNat_lt room)]

theorem testBit_truncate (word : UInt64) (width i : Nat) :
    (truncate word width).toNat.testBit i =
      (decide (i < bits width) && word.toNat.testBit i) := by
  rw [toNat_truncate, Nat.testBit_mod_two_pow]

theorem truncate_lt (word : UInt64) (width : Nat) :
    (truncate word width).toNat < 2 ^ bits width := by
  rw [toNat_truncate]
  exact Nat.mod_lt _ (Nat.two_pow_pos _)

theorem toNat_ofSigned {width : Nat} (narrow : bits width ≤ 64) (value : Int64) :
    ((ofSigned value width).toNat : Int) = value.toInt % (2 ^ bits width : Nat) := by
  have word : (value.toUInt64.toNat : Int) = value.toInt % (2 ^ 64 : Nat) := by
    change (value.toBitVec.toNat : Int) = value.toBitVec.toInt % (2 ^ 64 : Nat)
    rw [BitVec.toInt_eq_toNat_bmod, Int.bmod_emod]
    exact (Int.emod_eq_of_lt (Int.natCast_nonneg _) (Int.ofNat_lt.2 value.toBitVec.isLt)).symm
  unfold ofSigned
  rw [toNat_truncate, Int.natCast_emod, word]
  exact Int.emod_emod_of_dvd _ (Int.natCast_dvd_natCast.2 (Nat.pow_dvd_pow 2 narrow))

theorem eq_of_testBit {n : Nat} {a b : UInt64} (below : a.toNat < 2 ^ n) (bound : b.toNat < 2 ^ n)
    (same : ∀ i < n, a.toNat.testBit i = b.toNat.testBit i) : a = b := by
  apply UInt64.toNat_inj.1
  apply Nat.eq_of_testBit_eq
  intro i
  by_cases within : i < n
  · exact same i within
  · have beyond : 2 ^ n ≤ 2 ^ i := Nat.pow_le_pow_right (by decide) (by omega)
    rw [Nat.testBit_lt_two_pow (Nat.lt_of_lt_of_le below beyond),
      Nat.testBit_lt_two_pow (Nat.lt_of_lt_of_le bound beyond)]

theorem truncate_of_lt {width : Nat} {word : UInt64} (small : word.toNat < 2 ^ bits width) :
    truncate word width = word := by
  apply UInt64.toNat_inj.1
  rw [toNat_truncate, Nat.mod_eq_of_lt small]

theorem fits_iff {width : Nat} {word : UInt64} :
    fits word width = true ↔ word.toNat < 2 ^ bits width := by
  unfold fits
  rw [beq_iff_eq]
  apply Iff.intro
  · intro same
    rw [← same]
    exact truncate_lt word width
  · exact truncate_of_lt

theorem toNat_smod {n : Nat} (small : n < 64) :
    ((Int64.ofNat n).toBitVec.smod 64#64).toNat = n := by
  have each : ∀ n < 64, ((Int64.ofNat n).toBitVec.smod 64#64).toNat = n := by decide +kernel
  exact each n small

theorem toSigned_of_wide {width : Nat} (wide : 64 ≤ bits width) (word : UInt64) :
    toSigned word width = word.toInt64 := by
  unfold toSigned
  dsimp only
  rw [if_neg (by omega), if_pos wide]

/-- Some bits of a word, but not all, are moved to the top and back, and the sign comes along. -/
theorem toBitVec_toSigned {width : Nat} (some : 0 < bits width) (part : bits width < 64)
    (word : UInt64) : (toSigned word width).toBitVec =
      (word.toBitVec <<< (64 - bits width)).sshiftRight (64 - bits width) := by
  have count : (UInt64.ofNat (64 - bits width)).toNat % 64 = 64 - bits width := by
    rw [UInt64.toNat_ofNat']
    omega
  unfold toSigned
  dsimp only
  rw [if_neg (Nat.ne_of_gt some), if_neg (Nat.not_le.2 part)]
  change (word <<< UInt64.ofNat (64 - bits width)).toBitVec.sshiftRight
    ((Int64.ofNat (64 - bits width)).toBitVec.smod 64#64).toNat = _
  rw [toNat_smod (by omega)]
  congr 1
  apply BitVec.eq_of_toNat_eq
  rw [BitVec.toNat_shiftLeft]
  change (word <<< UInt64.ofNat (64 - bits width)).toNat = _
  rw [UInt64.toNat_shiftLeft, count]
  rfl

theorem testBit_toSigned {width i : Nat} (within : i < bits width) (word : UInt64)
    (inside : i < 64) :
    (toSigned word width).toUInt64.toNat.testBit i = word.toNat.testBit i := by
  by_cases wide : 64 ≤ bits width
  · rw [toSigned_of_wide wide]
    rfl
  · change (toSigned word width).toBitVec.toNat.testBit i = word.toBitVec.toNat.testBit i
    rw [toBitVec_toSigned (by omega) (by omega), BitVec.testBit_toNat, BitVec.testBit_toNat,
      BitVec.getLsbD_sshiftRight, BitVec.getLsbD_shiftLeft]
    have room : 64 - bits width + i < 64 := by omega
    simp only [show ¬ 64 ≤ i by omega, show ¬ 64 - bits width + i < 64 - bits width by omega, room,
      decide_true, decide_false, Bool.not_false, Bool.true_and, if_true, Nat.add_sub_cancel_left]

/-- A word is read as the integer of its low bits that is nearest to zero. -/
theorem toInt_toSigned {width : Nat} (some : 0 < bits width) (narrow : bits width ≤ 64)
    (word : UInt64) : (toSigned word width).toInt = (word.toNat : Int).bmod (2 ^ bits width) := by
  by_cases wide : 64 ≤ bits width
  · rw [toSigned_of_wide wide, Nat.le_antisymm narrow wide]
    exact BitVec.toInt_eq_toNat_bmod word.toBitVec
  · have whole : 2 ^ 64 = 2 ^ (64 - bits width) * 2 ^ bits width := by
      rw [← Nat.pow_add, Nat.sub_add_cancel narrow]
    have even : 2 ∣ 2 ^ bits width := dvd_pow_self 2 (Nat.ne_of_gt some)
    change (toSigned word width).toBitVec.toInt = _
    -- Moved to the top, the nearest integer is taken there; moving back divides it out again.
    rw [toBitVec_toSigned some (by omega), BitVec.toInt_sshiftRight, BitVec.toInt_shiftLeft,
      Nat.shiftLeft_eq, Nat.mul_comm, whole, Int.natCast_mul,
      Int.mod_bmod_mul_of_pos _ _ (Nat.two_pow_pos _) even, Int.shiftRight_eq_div_pow]
    exact Int.mul_ediv_cancel_left _ (Int.natCast_ne_zero.2 (Nat.ne_of_gt (Nat.two_pow_pos _)))

theorem toSigned_ofSigned_iff {width : Nat} (some : 0 < bits width) (narrow : bits width ≤ 64)
    {value : Int64} : toSigned (ofSigned value width) width = value ↔
      -(2 ^ (bits width - 1) : Int) ≤ value.toInt ∧ value.toInt < 2 ^ (bits width - 1) := by
  have half : ((2 ^ bits width : Nat) : Int) = 2 * 2 ^ (bits width - 1) := by
    rw [← Nat.sub_add_cancel some, Nat.pow_succ', Nat.add_sub_cancel]
    push_cast
    rfl
  rw [← Int64.toInt_inj, toInt_toSigned some narrow, toNat_ofSigned narrow, Int.emod_bmod]
  apply Iff.intro
  · intro same
    have least := Int.le_bmod (x := value.toInt) (Nat.two_pow_pos (bits width))
    have most := Int.bmod_lt (x := value.toInt) (Nat.two_pow_pos (bits width))
    omega
  · intro ⟨least, most⟩
    exact Int.bmod_eq_of_le_mul_two (by omega) (by omega)

theorem ofSigned_of_testBit {width : Nat} {word : UInt64} {kept : Int64}
    (same : ∀ i < bits width, i < 64 → kept.toUInt64.toNat.testBit i =
      (toSigned word width).toUInt64.toNat.testBit i) :
    ofSigned kept width = truncate word width := by
  apply eq_of_testBit (UInt64.toNat_lt _) (UInt64.toNat_lt _)
  intro i inside
  unfold ofSigned
  rw [testBit_truncate, testBit_truncate]
  by_cases within : i < bits width
  · rw [same i within inside, testBit_toSigned within word inside]
  · rw [decide_eq_false within, Bool.false_and, Bool.false_and]

theorem ofSigned_toSigned (word : UInt64) (width : Nat) :
    ofSigned (toSigned word width) width = truncate word width :=
  ofSigned_of_testBit fun _ _ _ => rfl

theorem testBit_signExtend {n i : Nat} (within : i < n) (inside : i < 64) (value : BitVec 64) :
    ((value.signExtend n).signExtend 64).toNat.testBit i = value.toNat.testBit i := by
  simp only [BitVec.testBit_toNat, BitVec.getLsbD_signExtend, within, inside, decide_true,
    Bool.true_and, if_true]

theorem ofSigned_signExtend {width n : Nat} (held : bits width = n) {word : UInt64}
    {kept : Int64} (small : word.toNat < 2 ^ n)
    (same : kept.toBitVec = ((toSigned word width).toBitVec.signExtend n).signExtend 64) :
    ofSigned kept width = word := by
  subst held
  rw [← truncate_of_lt small]
  apply ofSigned_of_testBit
  intro i within inside
  change kept.toBitVec.toNat.testBit i = _
  rw [same]
  exact testBit_signExtend within inside _

end Wireform.Width
