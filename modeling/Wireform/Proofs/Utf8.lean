import Mathlib.Tactic.IntervalCases
import Wireform.Proofs.Transfer

/-!
UTF-8 there and back. Reading the bytes of a character gives the character, and bytes that can be
read are those of characters; so reading undoes writing, and writing undoes reading.
-/

namespace Wireform.Text.Utf8

open String (utf8EncodeChar)

theorem ofLead?_two : ∀ a < 0x20, 2 ≤ a →
    Pending.ofLead? (UInt8.ofNat (a + 0xc0)) = some ⟨1, 0x80, 0xbf, 1, a⟩ := by
  decide

theorem ofLead?_three : ∀ a < 0x10,
    Pending.ofLead? (UInt8.ofNat (a + 0xe0)) =
      some ⟨2, if a = 0 then 0xa0 else 0x80, if a = 0xd then 0x9f else 0xbf, 1, a⟩ := by
  decide

theorem ofLead?_four : ∀ a < 5,
    Pending.ofLead? (UInt8.ofNat (a + 0xf0)) =
      some ⟨3, if a = 0 then 0x90 else 0x80, if a = 4 then 0x8f else 0xbf, 1, a⟩ := by
  decide

theorem of_ofLead? {byte : UInt8} {begun : Pending} (lead : Pending.ofLead? byte = some begun) :
    (∃ a < 0x20, 2 ≤ a ∧ byte = UInt8.ofNat (a + 0xc0)) ∨
      (∃ a < 0x10, byte = UInt8.ofNat (a + 0xe0)) ∨ ∃ a < 5, byte = UInt8.ofNat (a + 0xf0) := by
  have table : ∀ n < 256, (Pending.ofLead? (UInt8.ofNat n)).isSome = true →
      (0xc2 ≤ n ∧ n ≤ 0xdf) ∨ (0xe0 ≤ n ∧ n ≤ 0xef) ∨ (0xf0 ≤ n ∧ n ≤ 0xf4) := by decide +kernel
  have entry := table byte.toNat byte.toNat_lt
  rw [UInt8.ofNat_toNat, lead] at entry
  have same : byte = UInt8.ofNat byte.toNat := UInt8.ofNat_toNat.symm
  rcases entry rfl with range | range | range
  · refine .inl ⟨byte.toNat - 0xc0, by omega, by omega, ?_⟩
    rwa [Nat.sub_add_cancel (by omega)]
  · refine .inr (.inl ⟨byte.toNat - 0xe0, by omega, ?_⟩)
    rwa [Nat.sub_add_cancel (by omega)]
  · refine .inr (.inr ⟨byte.toNat - 0xf0, by omega, ?_⟩)
    rwa [Nat.sub_add_cancel (by omega)]

section

variable {index : Nat} {done : List Char} {begun : Pending} {byte : UInt8} {rest : Bytes}

theorem decodeFrom_single (small : byte < 0x80) :
    decodeFrom index done none (byte :: rest) =
      decodeFrom (index + 1) (Char.ofNat byte.toNat :: done) none rest := by
  rw [decodeFrom, if_pos small]

theorem decodeFrom_lead (large : ¬ byte < 0x80) (lead : Pending.ofLead? byte = some begun) :
    decodeFrom index done none (byte :: rest) =
      decodeFrom (index + 1) done (some begun) rest := by
  rw [decodeFrom, if_neg large, lead]

theorem decodeFrom_tail (range : begun.low ≤ byte ∧ byte ≤ begun.high)
    (more : ¬ begun.missing ≤ 1) :
    decodeFrom index done (some begun) (byte :: rest) =
      decodeFrom (index + 1) done (some ⟨begun.missing - 1, 0x80, 0xbf, begun.read + 1,
        begun.code * 64 + (byte.toNat - 0x80)⟩) rest := by
  rw [decodeFrom, if_pos range]
  exact if_neg more

theorem decodeFrom_last (range : begun.low ≤ byte ∧ byte ≤ begun.high)
    (last : begun.missing ≤ 1) :
    decodeFrom index done (some begun) (byte :: rest) =
      decodeFrom (index + 1) (Char.ofNat (begun.code * 64 + (byte.toNat - 0x80)) :: done) none
        rest := by
  rw [decodeFrom, if_pos range]
  exact if_pos last

end

/-- The bound as a number, so that it can be decided by arithmetic. -/
theorem toNat_ofNat_small {n : Nat} (small : n < 0x100) : (UInt8.ofNat n).toNat = n :=
  UInt8.toNat_ofNat_of_lt' small

theorem large_of_le {n : Nat} (small : n < 256) (large : 0x80 ≤ n) : ¬ UInt8.ofNat n < 0x80 := by
  rw [UInt8.lt_iff_toNat_lt, toNat_ofNat_small small]
  exact Nat.not_lt.2 large

theorem tail_range {t : Nat} {low high : UInt8} (small : t < 0x40) (above : low.toNat ≤ t + 0x80)
    (below : t + 0x80 ≤ high.toNat) :
    low ≤ UInt8.ofNat (t + 0x80) ∧ UInt8.ofNat (t + 0x80) ≤ high := by
  rw [UInt8.le_iff_toNat_le, UInt8.le_iff_toNat_le, toNat_ofNat_small (by omega)]
  exact ⟨above, below⟩

theorem tail_bits {t : Nat} (small : t < 0x40) : (UInt8.ofNat (t + 0x80)).toNat - 0x80 = t := by
  rw [toNat_ofNat_small (by omega)]
  omega

theorem any_tail {t : Nat} (small : t < 0x40) :
    0x80 ≤ UInt8.ofNat (t + 0x80) ∧ UInt8.ofNat (t + 0x80) ≤ 0xbf := by
  refine tail_range small (Nat.le_add_left _ _) ?_
  show t + 0x80 ≤ 0xbf
  omega

section

variable (index : Nat) (done : List Char) (rest : Bytes) {a b c d : Nat}

theorem decodeFrom_two (above : 2 ≤ a) (lead : a < 0x20) (second : b < 0x40) :
    decodeFrom index done none (UInt8.ofNat (a + 0xc0) :: UInt8.ofNat (b + 0x80) :: rest) =
      decodeFrom (index + 2) (Char.ofNat (a * 64 + b) :: done) none rest := by
  have large := large_of_le (n := a + 0xc0) (by omega) (by omega)
  rw [decodeFrom_lead large (ofLead?_two a lead above),
    decodeFrom_last (any_tail second) (Nat.le_refl 1), tail_bits second]

/-- Three bytes are in range where the long forms and the surrogates are left out. -/
theorem decodeFrom_three (lead : a < 0x10) (second : b < 0x40) (third : c < 0x40)
    (short : 0x800 ≤ (a * 64 + b) * 64 + c) (plain : ((a * 64 + b) * 64 + c).isValidChar) :
    decodeFrom index done none
        (UInt8.ofNat (a + 0xe0) :: UInt8.ofNat (b + 0x80) :: UInt8.ofNat (c + 0x80) :: rest) =
      decodeFrom (index + 3) (Char.ofNat ((a * 64 + b) * 64 + c) :: done) none rest := by
  have large := large_of_le (n := a + 0xe0) (by omega) (by omega)
  have range : (if a = 0 then 0xa0 else 0x80) ≤ UInt8.ofNat (b + 0x80) ∧
      UInt8.ofNat (b + 0x80) ≤ (if a = 0xd then 0x9f else 0xbf) := by
    unfold Nat.isValidChar at plain
    refine tail_range second ?_ ?_
    · split
      · show 0xa0 ≤ b + 0x80
        omega
      · exact Nat.le_add_left _ _
    · split
      · show b + 0x80 ≤ 0x9f
        omega
      · show b + 0x80 ≤ 0xbf
        omega
  have more : ¬ 2 ≤ 1 := by decide
  rw [decodeFrom_lead large (ofLead?_three a lead), decodeFrom_tail range more, tail_bits second,
    decodeFrom_last (any_tail third) (Nat.le_refl 1), tail_bits third]

/-- Four bytes are in range where the long forms and what lies past the last character are left
out. -/
theorem decodeFrom_four (lead : a < 5) (second : b < 0x40) (third : c < 0x40) (fourth : d < 0x40)
    (short : 0x10000 ≤ ((a * 64 + b) * 64 + c) * 64 + d)
    (plain : (((a * 64 + b) * 64 + c) * 64 + d).isValidChar) :
    decodeFrom index done none
        (UInt8.ofNat (a + 0xf0) :: UInt8.ofNat (b + 0x80) :: UInt8.ofNat (c + 0x80) ::
          UInt8.ofNat (d + 0x80) :: rest) =
      decodeFrom (index + 4) (Char.ofNat (((a * 64 + b) * 64 + c) * 64 + d) :: done) none rest := by
  have large := large_of_le (n := a + 0xf0) (by omega) (by omega)
  have range : (if a = 0 then 0x90 else 0x80) ≤ UInt8.ofNat (b + 0x80) ∧
      UInt8.ofNat (b + 0x80) ≤ (if a = 4 then 0x8f else 0xbf) := by
    unfold Nat.isValidChar at plain
    refine tail_range second ?_ ?_
    · split
      · show 0x90 ≤ b + 0x80
        omega
      · exact Nat.le_add_left _ _
    · split
      · show b + 0x80 ≤ 0x8f
        omega
      · show b + 0x80 ≤ 0xbf
        omega
  have more : ¬ 3 ≤ 1 := by decide
  have more' : ¬ 3 - 1 ≤ 1 := by decide
  rw [decodeFrom_lead large (ofLead?_four a lead), decodeFrom_tail range more, tail_bits second,
    decodeFrom_tail (any_tail third) more', tail_bits third,
    decodeFrom_last (any_tail fourth) (Nat.le_refl 1), tail_bits fourth]

end

theorem decodeFrom_encodeChar (index : Nat) (done : List Char) (c : Char) (rest : Bytes) :
    decodeFrom index done none (utf8EncodeChar c ++ rest) =
      decodeFrom (index + (utf8EncodeChar c).length) (c :: done) none rest := by
  have whole : Char.ofNat c.toNat = c := Char.ofNat_toNat c
  have valid : c.toNat.isValidChar := c.valid
  have code : c.val.toNat = c.toNat := rfl
  unfold utf8EncodeChar
  rw [code]
  by_cases one : c.toNat ≤ 0x7f
  · have small : UInt8.ofNat c.toNat < 0x80 := by
      rw [UInt8.lt_iff_toNat_lt, toNat_ofNat_small (by omega)]
      show c.toNat < 0x80
      omega
    simp only [if_pos one]
    rw [List.singleton_append, decodeFrom_single small, toNat_ofNat_small (by omega), whole]
    rfl
  by_cases two : c.toNat ≤ 0x7ff
  · simp only [if_neg one, if_pos two]
    have ran := decodeFrom_two index done rest (a := c.toNat / 64 % 0x20) (b := c.toNat % 0x40)
      (by omega) (by omega) (by omega)
    have same : c.toNat / 64 % 0x20 * 64 + c.toNat % 0x40 = c.toNat := by omega
    rw [same, whole] at ran
    exact ran
  by_cases three : c.toNat ≤ 0xffff
  · simp only [if_neg one, if_neg two, if_pos three]
    have same : (c.toNat / 4096 % 0x10 * 64 + c.toNat / 64 % 0x40) * 64 + c.toNat % 0x40 =
        c.toNat := by omega
    have ran := decodeFrom_three index done rest (a := c.toNat / 4096 % 0x10)
      (b := c.toNat / 64 % 0x40) (c := c.toNat % 0x40) (by omega) (by omega) (by omega)
      (by omega) (by rw [same]; exact valid)
    rw [same, whole] at ran
    exact ran
  · simp only [if_neg one, if_neg two, if_neg three]
    have bound := valid
    unfold Nat.isValidChar at bound
    have same : ((c.toNat / 262144 % 0x08 * 64 + c.toNat / 4096 % 0x40) * 64 +
        c.toNat / 64 % 0x40) * 64 + c.toNat % 0x40 = c.toNat := by omega
    have ran := decodeFrom_four index done rest (a := c.toNat / 262144 % 0x08)
      (b := c.toNat / 4096 % 0x40) (c := c.toNat / 64 % 0x40) (d := c.toNat % 0x40) (by omega)
      (by omega) (by omega) (by omega) (by omega) (by rw [same]; exact valid)
    rw [same, whole] at ran
    exact ran

theorem decodeFrom_encode (index : Nat) (done text : List Char) :
    decodeFrom index done none (encode text) = .ok (done.reverse ++ text) := by
  induction text generalizing index done with
  | nil =>
    rw [List.append_nil]
    rfl
  | cons c rest ih =>
    have first : encode (c :: rest) = utf8EncodeChar c ++ encode rest := List.flatMap_cons
    rw [first, decodeFrom_encodeChar, ih, List.reverse_cons, List.append_assoc,
      List.singleton_append]

theorem decode_encode (text : List Char) : decode (encode text) = .ok text :=
  decodeFrom_encode 0 [] text

section

variable {index : Nat} {done text : List Char} {bytes : Bytes} {a b c d : Nat} {ch : Char}

theorem encodeChar_two (above : 2 ≤ a) (lead : a < 0x20) (second : b < 0x40)
    (code : ch.toNat = a * 64 + b) :
    utf8EncodeChar ch = [UInt8.ofNat (a + 0xc0), UInt8.ofNat (b + 0x80)] := by
  have value : ch.val.toNat = a * 64 + b := code
  have one : ¬ a * 64 + b ≤ 0x7f := by omega
  have two : a * 64 + b ≤ 0x7ff := by omega
  have first : (a * 64 + b) / 64 % 0x20 = a := by omega
  have last : (a * 64 + b) % 0x40 = b := by omega
  unfold utf8EncodeChar
  rw [value]
  simp only [if_neg one, if_pos two, first, last]

theorem encodeChar_three (lead : a < 0x10) (second : b < 0x40) (third : c < 0x40)
    (short : 0x800 ≤ (a * 64 + b) * 64 + c) (code : ch.toNat = (a * 64 + b) * 64 + c) :
    utf8EncodeChar ch =
      [UInt8.ofNat (a + 0xe0), UInt8.ofNat (b + 0x80), UInt8.ofNat (c + 0x80)] := by
  have value : ch.val.toNat = (a * 64 + b) * 64 + c := code
  have one : ¬ (a * 64 + b) * 64 + c ≤ 0x7f := by omega
  have two : ¬ (a * 64 + b) * 64 + c ≤ 0x7ff := by omega
  have three : (a * 64 + b) * 64 + c ≤ 0xffff := by omega
  have first : ((a * 64 + b) * 64 + c) / 4096 % 0x10 = a := by omega
  have middle : ((a * 64 + b) * 64 + c) / 64 % 0x40 = b := by omega
  have last : ((a * 64 + b) * 64 + c) % 0x40 = c := by omega
  unfold utf8EncodeChar
  rw [value]
  simp only [if_neg one, if_neg two, if_pos three, first, middle, last]

theorem encodeChar_four (lead : a < 5) (second : b < 0x40) (third : c < 0x40) (fourth : d < 0x40)
    (short : 0x10000 ≤ ((a * 64 + b) * 64 + c) * 64 + d)
    (code : ch.toNat = ((a * 64 + b) * 64 + c) * 64 + d) :
    utf8EncodeChar ch =
      [UInt8.ofNat (a + 0xf0), UInt8.ofNat (b + 0x80), UInt8.ofNat (c + 0x80),
        UInt8.ofNat (d + 0x80)] := by
  have value : ch.val.toNat = ((a * 64 + b) * 64 + c) * 64 + d := code
  have one : ¬ ((a * 64 + b) * 64 + c) * 64 + d ≤ 0x7f := by omega
  have two : ¬ ((a * 64 + b) * 64 + c) * 64 + d ≤ 0x7ff := by omega
  have three : ¬ ((a * 64 + b) * 64 + c) * 64 + d ≤ 0xffff := by omega
  have first : (((a * 64 + b) * 64 + c) * 64 + d) / 262144 % 0x08 = a := by omega
  have early : (((a * 64 + b) * 64 + c) * 64 + d) / 4096 % 0x40 = b := by omega
  have late : (((a * 64 + b) * 64 + c) * 64 + d) / 64 % 0x40 = c := by omega
  have last : (((a * 64 + b) * 64 + c) * 64 + d) % 0x40 = d := by omega
  unfold utf8EncodeChar
  rw [value]
  simp only [if_neg one, if_neg two, if_neg three, first, early, late, last]

theorem exists_tail {missing read code : Nat} {low high : UInt8} (floor : 0x80 ≤ low.toNat)
    (ceiling : high.toNat ≤ 0xbf)
    (ran : decodeFrom index done (some ⟨missing, low, high, read, code⟩) bytes = .ok text) :
    ∃ t rest, t < 0x40 ∧ bytes = UInt8.ofNat (t + 0x80) :: rest ∧
      low.toNat ≤ t + 0x80 ∧ t + 0x80 ≤ high.toNat ∧
      (¬ missing ≤ 1 → decodeFrom (index + 1) done
        (some ⟨missing - 1, 0x80, 0xbf, read + 1, code * 64 + t⟩) rest = .ok text) := by
  cases bytes with
  | nil => cases ran
  | cons byte rest =>
    by_cases range : low ≤ byte ∧ byte ≤ high
    · have above := UInt8.le_iff_toNat_le.1 range.1
      have below := UInt8.le_iff_toNat_le.1 range.2
      have whole : byte.toNat - 0x80 + 0x80 = byte.toNat := Nat.sub_add_cancel (by omega)
      refine ⟨byte.toNat - 0x80, rest, by omega, by rw [whole, UInt8.ofNat_toNat], by omega,
        by omega, fun more => ?_⟩
      rw [decodeFrom_tail range more] at ran
      exact ran
    · rw [decodeFrom, if_neg range] at ran
      cases ran

theorem exists_char {v : Nat} (plain : v.isValidChar) : ∃ ch : Char, ch.toNat = v := by
  refine ⟨Char.ofNat v, ?_⟩
  unfold Char.ofNat
  rw [dif_pos plain]
  unfold Char.ofNatAux Char.toNat
  simp

theorem exists_encodeChar_two (above : 2 ≤ a) (lead : a < 0x20)
    (ran : decodeFrom index done (some ⟨1, 0x80, 0xbf, 1, a⟩) bytes = .ok text) :
    ∃ ch tail, UInt8.ofNat (a + 0xc0) :: bytes = utf8EncodeChar ch ++ tail := by
  obtain ⟨b, rest, second, rfl, -, -, -⟩ := exists_tail (by decide) (by decide) ran
  obtain ⟨ch, code⟩ := exists_char (v := a * 64 + b) (by unfold Nat.isValidChar; omega)
  refine ⟨ch, rest, ?_⟩
  rw [encodeChar_two above lead second code]
  rfl

theorem exists_encodeChar_three (lead : a < 0x10)
    (ran : decodeFrom index done
      (some ⟨2, if a = 0 then 0xa0 else 0x80, if a = 0xd then 0x9f else 0xbf, 1, a⟩) bytes =
        .ok text) :
    ∃ ch tail, UInt8.ofNat (a + 0xe0) :: bytes = utf8EncodeChar ch ++ tail := by
  obtain ⟨b, unread, second, rfl, low, high, ran⟩ :=
    exists_tail (by split <;> decide) (by split <;> decide) ran
  obtain ⟨c, rest, third, rfl, -, -, -⟩ :=
    exists_tail (by decide) (by decide) (ran (by decide))
  have short : 0x800 ≤ (a * 64 + b) * 64 + c := by
    by_cases zero : a = 0
    · rw [if_pos zero] at low
      have above : 0xa0 ≤ b + 0x80 := low
      omega
    · omega
  have plain : ((a * 64 + b) * 64 + c).isValidChar := by
    unfold Nat.isValidChar
    by_cases surrogate : a = 0xd
    · rw [if_pos surrogate] at high
      have below : b + 0x80 ≤ 0x9f := high
      omega
    · omega
  obtain ⟨ch, code⟩ := exists_char plain
  refine ⟨ch, rest, ?_⟩
  rw [encodeChar_three lead second third short code]
  rfl

theorem exists_encodeChar_four (lead : a < 5)
    (ran : decodeFrom index done
      (some ⟨3, if a = 0 then 0x90 else 0x80, if a = 4 then 0x8f else 0xbf, 1, a⟩) bytes =
        .ok text) :
    ∃ ch tail, UInt8.ofNat (a + 0xf0) :: bytes = utf8EncodeChar ch ++ tail := by
  obtain ⟨b, unread, second, rfl, low, high, ran⟩ :=
    exists_tail (by split <;> decide) (by split <;> decide) ran
  obtain ⟨c, unread, third, rfl, -, -, ran⟩ :=
    exists_tail (by decide) (by decide) (ran (by decide))
  obtain ⟨d, rest, fourth, rfl, -, -, -⟩ :=
    exists_tail (by decide) (by decide) (ran (by decide))
  have short : 0x10000 ≤ ((a * 64 + b) * 64 + c) * 64 + d := by
    by_cases zero : a = 0
    · rw [if_pos zero] at low
      have above : 0x90 ≤ b + 0x80 := low
      omega
    · omega
  have plain : (((a * 64 + b) * 64 + c) * 64 + d).isValidChar := by
    unfold Nat.isValidChar
    by_cases last : a = 4
    · rw [if_pos last] at high
      have below : b + 0x80 ≤ 0x8f := high
      omega
    · omega
  obtain ⟨ch, code⟩ := exists_char plain
  refine ⟨ch, rest, ?_⟩
  rw [encodeChar_four lead second third fourth short code]
  rfl

theorem exists_encodeChar {byte : UInt8} {rest : Bytes}
    (ran : decodeFrom index done none (byte :: rest) = .ok text) :
    ∃ ch tail, byte :: rest = utf8EncodeChar ch ++ tail := by
  by_cases small : byte < 0x80
  · have below : byte.toNat < 0x80 := UInt8.lt_iff_toNat_lt.1 small
    obtain ⟨ch, code⟩ := exists_char (v := byte.toNat) (by unfold Nat.isValidChar; omega)
    have value : ch.val.toNat = byte.toNat := code
    refine ⟨ch, rest, ?_⟩
    unfold utf8EncodeChar
    rw [value]
    simp only [if_pos (show byte.toNat ≤ 0x7f by omega), UInt8.ofNat_toNat]
    rfl
  · cases lead : Pending.ofLead? byte with
    | none =>
      rw [decodeFrom, if_neg small, lead] at ran
      cases ran
    | some begun =>
      rw [decodeFrom_lead small lead] at ran
      rcases of_ofLead? lead with ⟨a, below, above, rfl⟩ | ⟨a, below, rfl⟩ | ⟨a, below, rfl⟩
      · rw [ofLead?_two a below above] at lead
        cases lead
        exact exists_encodeChar_two above below ran
      · rw [ofLead?_three a below] at lead
        cases lead
        exact exists_encodeChar_three below ran
      · rw [ofLead?_four a below] at lead
        cases lead
        exact exists_encodeChar_four below ran

end

theorem encode_of_decodeFrom {index : Nat} {done text : List Char} {bytes : Bytes}
    (ran : decodeFrom index done none bytes = .ok text) :
    ∃ read, text = done.reverse ++ read ∧ encode read = bytes := by
  induction count : bytes.length using Nat.strong_induction_on generalizing index done bytes with
  | _ n ih =>
    cases bytes with
    | nil =>
      cases ran
      exact ⟨[], (List.append_nil _).symm, rfl⟩
    | cons byte rest =>
      obtain ⟨ch, tail, split⟩ := exists_encodeChar ran
      rw [split, decodeFrom_encodeChar] at ran
      have some := List.length_pos_iff.2 (String.utf8EncodeChar_ne_nil (c := ch))
      have shorter : tail.length < n := by
        rw [← count, split, List.length_append]
        omega
      obtain ⟨read, whole, bytes⟩ := ih tail.length shorter ran rfl
      refine ⟨ch :: read, ?_, ?_⟩
      · rw [whole, List.reverse_cons, List.append_assoc, List.singleton_append]
      · rw [split, ← bytes]
        rfl

theorem encode_of_decode {bytes : Bytes} {text : List Char} (ran : decode bytes = .ok text) :
    encode text = bytes := by
  obtain ⟨read, rfl, spelled⟩ := encode_of_decodeFrom ran
  exact spelled

theorem ofNat_ne_zero {n : Nat} (small : n < 256) (positive : 0 < n) : UInt8.ofNat n ≠ 0 := by
  intro zero
  have value := congrArg UInt8.toNat zero
  rw [toNat_ofNat_small small] at value
  exact absurd value (Nat.ne_of_gt positive)

theorem encodeChar_last {c : Char} (other : c.toNat ≠ 0) :
    ∃ before last, utf8EncodeChar c = before ++ [last] ∧ last ≠ 0 := by
  have code : c.val.toNat = c.toNat := rfl
  have tail : UInt8.ofNat (c.toNat % 0x40 + 0x80) ≠ 0 := ofNat_ne_zero (by omega) (by omega)
  unfold utf8EncodeChar
  rw [code]
  by_cases one : c.toNat ≤ 0x7f
  · simp only [if_pos one]
    exact ⟨[], _, rfl, ofNat_ne_zero (by omega) (by omega)⟩
  by_cases two : c.toNat ≤ 0x7ff
  · simp only [if_neg one, if_pos two]
    exact ⟨[_], _, rfl, tail⟩
  by_cases three : c.toNat ≤ 0xffff
  · simp only [if_neg one, if_neg two, if_pos three]
    exact ⟨[_, _], _, rfl, tail⟩
  · simp only [if_neg one, if_neg two, if_neg three]
    exact ⟨[_, _, _], _, rfl, tail⟩

end Wireform.Text.Utf8
