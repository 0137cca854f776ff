import Wireform.Proofs.Utf8

/-!
Well-formed UTF-8 by its table. The bytes of a character take one of nine forms, each a range for
every byte; long forms, surrogates and what lies past the last character have none. Each form spells
a character and each character takes a form, so what is well formed is just what can be read.
-/

namespace Wireform.Text.Utf8

open String (utf8EncodeChar)

structure Range where
  low : Nat
  high : Nat

def Range.Holds (range : Range) (byte : UInt8) : Prop :=
  range.low ≤ byte.toNat ∧ byte.toNat ≤ range.high

/-- Any byte of a character but the first. -/
def Range.tail : Range :=
  ⟨0x80, 0xbf⟩

theorem Range.holds_tail_iff {byte : UInt8} :
    Range.tail.Holds byte ↔ 0x80 ≤ byte.toNat ∧ byte.toNat ≤ 0xbf :=
  Iff.rfl

def forms : List (List Range) :=
  [[⟨0x00, 0x7f⟩],
    [⟨0xc2, 0xdf⟩, .tail],
    [⟨0xe0, 0xe0⟩, ⟨0xa0, 0xbf⟩, .tail],
    [⟨0xe1, 0xec⟩, .tail, .tail],
    [⟨0xed, 0xed⟩, ⟨0x80, 0x9f⟩, .tail],
    [⟨0xee, 0xef⟩, .tail, .tail],
    [⟨0xf0, 0xf0⟩, ⟨0x90, 0xbf⟩, .tail, .tail],
    [⟨0xf1, 0xf3⟩, .tail, .tail, .tail],
    [⟨0xf4, 0xf4⟩, ⟨0x80, 0x8f⟩, .tail, .tail]]

/-- The bytes of one character. -/
def Sequence (bytes : Bytes) : Prop :=
  ∃ form ∈ forms, List.Forall₂ Range.Holds form bytes

inductive WellFormed : Bytes → Prop where
  | nil : WellFormed []
  | cons {front rest : Bytes} (first : Sequence front) (later : WellFormed rest) :
    WellFormed (front ++ rest)

section

variable {p q r s : UInt8}

theorem sequence_one_iff : Sequence [p] ↔ p.toNat ≤ 0x7f := by
  simp [Sequence, forms, Range.Holds]

theorem sequence_two_iff :
    Sequence [p, q] ↔ (0xc2 ≤ p.toNat ∧ p.toNat ≤ 0xdf) ∧ Range.tail.Holds q := by
  simp [Sequence, forms, Range.Holds]

theorem sequence_three_iff : Sequence [p, q, r] ↔
    (0xe0 ≤ p.toNat ∧ p.toNat ≤ 0xef) ∧ Range.tail.Holds q ∧ Range.tail.Holds r ∧
      (p.toNat = 0xe0 → 0xa0 ≤ q.toNat) ∧ (p.toNat = 0xed → q.toNat ≤ 0x9f) := by
  simp only [Sequence, forms, Range.tail, Range.Holds, List.mem_cons, List.not_mem_nil, or_false,
    exists_eq_or_imp, List.forall₂_cons, List.forall₂_nil_left_iff, List.forall₂_nil_right_iff,
    reduceCtorEq, List.cons_ne_self, and_false, and_true, false_or, or_self, ↓existsAndEq]
  omega

theorem sequence_four_iff : Sequence [p, q, r, s] ↔
    (0xf0 ≤ p.toNat ∧ p.toNat ≤ 0xf4) ∧ Range.tail.Holds q ∧ Range.tail.Holds r ∧
      Range.tail.Holds s ∧ (p.toNat = 0xf0 → 0x90 ≤ q.toNat) ∧
      (p.toNat = 0xf4 → q.toNat ≤ 0x8f) := by
  simp only [Sequence, forms, Range.tail, Range.Holds, List.mem_cons, List.not_mem_nil, or_false,
    exists_eq_or_imp, List.forall₂_cons, List.forall₂_nil_left_iff, List.forall₂_nil_right_iff,
    reduceCtorEq, List.cons_ne_self, and_false, and_true, true_and, false_or, ↓existsAndEq]
  omega

end

theorem sequence_encodeChar (c : Char) : Sequence (utf8EncodeChar c) := by
  have valid : c.toNat.isValidChar := c.valid
  have code : c.val.toNat = c.toNat := rfl
  unfold Nat.isValidChar at valid
  unfold utf8EncodeChar
  rw [code]
  by_cases one : c.toNat ≤ 0x7f
  · simp only [if_pos one, sequence_one_iff]
    rw [toNat_ofNat_small] <;> omega
  by_cases two : c.toNat ≤ 0x7ff
  · simp only [if_neg one, if_pos two, sequence_two_iff, Range.holds_tail_iff]
    rw [toNat_ofNat_small, toNat_ofNat_small] <;> omega
  by_cases three : c.toNat ≤ 0xffff
  · simp only [if_neg one, if_neg two, if_pos three, sequence_three_iff, Range.holds_tail_iff]
    rw [toNat_ofNat_small, toNat_ofNat_small, toNat_ofNat_small] <;> omega
  · simp only [if_neg one, if_neg two, if_neg three, sequence_four_iff, Range.holds_tail_iff]
    rw [toNat_ofNat_small, toNat_ofNat_small, toNat_ofNat_small, toNat_ofNat_small] <;> omega

theorem ofNat_sub_add {low : Nat} {byte : UInt8} (above : low ≤ byte.toNat) :
    UInt8.ofNat (byte.toNat - low + low) = byte := by
  rw [Nat.sub_add_cancel above, UInt8.ofNat_toNat]

section

variable {p q r s : UInt8}

theorem exists_char_one (sequence : Sequence [p]) : ∃ c, utf8EncodeChar c = [p] := by
  have small := sequence_one_iff.1 sequence
  obtain ⟨c, code⟩ := exists_char (v := p.toNat) (by unfold Nat.isValidChar; omega)
  have value : c.val.toNat = p.toNat := code
  use c
  unfold utf8EncodeChar
  simp [value, small]

theorem exists_char_two (sequence : Sequence [p, q]) : ∃ c, utf8EncodeChar c = [p, q] := by
  obtain ⟨lead, second⟩ := sequence_two_iff.1 sequence
  rw [Range.holds_tail_iff] at second
  obtain ⟨c, code⟩ := exists_char (v := (p.toNat - 0xc0) * 64 + (q.toNat - 0x80))
    (by unfold Nat.isValidChar; omega)
  use c
  rw [encodeChar_two (by omega) (by omega) (by omega) code, ofNat_sub_add (by omega),
    ofNat_sub_add second.1]

theorem exists_char_three (sequence : Sequence [p, q, r]) :
    ∃ c, utf8EncodeChar c = [p, q, r] := by
  obtain ⟨lead, second, third, long, surrogate⟩ := sequence_three_iff.1 sequence
  rw [Range.holds_tail_iff] at second third
  obtain ⟨c, code⟩ :=
    exists_char (v := ((p.toNat - 0xe0) * 64 + (q.toNat - 0x80)) * 64 + (r.toNat - 0x80))
      (by unfold Nat.isValidChar; omega)
  use c
  rw [encodeChar_three (by omega) (by omega) (by omega) (by omega) code, ofNat_sub_add lead.1,
    ofNat_sub_add second.1, ofNat_sub_add third.1]

theorem exists_char_four (sequence : Sequence [p, q, r, s]) :
    ∃ c, utf8EncodeChar c = [p, q, r, s] := by
  obtain ⟨lead, second, third, fourth, long, last⟩ := sequence_four_iff.1 sequence
  rw [Range.holds_tail_iff] at second third fourth
  obtain ⟨c, code⟩ := exists_char (v := (((p.toNat - 0xf0) * 64 + (q.toNat - 0x80)) * 64 +
    (r.toNat - 0x80)) * 64 + (s.toNat - 0x80)) (by unfold Nat.isValidChar; omega)
  use c
  rw [encodeChar_four (by omega) (by omega) (by omega) (by omega) (by omega) code,
    ofNat_sub_add lead.1, ofNat_sub_add second.1, ofNat_sub_add third.1, ofNat_sub_add fourth.1]

end

theorem exists_char_of_sequence {bytes : Bytes} (sequence : Sequence bytes) :
    ∃ c, utf8EncodeChar c = bytes := by
  match bytes, sequence with
  | [_], sequence => exact exists_char_one sequence
  | [_, _], sequence => exact exists_char_two sequence
  | [_, _, _], sequence => exact exists_char_three sequence
  | [_, _, _, _], sequence => exact exists_char_four sequence
  | [], sequence | _ :: _ :: _ :: _ :: _ :: _, sequence => simp [Sequence, forms] at sequence

theorem wellFormed_encode (text : List Char) : WellFormed (encode text) := by
  induction text with
  | nil => exact .nil
  | cons c rest ih =>
    have first : encode (c :: rest) = utf8EncodeChar c ++ encode rest := List.flatMap_cons
    rw [first]
    exact .cons (sequence_encodeChar c) ih

theorem exists_encode_of_wellFormed {bytes : Bytes} (formed : WellFormed bytes) :
    ∃ text, encode text = bytes := by
  induction formed with
  | nil => exact ⟨[], rfl⟩
  | cons first later ih =>
    obtain ⟨c, rfl⟩ := exists_char_of_sequence first
    obtain ⟨text, rfl⟩ := ih
    exact ⟨c :: text, List.flatMap_cons⟩

theorem exists_decode_iff {bytes : Bytes} :
    (∃ text, decode bytes = .ok text) ↔ WellFormed bytes := by
  apply Iff.intro
  · intro ⟨text, ran⟩
    rw [← encode_of_decode ran]
    exact wellFormed_encode text
  · intro formed
    obtain ⟨text, rfl⟩ := exists_encode_of_wellFormed formed
    exact ⟨text, decode_encode text⟩

end Wireform.Text.Utf8
