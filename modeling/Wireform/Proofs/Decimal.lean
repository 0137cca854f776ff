import Wireform.Proofs.Acceptance

/-!
Decimal digits that enter integer fields. A numeral enters as the number that it stands for or not
at all; one that is too large is told from one that is no numeral by what is met first. So an
integer that travels as digits comes back as itself.
-/

namespace Wireform

namespace Numeral

/-- The number that decimal digits come to. -/
def number (digits : List Char) : Nat :=
  Nat.ofDigitChars 10 digits 0

variable {value : Nat} {front : List Char} (each : ∀ d ∈ front, d.isDigit = true)

include each

theorem readFrom_append (small : Nat.ofDigitChars 10 front value < UInt64.size) (rest : List Char) :
    readFrom value (front ++ rest) = readFrom (Nat.ofDigitChars 10 front value) rest := by
  induction front generalizing value with
  | nil => rfl
  | cons c front ih =>
    obtain ⟨digit, others⟩ := List.forall_mem_cons.1 each
    rw [Nat.ofDigitChars_cons, Nat.mul_comm] at small ⊢
    have fits := (le_ofDigitChars front _).trans_lt small
    rw [List.cons_append, readFrom, if_pos (isDigit_iff.1 digit)]
    simp only [fits, if_true]
    exact ih others small

/-- Digits in front that leave the range settle the answer, whatever follows them. -/
theorem readFrom_of_large (bound : value < UInt64.size)
    (large : UInt64.size ≤ Nat.ofDigitChars 10 front value) (rest : List Char) :
    readFrom value (front ++ rest) = .error .overflow := by
  induction front generalizing value with
  | nil => exact absurd bound (Nat.not_lt.2 large)
  | cons c front ih =>
    obtain ⟨digit, others⟩ := List.forall_mem_cons.1 each
    rw [Nat.ofDigitChars_cons, Nat.mul_comm] at large
    rw [List.cons_append, readFrom, if_pos (isDigit_iff.1 digit)]
    by_cases fits : value * 10 + (c.toNat - '0'.toNat) < UInt64.size
    · simp only [fits, if_true]
      exact ih others fits large
    · simp only [fits, if_false]

variable {text rest : List Char} {c : Char}

theorem read_of_large (large : UInt64.size ≤ number front) (split : unsigned text = front ++ rest) :
    read text = .error .overflow := by
  have some : unsigned text ≠ [] := by
    rw [split]
    rintro none
    obtain ⟨rfl, -⟩ := List.append_eq_nil_iff.1 none
    exact absurd large (by decide)
  rw [read_eq, if_neg some, split, readFrom_of_large each (by decide) large]
  rfl

theorem read_of_break (small : number front < UInt64.size) (other : c.isDigit = false)
    (split : unsigned text = front ++ c :: rest) : read text = .error .malformed := by
  have some : unsigned text ≠ [] :=
    split ▸ List.append_ne_nil_of_right_ne_nil front (List.cons_ne_nil c rest)
  have stop : ¬ ('0' ≤ c ∧ c ≤ '9') := fun digit =>
    absurd (isDigit_iff.2 digit) (Bool.eq_false_iff.1 other)
  rw [read_eq, if_neg some, split, readFrom_append each small, readFrom, if_neg stop]
  rfl

end Numeral

namespace FieldType

/-- The integer that a field holds, if it holds one. -/
def number? : (type : FieldType) → type.Carrier → Option Int
  | uint8, n => some n.toNat
  | uint16, n => some n.toNat
  | uint32, n => some n.toNat
  | uint64, n => some n.toNat
  | int8, n => some n.toInt
  | int16, n => some n.toInt
  | int32, n => some n.toInt
  | bool, _ | bytes, _ | string, _ | value, _ => none

def signed : FieldType → Bool
  | int8 | int16 | int32 => true
  | uint8 | uint16 | uint32 | uint64 | bool | bytes | string | value => false

/-- What a field reads `width` bytes as that come to `n`: a signed one, as two's complement. -/
def reading (type : FieldType) (width n : Nat) : Int :=
  if type.signed = true ∧ 256 ^ width ≤ 2 * n then n - (256 ^ width : Nat) else n

variable {type : FieldType} {width : Nat} {word : UInt64}

theorem reading_ofSigned (integer : type.width? = some width) (sign : type.signed = true)
    {value : Int64} (least : -(256 ^ width : Nat) ≤ 2 * value.toInt)
    (most : 2 * value.toInt < (256 ^ width : Nat)) :
    type.reading width (Width.ofSigned value width).toNat = value.toInt := by
  have kept := Width.toNat_ofSigned (bits_le integer) value
  rw [two_pow_bits integer] at kept
  unfold reading
  rcases lt_or_ge value.toInt 0 with negative | positive
  · rw [← Int.add_emod_right, Int.emod_eq_of_lt (by omega) (by omega)] at kept
    rw [if_pos ⟨sign, by omega⟩]
    omega
  · rw [Int.emod_eq_of_lt positive (by omega)] at kept
    rw [if_neg fun wide => by omega]
    exact kept

theorem exists_word (integer : type.width? = some width) (content : type.Carrier) :
    ∃ word, type.toValue content = .uint word := by
  cases type with
  | uint8 | uint16 | uint32 | uint64 | int8 | int16 | int32 => exact ⟨_, rfl⟩
  | bool | bytes | string | value => cases integer

theorem number?_of_toValue (integer : type.width? = some width) {content : type.Carrier}
    (given : type.toValue content = .uint word) :
    type.number? content = some (type.reading width word.toNat) := by
  have plain (unsigned : type.signed = false) : type.reading width word.toNat = word.toNat :=
    if_neg fun wide => Bool.false_ne_true (unsigned.symm.trans wide.1)
  cases type with
  | uint8 | uint16 | uint32 | uint64 => cases given; exact congrArg some (plain rfl).symm
  | int8 =>
    cases given
    have same := content.toInt_toInt64
    have least := content.le_toInt
    have most := content.toInt_lt
    cases integer
    exact congrArg some (same ▸ reading_ofSigned rfl rfl (by omega) (by omega)).symm
  | int16 =>
    cases given
    have same := content.toInt_toInt64
    have least := content.le_toInt
    have most := content.toInt_lt
    cases integer
    exact congrArg some (same ▸ reading_ofSigned rfl rfl (by omega) (by omega)).symm
  | int32 =>
    cases given
    have same := content.toInt_toInt64
    have least := content.le_toInt
    have most := content.toInt_lt
    cases integer
    exact congrArg some (same ▸ reading_ofSigned rfl rfl (by omega) (by omega)).symm
  | bool | bytes | string | value => cases integer

theorem eq_of_number? (integer : type.width? = some width) {a b : type.Carrier}
    (same : type.number? a = type.number? b) : a = b := by
  cases type with
  | uint8 => exact UInt8.toNat_inj.1 (Int.ofNat.inj (Option.some.inj same))
  | uint16 => exact UInt16.toNat_inj.1 (Int.ofNat.inj (Option.some.inj same))
  | uint32 => exact UInt32.toNat_inj.1 (Int.ofNat.inj (Option.some.inj same))
  | uint64 => exact UInt64.toNat_inj.1 (Int.ofNat.inj (Option.some.inj same))
  | int8 => exact Int8.toInt_inj.1 (Option.some.inj same)
  | int16 => exact Int16.toInt_inj.1 (Option.some.inj same)
  | int32 => exact Int32.toInt_inj.1 (Option.some.inj same)
  | bool | bytes | string | value => cases integer

theorem ofValue_eq_ok (integer : type.width? = some width) {v : Value} {content : type.Carrier} :
    type.ofValue v = .ok content ↔
      ∃ word, type.wordOf width v = .ok word ∧ type.toValue content = .uint word := by
  apply Iff.intro
  · intro assigned
    cases taken : type.wordOf width v with
    | error fault => cases assigned.symm.trans (ofValue_of_wordOf_error integer taken)
    | ok word =>
      obtain ⟨held, put, given⟩ := toValue_of_wordOf integer taken
      cases assigned.symm.trans put
      exact ⟨word, rfl, given⟩
  · rintro ⟨word, taken, given⟩
    obtain ⟨held, put, gives⟩ := toValue_of_wordOf integer taken
    have same : held = content := eq_of_number? integer <|
      (number?_of_toValue integer gives).trans (number?_of_toValue integer given).symm
    rw [← same, put]

/-- What an integer field of `width` bytes makes of digits: it takes a numeral whose number it can
hold, as that number, and refuses one that is too large otherwise than what is no numeral. -/
structure TakesDigits (type : FieldType) (width : Nat) (digits : String) : Prop where
  taken : (∃ content, type.ofValue (.digits digits) = .ok content) ↔
    Numeral.unsigned digits.toList ≠ [] ∧
      (∀ c ∈ Numeral.unsigned digits.toList, c.isDigit = true) ∧
      Numeral.number (Numeral.unsigned digits.toList) < 256 ^ width
  result : ∀ content, type.ofValue (.digits digits) = .ok content →
    type.number? content =
      some (type.reading width (Numeral.number (Numeral.unsigned digits.toList)))
  large : (∀ c ∈ Numeral.unsigned digits.toList, c.isDigit = true) →
    256 ^ width ≤ Numeral.number (Numeral.unsigned digits.toList) →
    type.ofValue (.digits digits) = .error (.range (.digits digits type))
  beyond : ∀ front rest, Numeral.unsigned digits.toList = front ++ rest →
    (∀ c ∈ front, c.isDigit = true) → 2 ^ 64 ≤ Numeral.number front →
    type.ofValue (.digits digits) = .error (.range (.digits digits type))
  broken : ∀ front c rest, Numeral.unsigned digits.toList = front ++ c :: rest →
    (∀ d ∈ front, d.isDigit = true) → c.isDigit = false → Numeral.number front < 2 ^ 64 →
    type.ofValue (.digits digits) = .error (.encoding (.digits digits type))
  none : Numeral.unsigned digits.toList = [] →
    type.ofValue (.digits digits) = .error (.encoding (.digits digits type))

section

variable {digits : String}

theorem wordOfDigits_of_malformed (found : Numeral.read digits.toList = .error .malformed) :
    type.wordOfDigits width digits = .error (.encoding (.digits digits type)) := by
  unfold wordOfDigits
  rw [found]

theorem wordOfDigits_of_overflow (found : Numeral.read digits.toList = .error .overflow) :
    type.wordOfDigits width digits = .error (.range (.digits digits type)) := by
  unfold wordOfDigits
  rw [found]

theorem wordOfDigits_of_wide (found : Numeral.read digits.toList = .ok word)
    (wide : ¬ Width.fits word width = true) :
    type.wordOfDigits width digits = .error (.range (.digits digits type)) := by
  unfold wordOfDigits
  rw [found]
  exact if_neg wide

variable (integer : type.width? = some width)

include integer

theorem wordOfDigits_eq_ok_iff : type.wordOfDigits width digits = .ok word ↔
    Numeral.unsigned digits.toList ≠ [] ∧
      (∀ c ∈ Numeral.unsigned digits.toList, c.isDigit = true) ∧
      Numeral.number (Numeral.unsigned digits.toList) = word.toNat ∧ word.toNat < 256 ^ width := by
  rw [wordOfDigits_eq_ok, Numeral.read_eq_ok_iff, Width.fits_iff, two_pow_bits integer,
    and_assoc, and_assoc]
  rfl

theorem exists_wordOfDigits (some : Numeral.unsigned digits.toList ≠ [])
    (each : ∀ c ∈ Numeral.unsigned digits.toList, c.isDigit = true)
    (small : Numeral.number (Numeral.unsigned digits.toList) < 256 ^ width) :
    ∃ word, type.wordOfDigits width digits = .ok word := by
  have room : 256 ^ width ≤ UInt64.size :=
    two_pow_bits integer ▸ Nat.pow_le_pow_right (by decide) (bits_le integer)
  have kept : (UInt64.ofNat (Numeral.number (Numeral.unsigned digits.toList))).toNat = _ :=
    UInt64.toNat_ofNat_of_lt' (small.trans_le room)
  exact ⟨_, (wordOfDigits_eq_ok_iff integer).2 ⟨some, each, kept.symm, kept.symm ▸ small⟩⟩

/-- Decimal digits that come to more than the field can hold are out of range, whether or not they
come to more than a word. -/
theorem wordOfDigits_of_large
    (each : ∀ c ∈ Numeral.unsigned digits.toList, c.isDigit = true)
    (large : 256 ^ width ≤ Numeral.number (Numeral.unsigned digits.toList)) :
    type.wordOfDigits width digits = .error (.range (.digits digits type)) := by
  rcases Nat.lt_or_ge (Numeral.number (Numeral.unsigned digits.toList)) UInt64.size with
    small | beyond
  · have some : Numeral.unsigned digits.toList ≠ [] := by
      intro none
      have positive : 0 < 256 ^ width := Nat.pow_pos (by decide)
      rw [none] at large
      exact absurd large (Nat.not_le.2 positive)
    have kept : (UInt64.ofNat (Numeral.number (Numeral.unsigned digits.toList))).toNat = _ :=
      UInt64.toNat_ofNat_of_lt' small
    have found := Numeral.read_eq_ok_iff.2 ⟨some, each, kept.symm⟩
    refine wordOfDigits_of_wide found fun fits => ?_
    have held := ((wordOfDigits_eq_ok_iff integer).1 (wordOfDigits_eq_ok.2 ⟨found, fits⟩)).2.2.2
    rw [kept] at held
    exact absurd large (Nat.not_le.2 held)
  · exact wordOfDigits_of_overflow
      (Numeral.read_of_large each beyond (List.append_nil _).symm)

theorem takesDigits (digits : String) : type.TakesDigits width digits where
  taken := by
    apply Iff.intro
    · rintro ⟨content, assigned⟩
      obtain ⟨word, taken, -⟩ := (ofValue_eq_ok integer).1 assigned
      obtain ⟨some, each, same, small⟩ := (wordOfDigits_eq_ok_iff integer).1 taken
      exact ⟨some, each, same ▸ small⟩
    · rintro ⟨some, each, small⟩
      obtain ⟨word, found⟩ := exists_wordOfDigits integer some each small
      have taken : type.wordOf width (.digits digits) = .ok word := found
      obtain ⟨content, assigned, -⟩ := toValue_of_wordOf integer taken
      exact ⟨content, assigned⟩
  result content assigned := by
    obtain ⟨word, taken, given⟩ := (ofValue_eq_ok integer).1 assigned
    obtain ⟨-, -, same, -⟩ := (wordOfDigits_eq_ok_iff integer).1 taken
    rw [number?_of_toValue integer given, same]
  large each large := ofValue_of_wordOf_error integer (wordOfDigits_of_large integer each large)
  beyond front rest split each large := ofValue_of_wordOf_error integer <|
    wordOfDigits_of_overflow (Numeral.read_of_large each large split)
  broken front c rest split each other small := ofValue_of_wordOf_error integer <|
    wordOfDigits_of_malformed (Numeral.read_of_break each small other split)
  none empty := by
    have found : Numeral.read digits.toList = .error .malformed := by
      rw [Numeral.read_eq, if_pos empty]
    exact ofValue_of_wordOf_error integer (wordOfDigits_of_malformed found)

theorem exists_ofValue_uint (word : UInt64) : ∃ content, type.ofValue (.uint word) = .ok content ∧
    type.number? content = some (type.reading width (word.toNat % 256 ^ width)) := by
  have taken : type.wordOf width (.uint word) = .ok (Width.truncate word width) := rfl
  obtain ⟨content, assigned, given⟩ := toValue_of_wordOf integer taken
  refine ⟨content, assigned, ?_⟩
  rw [number?_of_toValue integer given, Width.toNat_truncate, two_pow_bits integer]

theorem ofValue_numeral {content : type.Carrier} (given : type.toValue content = .uint word) :
    type.ofValue (.digits (toString word.toNat)) = .ok content := by
  have different : type ≠ .bool := by
    rintro rfl
    cases integer
  obtain ⟨held, assigned⟩ := ofValue_of_numeral given different
  obtain ⟨other, taken, gives⟩ := (ofValue_eq_ok integer).1 assigned
  have same : other = word := by
    have found := (wordOfDigits_eq_ok.1 taken).1
    rw [Nat.toString_eq_repr, Nat.toList_repr, Numeral.read_toDigits] at found
    exact (Except.ok.inj found).symm
  rw [same] at gives
  exact (ofValue_eq_ok integer).2 ⟨word, same ▸ taken, given⟩

end

end FieldType

namespace Codec

open Cursor

variable {type : FieldType} {width limit n : Nat} {field : Descriptor} {wire : Bytes}

theorem decode_encoded_integer (integer : type.width? = some width) {content : type.Carrier}
    (ran : Codec.bcd.encode limit field (type.toValue content) ([] : Bytes) = .ok n wire) :
    ∃ digits, type.ofValue (.digits digits) = .ok content ∧
      ∀ rest, (field.mode = .remaining → rest = []) →
        Takes (Codec.bcd.decode limit field) wire rest (.digits digits) := by
  obtain ⟨word, given⟩ := FieldType.exists_word integer content
  refine ⟨toString word.toNat, FieldType.ofValue_numeral integer given, fun rest last => ?_⟩
  obtain ⟨written, -⟩ := frame_of_encode ran
  have takes := takes_of_frame written nofun last
  rwa [given] at takes

end Codec

namespace FieldType

open Cursor

/-- Digits enter an integer field as the number that they spell or not at all, where a plain number
would be cut. So an integer that is written as digits comes back as itself, from any source. -/
theorem digits_enter_exactly (type : FieldType) (width : Nat)
    (integer : type.width? = some width) :
    (∀ digits, type.TakesDigits width digits) ∧
    (∀ word : UInt64, ∃ content, type.ofValue (.uint word) = .ok content ∧
      type.number? content = some (type.reading width (word.toNat % 256 ^ width))) ∧
    ∀ (limit : Nat) (field : Descriptor) (content : type.Carrier) (n : Nat) (wire : Bytes),
      Codec.bcd.encode limit field (type.toValue content) ([] : Bytes) = .ok n wire →
      ∃ digits, type.ofValue (.digits digits) = .ok content ∧
        (∀ done rest, (field.mode = .remaining → rest = []) →
          Codec.bcd.decode limit field (between done (wire ++ rest)) =
            .ok (.digits digits) (between (done ++ wire) rest)) ∧
        ∀ {σ : Type} [Source σ] [Supply σ] {source : σ} {taken : Nat},
          Supply.Holds source taken wire → ∃ after,
            Codec.bcd.decode limit field source = .ok (.digits digits) after ∧
              Supply.Holds after (taken + wire.length) [] := by
  refine ⟨takesDigits integer, exists_ofValue_uint integer, fun limit field content n wire ran => ?_⟩
  obtain ⟨digits, assigned, takes⟩ := Codec.decode_encoded_integer integer ran
  refine ⟨digits, assigned, fun done rest last => takes rest last done,
    fun {σ} _ _ source taken holds => ?_⟩
  rw [← List.append_nil wire] at holds
  have alike : Alike True (Codec.bcd.decode limit field : Transfer Cursor Value)
      (Codec.bcd.decode limit field : Transfer σ Value) := Codec.bcd.alike_decode limit fun _ => trivial
  exact alike.run_of_takes (takes [] fun _ => rfl) (fun _ => rfl) holds

/-- Two hundred, with a sign, is read as a negative number; 256 is too large, also behind a zero, and
a letter spoils what is too large for the byte but not for a word. A negative number comes back. -/
theorem digits_enter_exactly_signed :
    width? .int8 = some 1 ∧
    (∃ content, ofValue .int8 (.digits "+200") = .ok content ∧
      number? .int8 content = some (-56)) ∧
    ofValue .int8 (.digits "0256") = .error (.range (.digits "0256" .int8)) ∧
    ofValue .int8 (.digits "300a") = .error (.encoding (.digits "300a" .int8)) ∧
    ∃ digits, ofValue .int8 (.digits digits) = .ok (-3 : Int8) ∧
      Codec.bcd.decode 8 (.sized .bcd 2) (between [0xff] ([0x02, 0x53] ++ [0x07])) =
        .ok (.digits digits) (between ([0xff] ++ [0x02, 0x53]) [0x07]) := by
  obtain ⟨entering, -, returning⟩ := digits_enter_exactly .int8 1 rfl
  have decimal (digits : List Char) (all : digits.all Char.isDigit = true) :
      ∀ c ∈ digits, c.isDigit = true := List.all_eq_true.1 all
  obtain ⟨content, assigned⟩ := (entering "+200").taken.2
    ⟨by decide +kernel, decimal _ (by decide +kernel), by decide +kernel⟩
  have read : reading .int8 1 (Numeral.number (Numeral.unsigned "+200".toList)) = -56 := by
    decide +kernel
  have large := (entering "0256").large (decimal _ (by decide +kernel)) (by decide +kernel)
  have broken := (entering "300a").broken "300".toList 'a' [] (by decide +kernel)
    (decimal _ (by decide +kernel)) (by decide) (by decide +kernel)
  have wrote : Codec.bcd.encode 8 (.sized .bcd 2) (toValue .int8 (-3 : Int8)) ([] : Bytes) =
      .ok 2 [0x02, 0x53] := rfl
  obtain ⟨digits, taken, decoded, -⟩ := returning 8 (.sized .bcd 2) (-3 : Int8) 2 _ wrote
  exact ⟨rfl, ⟨content, assigned, read ▸ (entering "+200").result content assigned⟩, large, broken,
    digits, taken, decoded [0xff] [0x07] nofun⟩

end FieldType

end Wireform
