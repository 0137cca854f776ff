import Mathlib.Data.List.Induction
import Wireform.Numeral
import Wireform.Proofs.Digits

/-!
Decimal numerals. A word is read back from its numeral, and a numeral without leading zeros is the
one of the word it is read as.
-/

namespace Wireform.Numeral

theorem isDigit_iff {c : Char} : c.isDigit = true ↔ '0' ≤ c ∧ c ≤ '9' := by
  simp only [Char.isDigit, ge_iff_le, Bool.and_eq_true, decide_eq_true_eq, Char.le_def]

theorem exists_digitChar {c : Char} (digit : c.isDigit = true) : ∃ n < 10, n.digitChar = c := by
  have table : ∀ code < 58, (Char.ofNat code).isDigit = true →
      code - 48 < 10 ∧ (code - 48).digitChar = Char.ofNat code := by decide
  have below : c.toNat ≤ 57 := (isDigit_iff.1 digit).2
  have entry := table c.toNat (by omega)
  rw [Char.ofNat_toNat] at entry
  exact ⟨c.toNat - 48, entry digit⟩

theorem le_ofDigitChars (digits : List Char) (value : Nat) :
    value ≤ Nat.ofDigitChars 10 digits value := by
  rw [Nat.ofDigitChars_eq_ofDigitChars_zero]
  have grown : 1 * value ≤ 10 ^ digits.length * value :=
    Nat.mul_le_mul_right value (Nat.one_le_pow _ 10 (by decide))
  omega

theorem readFrom_eq_ok {value n : Nat} {digits : List Char} (bound : value < UInt64.size) :
    readFrom value digits = .ok n ↔
      (∀ c ∈ digits, c.isDigit = true) ∧ Nat.ofDigitChars 10 digits value = n ∧
        n < UInt64.size := by
  induction digits generalizing value with
  | nil =>
    unfold readFrom
    rw [Except.ok.injEq, Nat.ofDigitChars_nil]
    refine ⟨fun same => ⟨nofun, same, same ▸ bound⟩, fun read => read.2.1⟩
  | cons c rest ih =>
    unfold readFrom
    rw [List.forall_mem_cons, isDigit_iff, Nat.ofDigitChars_cons, Nat.mul_comm 10]
    by_cases digit : '0' ≤ c ∧ c ≤ '9'
    · rw [if_pos digit]
      by_cases fits : value * 10 + (c.toNat - '0'.toNat) < UInt64.size
      · simp only [fits, if_true]
        rw [ih fits, and_iff_right digit]
      · simp only [fits, if_false]
        refine ⟨nofun, fun read => ?_⟩
        obtain ⟨-, same, small⟩ := read
        have grown := le_ofDigitChars rest (value * 10 + (c.toNat - '0'.toNat))
        omega
    · rw [if_neg digit]
      exact ⟨nofun, fun read => absurd read.1.1 digit⟩

/-- What follows the plus sign of a numeral; without one, all of it. -/
def unsigned : List Char → List Char
  | '+' :: rest => rest
  | text => text

theorem unsigned_of_ne {c : Char} (different : c ≠ '+') (rest : List Char) :
    unsigned (c :: rest) = c :: rest := by
  unfold unsigned
  split
  next same => cases same; exact absurd rfl different
  next => rfl

theorem read_eq (text : List Char) :
    read text = if unsigned text = [] then .error .malformed
      else (readFrom 0 (unsigned text)).map UInt64.ofNat := by
  unfold read
  split
  next => rfl
  next => rfl
  next rest more => exact (if_neg fun none => more none).symm
  next some more plain =>
    have all : unsigned text = text := by
      unfold unsigned
      split
      next rest => exact absurd rfl (plain rest)
      next => rfl
    rw [all, if_neg some]

/-- A numeral is digits, with or without a sign, and is read as their number if that is a word. -/
theorem read_eq_ok_iff {text : List Char} {word : UInt64} :
    read text = .ok word ↔ unsigned text ≠ [] ∧ (∀ d ∈ unsigned text, d.isDigit = true) ∧
      Nat.ofDigitChars 10 (unsigned text) 0 = word.toNat := by
  rw [read_eq]
  by_cases none : unsigned text = []
  · rw [if_pos none]
    exact ⟨nofun, fun ran => absurd none ran.1⟩
  rw [if_neg none, and_iff_right none]
  apply Iff.intro
  · intro ran
    obtain ⟨n, found, rfl⟩ := Except.map_eq_ok.1 ran
    obtain ⟨digits, value, small⟩ := (readFrom_eq_ok (by decide)).1 found
    have kept : (UInt64.ofNat n).toNat = n := UInt64.toNat_ofNat_of_lt' small
    exact ⟨digits, by rw [kept, value]⟩
  · intro ran
    have found := (readFrom_eq_ok (by decide)).2 ⟨ran.1, ran.2, word.toNat_lt⟩
    exact Except.map_eq_ok.2 ⟨word.toNat, found, UInt64.ofNat_toNat⟩

theorem read_eq_ok {c : Char} (different : c ≠ '+') {rest : List Char} {word : UInt64} :
    read (c :: rest) = .ok word ↔ (∀ d ∈ c :: rest, d.isDigit = true) ∧
      Nat.ofDigitChars 10 (c :: rest) 0 = word.toNat := by
  rw [read_eq_ok_iff, unsigned_of_ne different, and_iff_right (List.cons_ne_nil c rest)]

theorem read_toDigits (word : UInt64) : read (Nat.toDigits 10 word.toNat) = .ok word := by
  have digit : ∀ d ∈ Nat.toDigits 10 word.toNat, d.isDigit = true := fun d member =>
    Nat.isDigit_of_mem_toDigits (by decide) (by decide) member
  have value : Nat.ofDigitChars 10 (Nat.toDigits 10 word.toNat) 0 = word.toNat :=
    Nat.ofDigitChars_ten_toDigits
  cases spelled : Nat.toDigits 10 word.toNat with
  | nil => exact absurd spelled Nat.toDigits_ne_nil
  | cons c rest =>
    rw [spelled] at digit value
    have different : c ≠ '+' := by
      intro sign
      have first := digit c (List.mem_cons_self ..)
      rw [sign] at first
      exact absurd first (by decide)
    exact (read_eq_ok different).2 ⟨digit, value⟩

theorem head?_toDigits {n : Nat} (positive : 0 < n) : (Nat.toDigits 10 n).head? ≠ some '0' := by
  induction n using Nat.strongRecOn with
  | ind n ih =>
    by_cases low : n < 10
    · rw [Nat.toDigits_of_lt_base low, List.head?_cons, Ne, Option.some.injEq,
        Nat.digitChar_eq_zero]
      omega
    · rw [Nat.toDigits_of_base_le (by decide) (by omega),
        List.head?_append_of_ne_nil _ Nat.toDigits_ne_nil]
      exact ih (n / 10) (by omega) (by omega)

theorem toDigits_ofDigitChars {digits : List Char} (some : digits ≠ [])
    (each : ∀ d ∈ digits, d.isDigit = true) (trimmed : digits.head? = .some '0' → digits = ['0']) :
    Nat.toDigits 10 (Nat.ofDigitChars 10 digits 0) = digits := by
  induction digits using List.reverseRecOn with
  | nil => exact absurd rfl some
  | append_singleton front d ih =>
    have last := each d (List.mem_append_right _ (List.mem_singleton_self d))
    obtain ⟨n, low, rfl⟩ := exists_digitChar last
    rw [Nat.ofDigitChars_append, Nat.ofDigitChars_cons_digitChar_of_lt_ten low,
      Nat.ofDigitChars_nil]
    by_cases none : front = []
    · subst none
      rw [Nat.ofDigitChars_nil, Nat.mul_zero, Nat.zero_add, Nat.toDigits_of_lt_base low,
        List.nil_append]
    · have leading : front.head? ≠ .some '0' := by
        intro zero
        have whole := trimmed (by rw [List.head?_append, zero]; rfl)
        obtain ⟨c, rest, rfl⟩ := List.exists_cons_of_ne_nil none
        have count := congrArg List.length whole
        simp only [List.cons_append, List.length_cons, List.length_append, List.length_nil] at count
        omega
      have spelled := ih none (fun e member => each e (List.mem_append_left _ member))
        fun zero => absurd zero leading
      have positive : 0 < Nat.ofDigitChars 10 front 0 := by
        refine Nat.pos_of_ne_zero fun zero => ?_
        rw [zero, Nat.toDigits_zero] at spelled
        rw [← spelled] at leading
        exact leading rfl
      rw [← Nat.toDigits_append_toDigits (by decide) positive low, spelled,
        Nat.toDigits_of_lt_base low]

end Wireform.Numeral

namespace Wireform.Digits

open Text.Hex

theorem trim_toString (n : Nat) :
    trim ((toString n).toList.map Char.toLower) = toString n := by
  have same : (toString n).toList.map Char.toLower = Nat.toDigits 10 n := by
    rw [Nat.toString_eq_repr, Nat.toList_repr]
    conv_rhs => rw [← List.map_id (Nat.toDigits 10 n)]
    apply List.map_congr_left
    intro d member
    have digit := Nat.isDigit_of_mem_toDigits (by decide) (by decide) member
    obtain ⟨m, low, rfl⟩ := Numeral.exists_digitChar digit
    interval_cases m <;> rfl
  have numeral : toString n = String.ofList (Nat.toDigits 10 n) := Nat.toString_eq_ofList_toDigits
  rw [same, numeral]
  by_cases zero : n = 0
  · subst zero
    rfl
  · have leading := Numeral.head?_toDigits (Nat.pos_of_ne_zero zero)
    cases spelled : Nat.toDigits 10 n with
    | nil => exact absurd spelled Nat.toDigits_ne_nil
    | cons c rest =>
      rw [spelled, List.head?_cons, Ne, Option.some.injEq] at leading
      exact trim_of_ne leading rest

theorem exists_unpack (bytes : Bytes) : ∃ c rest, (unpack bytes).toList = c :: rest ∧ c ≠ '+' ∧
    (c = '0' → rest = []) := by
  rw [unpack_eq, ofBytes_eq, trim]
  cases kept : (((nibbles bytes).map Nat.digitChar).dropWhile (· == '0')) with
  | nil => exact ⟨'0', [], by decide +kernel, by decide, fun _ => rfl⟩
  | cons c rest =>
    have suffix := List.dropWhile_suffix (p := (· == '0')) (l := (nibbles bytes).map Nat.digitChar)
    rw [kept] at suffix
    obtain ⟨n, member, digit⟩ := List.mem_map.1 (suffix.subset (List.mem_cons_self ..))
    have low := nibbles_low bytes n member
    have stops := List.head_dropWhile_not (· == '0') (kept ▸ List.cons_ne_nil c rest)
    simp only [kept, List.head_cons, beq_eq_false_iff_ne] at stops
    refine ⟨c, rest, String.toList_ofList, ?_, fun zero => absurd zero stops⟩
    rw [← digit]
    interval_cases n <;> decide

theorem toString_of_read {bytes : Bytes} {word : UInt64}
    (ran : Numeral.read (unpack bytes).toList = .ok word) :
    toString word.toNat = unpack bytes := by
  obtain ⟨c, rest, spelled, unsigned, leading⟩ := exists_unpack bytes
  rw [spelled] at ran
  obtain ⟨each, value⟩ := (Numeral.read_eq_ok unsigned).1 ran
  have numeral : Nat.toDigits 10 word.toNat = c :: rest := by
    rw [← value]
    apply Numeral.toDigits_ofDigitChars (List.cons_ne_nil c rest) each
    intro zero
    rw [List.head?_cons, Option.some.injEq] at zero
    rw [zero, leading zero]
  apply String.toList_inj.1
  rw [spelled, Nat.toString_eq_repr, Nat.toList_repr, numeral]

end Wireform.Digits
