import Mathlib.Data.List.Basic
import Mathlib.Tactic.SplitIfs
import Wireform.Codec.Decode

/-!
What values show. Numbers, bytes and digits are written with digits, and quoted text spells each
line break, so whatever a codec makes of the wire is shown on one line.
-/

namespace Wireform

theorem List.not_mem_intercalate {c : Char} {separator : List Char} {pieces : List (List Char)}
    (outside : c ∉ separator) (each : ∀ piece ∈ pieces, c ∉ piece) :
    c ∉ separator.intercalate pieces := by
  induction pieces with
  | nil => exact List.not_mem_nil
  | cons piece rest ih =>
    obtain ⟨first, others⟩ := List.forall_mem_cons.1 each
    cases rest with
    | nil => rwa [List.intercalate_singleton]
    | cons second rest =>
      rw [List.intercalate_cons_cons, List.mem_append, List.mem_append]
      exact not_or.2 ⟨not_or.2 ⟨first, outside⟩, ih others⟩

namespace Text

namespace Hex

theorem newline_not_mem_ofByte (byte : UInt8) : '\n' ∉ ofByte byte := by
  intro member
  rcases List.mem_pair.1 member with high | low
  · exact Nat.digitChar_ne '\n' rfl high.symm
  · exact Nat.digitChar_ne '\n' rfl low.symm

theorem newline_not_mem_ofBytes (bytes : Bytes) : '\n' ∉ ofBytes bytes := by
  intro member
  obtain ⟨byte, -, here⟩ := List.mem_flatMap.1 member
  exact newline_not_mem_ofByte byte here

theorem exists_digit_of_mem_toDigits {base n : Nat} (proper : 1 < base) {c : Char}
    (member : c ∈ Nat.toDigits base n) : ∃ digit < base, digit.digitChar = c := by
  induction n using Nat.strongRecOn with
  | ind n ih =>
    rw [Nat.toDigits_eq_if proper] at member
    split at member
    next small => exact ⟨n, small, (List.mem_singleton.1 member).symm⟩
    next large =>
      have shorter : n / base < n := Nat.div_lt_self (by omega) proper
      rcases List.mem_append.1 member with front | last
      · exact ih _ shorter front
      · exact ⟨n % base, Nat.mod_lt _ (by omega), (List.mem_singleton.1 last).symm⟩

theorem newline_not_mem_ofNat (n : Nat) : '\n' ∉ ofNat n := by
  intro member
  obtain ⟨digit, -, same⟩ := exists_digit_of_mem_toDigits (by decide) member
  exact Nat.digitChar_ne '\n' rfl same

theorem newline_not_mem_upperOfNat (n : Nat) : '\n' ∉ upperOfNat n := by
  have table : ∀ digit < 16, digit.digitChar.toUpper ≠ '\n' := by decide
  intro member
  obtain ⟨c, lower, same⟩ := List.mem_map.1 member
  obtain ⟨digit, small, rfl⟩ := exists_digit_of_mem_toDigits (by decide) lower
  exact table digit small same

end Hex

theorem newline_not_mem_codePoint (c : Char) : '\n' ∉ codePoint c := by
  unfold codePoint
  rw [List.mem_append, List.mem_append]
  exact not_or.2 ⟨not_or.2 ⟨by decide, Hex.newline_not_mem_ofNat c.toNat⟩, by decide⟩

theorem newline_not_mem_escape {mark : Char} (other : mark ≠ '\n') (c : Char) :
    '\n' ∉ escape mark c := by
  unfold escape
  split_ifs with nul tab ret line back marked plain hidden
  · decide
  · decide
  · decide
  · decide
  · decide
  · exact List.not_mem_cons_of_ne_of_not_mem (by decide) (mt List.mem_singleton.1 (Ne.symm other))
  · exact mt List.mem_singleton.1 (Ne.symm line)
  · exact newline_not_mem_codePoint c
  · exact mt List.mem_singleton.1 (Ne.symm line)

theorem newline_not_mem_quoted (text : String) : '\n' ∉ (quoted text).toList := by
  unfold quoted
  rw [String.toList_ofList, List.mem_append, List.mem_cons, List.mem_flatMap]
  rintro ((mark | ⟨c, -, here⟩) | mark)
  · exact absurd mark (by decide)
  · exact newline_not_mem_escape (by decide) c here
  · exact absurd mark (by decide)

end Text

theorem Digits.newline_not_mem_unpack (bytes : Bytes) : '\n' ∉ (unpack bytes).toList := by
  unfold unpack
  split
  next => decide +kernel
  next =>
    rw [String.toList_ofList]
    exact fun member =>
      Text.Hex.newline_not_mem_ofBytes bytes (List.dropWhile_subset _ member)

namespace Value

theorem newline_not_mem_display_uint (word : UInt64) : '\n' ∉ (uint word).display.toList := by
  unfold display
  simp only [String.toList_append, List.mem_append, not_or, String.toList_ofList]
  refine ⟨⟨⟨?_, by decide +kernel⟩, Text.Hex.newline_not_mem_upperOfNat word.toNat⟩,
    by decide +kernel⟩
  intro member
  rw [Nat.toString_eq_repr, Nat.toList_repr] at member
  obtain ⟨digit, -, same⟩ := Text.Hex.exists_digit_of_mem_toDigits (by decide) member
  exact Nat.digitChar_ne '\n' rfl same

theorem newline_not_mem_display_bytes (data : Bytes) : '\n' ∉ (bytes data).display.toList := by
  unfold display
  simp only [String.toList_append, List.mem_append, not_or, String.toList_intercalate,
    List.map_map]
  refine ⟨⟨by decide +kernel, ?_⟩, by decide +kernel⟩
  apply List.not_mem_intercalate (by decide +kernel)
  intro piece member
  obtain ⟨byte, -, rfl⟩ := List.mem_map.1 member
  rw [Function.comp_apply, String.toList_ofList]
  exact Text.Hex.newline_not_mem_ofByte byte

end Value

/-- What a codec makes of a span is shown on one line, whatever the bytes are. -/
theorem Codec.newline_not_mem_display {codec : Codec} {field : Descriptor} {span : Bytes}
    {value : Value} (read : codec.interpret field span = .ok value) :
    '\n' ∉ value.display.toList := by
  cases codec with
  | byte | word | dword =>
    cases read
    exact Value.newline_not_mem_display_uint _
  | bytes =>
    cases read
    exact Value.newline_not_mem_display_bytes span
  | bcd =>
    cases read
    exact Digits.newline_not_mem_unpack span
  | string =>
    unfold interpret at read
    cases text : field.charset.decode (dropTrailingZeros span) with
    | error fault =>
      rw [text] at read
      cases read
    | ok content =>
      rw [text] at read
      cases read
      exact Text.newline_not_mem_quoted content

end Wireform
