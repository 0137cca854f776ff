import Mathlib.Data.List.Induction
import Wireform.Codec.Decode
import Wireform.Proofs.Utf8

/-!
Character sets there and back. A text is read back from its bytes, bytes are what the text they are
read as is written in, and zeros at the end of the bytes are the zero characters at its end.
-/

namespace Wireform.Charset

/-- A text without the zero characters at its end. -/
def trimEnd (text : String) : String :=
  String.ofList (text.toList.reverse.dropWhile (·.toNat == 0)).reverse

theorem encodeNarrow_eq_ok {charset : Charset} {bound : Nat} {text : List Char} {bytes : Bytes} :
    charset.encodeNarrow bound text = .ok bytes ↔
      List.Forall₂ (fun c byte => c.toNat < bound ∧ UInt8.ofNat c.toNat = byte) text bytes := by
  unfold encodeNarrow
  rw [Except.mapM_eq_ok]
  have each (c : Char) (byte : UInt8) :
      (if c.toNat < bound then Except.ok (UInt8.ofNat c.toNat)
        else .error (.encoding (.character c charset)) : Except Fault UInt8) = .ok byte ↔
        c.toNat < bound ∧ UInt8.ofNat c.toNat = byte := by
    by_cases small : c.toNat < bound
    · rw [if_pos small, Except.ok.injEq, and_iff_right small]
    · rw [if_neg small]
      exact ⟨nofun, fun both => absurd both.1 small⟩
  exact ⟨fun all => all.imp fun c byte => (each c byte).1,
    fun all => all.imp fun c byte => (each c byte).2⟩

theorem of_narrow {bound : Nat} (small : bound ≤ 0x100) {text : List Char} {bytes : Bytes}
    (narrow : List.Forall₂ (fun c byte => c.toNat < bound ∧ UInt8.ofNat c.toNat = byte) text
      bytes) :
    decodeNarrow bytes = String.ofList text ∧ ∀ byte ∈ bytes, byte.toNat < bound := by
  have both : bytes.map (fun byte => Char.ofNat byte.toNat) = text ∧
      ∀ byte ∈ bytes, byte.toNat < bound := by
    induction narrow with
    | nil => exact ⟨rfl, nofun⟩
    | cons first rest ih =>
      obtain ⟨below, rfl⟩ := first
      rw [List.map_cons, ih.1, List.forall_mem_cons, UInt8.toNat_ofNat',
        Nat.mod_eq_of_lt (by omega), Char.ofNat_toNat]
      exact ⟨rfl, below, ih.2⟩
  exact ⟨congrArg String.ofList both.1, both.2⟩

theorem toNat_ofNat_byte (byte : UInt8) : (Char.ofNat byte.toNat).toNat = byte.toNat := by
  have table : ∀ n < 256, (Char.ofNat n).toNat = n := by decide +kernel
  exact table byte.toNat byte.toNat_lt

theorem encodeNarrow_decodeNarrow {charset : Charset} {bound : Nat} {bytes : Bytes}
    (small : ∀ byte ∈ bytes, byte.toNat < bound) :
    charset.encodeNarrow bound (decodeNarrow bytes).toList = .ok bytes := by
  rw [encodeNarrow_eq_ok, decodeNarrow, String.toList_ofList, List.forall₂_map_left_iff]
  refine List.forall₂_same.2 fun byte member => ?_
  rw [toNat_ofNat_byte, UInt8.ofNat_toNat]
  exact ⟨small byte member, rfl⟩

theorem find?_none_iff {bytes : Bytes} :
    bytes.find? (0x80 ≤ ·) = none ↔ ∀ byte ∈ bytes, byte.toNat < 0x80 := by
  simp only [List.find?_eq_none, decide_eq_true_eq, UInt8.not_le, UInt8.lt_iff_toNat_lt]
  rfl

variable {charset : Charset} {text : String} {bytes : Bytes}

theorem decode_of_encode (ran : charset.encode text = .ok bytes) :
    charset.decode bytes = .ok text := by
  cases charset with
  | utf8 =>
    cases ran
    unfold decode
    rw [Text.Utf8.decode_encode]
    exact congrArg Except.ok (String.ofList_toList)
  | ascii =>
    obtain ⟨read, small⟩ := of_narrow (by decide) (encodeNarrow_eq_ok.1 ran)
    unfold decode
    rw [find?_none_iff.2 small]
    exact congrArg Except.ok (read.trans String.ofList_toList)
  | latin1 =>
    obtain ⟨read, -⟩ := of_narrow (Nat.le_refl _) (encodeNarrow_eq_ok.1 ran)
    exact congrArg Except.ok (read.trans String.ofList_toList)

theorem encode_of_decode (ran : charset.decode bytes = .ok text) :
    charset.encode text = .ok bytes := by
  unfold decode at ran
  cases charset with
  | utf8 =>
    cases read : Text.Utf8.decode bytes with
    | error fault => simp only [read] at ran; cases ran
    | ok chars =>
      simp only [read] at ran
      cases ran
      have written : Text.Utf8.encode (String.ofList chars).toList = bytes := by
        rw [String.toList_ofList, Text.Utf8.encode_of_decode read]
      exact congrArg Except.ok written
  | ascii =>
    cases found : bytes.find? (0x80 ≤ ·) with
    | some byte => simp only [found] at ran; cases ran
    | none =>
      simp only [found] at ran
      cases ran
      exact encodeNarrow_decodeNarrow (find?_none_iff.1 found)
  | latin1 =>
    cases ran
    exact encodeNarrow_decodeNarrow fun byte _ => byte.toNat_lt

section

variable {front : List Char} {c : Char}

theorem encode_concat (ran : charset.encode (String.ofList (front ++ [c])) = .ok bytes) :
    ∃ before last, charset.encode (String.ofList front) = .ok before ∧
      charset.encode (String.ofList [c]) = .ok last ∧ bytes = before ++ last := by
  have narrow {charset : Charset} {bound : Nat}
      (ran : charset.encodeNarrow bound (front ++ [c]) = .ok bytes) :
      ∃ before last, charset.encodeNarrow bound front = .ok before ∧
        charset.encodeNarrow bound [c] = .ok last ∧ bytes = before ++ last := by
    unfold encodeNarrow at ran
    rw [List.mapM_append] at ran
    obtain ⟨before, wrote, ran⟩ := Except.bind_eq_ok.1 ran
    obtain ⟨last, wroteLast, same⟩ := Except.bind_eq_ok.1 ran
    cases same
    exact ⟨before, last, wrote, wroteLast, rfl⟩
  unfold encode at ran ⊢
  simp only [String.toList_ofList] at ran ⊢
  cases charset with
  | utf8 =>
    cases ran
    exact ⟨_, _, rfl, rfl, List.flatMap_append⟩
  | ascii => exact narrow ran
  | latin1 => exact narrow ran

theorem encode_last (ran : charset.encode (String.ofList [c]) = .ok bytes) :
    if c.toNat = 0 then bytes = [0] else ∃ before last, bytes = before ++ [last] ∧ last ≠ 0 := by
  have narrow {charset : Charset} {bound : Nat} (small : bound ≤ 0x100)
      (ran : charset.encodeNarrow bound [c] = .ok bytes) :
      if c.toNat = 0 then bytes = [0]
      else ∃ before last, bytes = before ++ [last] ∧ last ≠ 0 := by
    cases encodeNarrow_eq_ok.1 ran with
    | cons first none =>
      obtain ⟨below, rfl⟩ := first
      cases none
      split
      next zero => rw [zero]; rfl
      next other =>
        exact ⟨[], _, rfl, Text.Utf8.ofNat_ne_zero (by omega) (Nat.pos_of_ne_zero other)⟩
  unfold encode at ran
  rw [String.toList_ofList] at ran
  cases charset with
  | utf8 =>
    cases ran
    have single : Text.Utf8.encode [c] = String.utf8EncodeChar c := List.append_nil _
    rw [single]
    split
    next zero =>
      have null : c = Char.ofNat 0 := by rw [← zero, Char.ofNat_toNat]
      rw [null]
      decide
    next other => exact Text.Utf8.encodeChar_last other
  | ascii => exact narrow (by decide) ran
  | latin1 => exact narrow (Nat.le_refl _) ran

end

theorem dropTrailingZeros_zero (bytes : Bytes) :
    Codec.dropTrailingZeros (bytes ++ [0]) = Codec.dropTrailingZeros bytes := by
  unfold Codec.dropTrailingZeros
  rw [List.reverse_append]
  rfl

theorem dropTrailingZeros_of_ne {last : UInt8} (other : last ≠ 0) (bytes : Bytes) :
    Codec.dropTrailingZeros (bytes ++ [last]) = bytes ++ [last] := by
  unfold Codec.dropTrailingZeros
  rw [List.reverse_append, List.reverse_singleton, List.singleton_append,
    List.dropWhile_cons_of_neg (by simpa using other), List.reverse_cons, List.reverse_reverse]

theorem encode_trimEnd (ran : charset.encode text = .ok bytes) :
    charset.encode (trimEnd text) = .ok (Codec.dropTrailingZeros bytes) := by
  obtain ⟨chars, rfl⟩ : ∃ chars, text = String.ofList chars :=
    ⟨text.toList, String.ofList_toList.symm⟩
  unfold trimEnd
  rw [String.toList_ofList]
  induction chars using List.reverseRecOn generalizing bytes with
  | nil =>
    have none : charset.encode (String.ofList []) = .ok [] := by cases charset <;> rfl
    cases none.symm.trans ran
    exact none
  | append_singleton front c ih =>
    obtain ⟨before, last, wrote, wroteLast, rfl⟩ := encode_concat ran
    have final := encode_last wroteLast
    rw [List.reverse_append, List.reverse_singleton, List.singleton_append]
    by_cases zero : c.toNat = 0
    · rw [if_pos zero] at final
      rw [List.dropWhile_cons_of_pos (by simpa using zero), ih wrote, final,
        dropTrailingZeros_zero]
    · rw [if_neg zero] at final
      obtain ⟨init, byte, rfl, other⟩ := final
      rw [List.dropWhile_cons_of_neg (by simpa using zero), List.reverse_cons,
        List.reverse_reverse, ← List.append_assoc, dropTrailingZeros_of_ne other,
        List.append_assoc]
      exact ran

end Wireform.Charset
