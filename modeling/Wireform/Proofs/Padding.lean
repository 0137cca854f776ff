import Wireform.Proofs.Gathering
import Wireform.Proofs.WellFormed
import Wireform.Proofs.Charset

/-!
Character sets and zero padding. What a set can write are the texts of its own characters, and what
it can read are the bytes that are well formed in it; writing and reading undo each other. Zeros
behind the bytes of a text are never part of a character, so they may be left off before the text is
read, and a text that is padded with them to fill a span is read back as it was.
-/

namespace Wireform.Charset

def Represents : Charset → Char → Prop
  | utf8, _ => True
  | ascii, c => c.toNat < 0x80
  | latin1, c => c.toNat < 0x100

def WellFormed : Charset → Bytes → Prop
  | utf8, bytes => Text.Utf8.WellFormed bytes
  | ascii, bytes => ∀ byte ∈ bytes, byte < 0x80
  | latin1, _ => True

def nul : Char :=
  Char.ofNat 0

variable {charset : Charset} {text : String} {chars : List Char} {bytes : Bytes}

theorem exists_encodeNarrow_iff {bound : Nat} :
    (∃ bytes, charset.encodeNarrow bound chars = .ok bytes) ↔ ∀ c ∈ chars, c.toNat < bound := by
  simp only [encodeNarrow_eq_ok]
  apply Iff.intro
  · intro ⟨bytes, narrow⟩
    induction narrow with
    | nil => exact nofun
    | cons first later ih => exact List.forall_mem_cons.2 ⟨first.1, ih⟩
  · intro small
    use chars.map fun c => UInt8.ofNat c.toNat
    rw [List.forall₂_map_right_iff, List.forall₂_same]
    exact fun c member => ⟨small c member, rfl⟩

theorem exists_encode_iff :
    (∃ bytes, charset.encode text = .ok bytes) ↔ ∀ c ∈ text.toList, charset.Represents c := by
  cases charset with
  | utf8 => simp [encode, Represents]
  | ascii => exact exists_encodeNarrow_iff
  | latin1 => exact exists_encodeNarrow_iff

theorem exists_decode_iff :
    (∃ text, charset.decode bytes = .ok text) ↔ charset.WellFormed bytes := by
  unfold decode WellFormed
  cases charset with
  | utf8 =>
    simp only [← Text.Utf8.exists_decode_iff]
    cases Text.Utf8.decode bytes <;> simp
  | ascii =>
    cases found : bytes.find? (0x80 ≤ ·) with
    | some byte =>
      have large := List.find?_some found
      have member := List.mem_of_find?_eq_some found
      simp only [reduceCtorEq, exists_false, false_iff, not_forall, UInt8.not_lt]
      exact ⟨byte, member, by simpa using large⟩
    | none =>
      have small := find?_none_iff.1 found
      simp only [Except.ok.injEq, exists_eq', true_iff, UInt8.lt_iff_toNat_lt]
      exact small
  | latin1 => simp

theorem encode_append {front back : List Char} {first second : Bytes}
    (former : charset.encode (String.ofList front) = .ok first)
    (latter : charset.encode (String.ofList back) = .ok second) :
    charset.encode (String.ofList (front ++ back)) = .ok (first ++ second) := by
  unfold encode at *
  simp only [String.toList_ofList] at *
  cases charset with
  | utf8 =>
    cases former
    cases latter
    exact congrArg Except.ok List.flatMap_append
  | ascii | latin1 =>
    simp only [encodeNarrow_eq_ok] at *
    exact List.rel_append former latter

theorem encode_zeros (charset : Charset) (k : Nat) :
    charset.encode (String.ofList (List.replicate k nul)) = .ok (List.replicate k 0) := by
  induction k with
  | zero => cases charset <;> rfl
  | succ k ih =>
    have single : charset.encode (String.ofList [nul]) = .ok [0] := by cases charset <;> rfl
    have joined := encode_append single ih
    rwa [List.singleton_append, List.singleton_append, ← List.replicate_succ,
      ← List.replicate_succ] at joined

theorem encode_append_zeros (ran : charset.encode (String.ofList chars) = .ok bytes) (k : Nat) :
    charset.encode (String.ofList (chars ++ List.replicate k nul)) =
      .ok (bytes ++ List.replicate k 0) :=
  encode_append ran (encode_zeros charset k)

/-- What is dropped is all the zeros at the end and nothing else. -/
theorem exists_zeros (bytes : Bytes) :
    ∃ k, bytes = Codec.dropTrailingZeros bytes ++ List.replicate k 0 ∧
      (Codec.dropTrailingZeros bytes).getLast? ≠ some 0 := by
  induction bytes using List.reverseRecOn with
  | nil => exact ⟨0, rfl, nofun⟩
  | append_singleton front last ih =>
    by_cases null : last = 0
    · obtain ⟨k, split, other⟩ := ih
      use k + 1
      rw [null, dropTrailingZeros_zero, List.replicate_succ', ← List.append_assoc, ← split]
      exact ⟨rfl, other⟩
    · use 0
      rw [dropTrailingZeros_of_ne null]
      simp [null]

theorem trimEnd_zeros (chars : List Char) (k : Nat) :
    trimEnd (String.ofList (chars ++ List.replicate k nul)) = trimEnd (String.ofList chars) := by
  have zeros : ∀ c ∈ List.replicate k nul, (c.toNat == 0) = true := by
    intro c member
    rw [List.eq_of_mem_replicate member]
    rfl
  unfold trimEnd
  rw [String.toList_ofList, String.toList_ofList, List.reverse_append, List.reverse_replicate,
    List.dropWhile_append_of_pos zeros]

theorem trimEnd_of_last (other : text.toList.getLast? ≠ some nul) : trimEnd text = text := by
  unfold trimEnd
  cases reversed : text.toList.reverse with
  | nil =>
    rw [List.dropWhile_nil, ← reversed, List.reverse_reverse, String.ofList_toList]
  | cons c rest =>
    have last : text.toList.getLast? = some c := by
      rw [← List.head?_reverse, reversed, List.head?_cons]
    have visible : ¬ (c.toNat == 0) = true := by
      intro null
      apply other
      rw [last, nul, ← beq_iff_eq.1 null, Char.ofNat_toNat]
    simp only [List.dropWhile_cons, if_neg visible]
    rw [← reversed, List.reverse_reverse, String.ofList_toList]

/-- Bytes are read just where they are read without the zeros at their end, as the same text without
the zero characters at its end. -/
theorem decode_dropTrailingZeros_iff :
    charset.decode (Codec.dropTrailingZeros bytes) = .ok text ↔
      ∃ whole, charset.decode bytes = .ok whole ∧ trimEnd whole = text := by
  apply Iff.intro
  · intro ran
    obtain ⟨k, split, -⟩ := exists_zeros bytes
    have wrote := encode_of_decode ran
    rw [← String.ofList_toList (s := text)] at wrote
    have padded := encode_append_zeros wrote k
    rw [← split] at padded
    have trimmed := decode_of_encode (encode_trimEnd padded)
    exact ⟨_, decode_of_encode padded, Except.ok.inj (trimmed.symm.trans ran)⟩
  · intro ⟨whole, ran, same⟩
    rw [← same]
    exact decode_of_encode (encode_trimEnd (encode_of_decode ran))

theorem dropTrailingZeros_padded (wrote : charset.encode text = .ok bytes)
    (other : text.toList.getLast? ≠ some nul) (k : Nat) :
    Codec.dropTrailingZeros (bytes ++ List.replicate k 0) = bytes := by
  have given := wrote
  rw [← String.ofList_toList (s := text)] at given
  have trimmed := encode_trimEnd (encode_append_zeros given k)
  rw [trimEnd_zeros, String.ofList_toList, trimEnd_of_last other, wrote] at trimmed
  exact (Except.ok.inj trimmed).symm

section

variable {σ : Type} [Source σ] [Supply σ] {source : σ} {taken limit : Nat} {field : Descriptor}
  {span rest : Bytes}

theorem read_of_declared (fixed : field.mode = .fixed) (declared : field.length = some span.length)
    (holds : Supply.Holds source taken (span ++ rest)) : ∃ after,
      Span.read limit field source = .ok span after ∧
        Supply.Holds after (taken + span.length) rest := by
  obtain ⟨after, ran, left⟩ := Supply.readFixed_enough holds
  have length : (Transfer.ofExcept (Span.fixedLength field) : Transfer σ Nat) source =
      .ok span.length source := by
    rw [Span.fixedLength_eq_ok.2 declared]
    rfl
  use after
  unfold Span.read
  rw [fixed]
  exact ⟨(Transfer.bind_of_ok length).trans ran, left⟩

theorem decode_of_declared (fixed : field.mode = .fixed)
    (declared : field.length = some span.length)
    (read : field.charset.decode (Codec.dropTrailingZeros span) = .ok text)
    (holds : Supply.Holds source taken (span ++ rest)) : ∃ after,
      Codec.string.decode limit field source = .ok (.text text) after ∧
        Supply.Holds after (taken + span.length) rest := by
  obtain ⟨after, ran, left⟩ := read_of_declared fixed declared holds
  use after
  refine ⟨(Transfer.bind_of_ok ran).trans ?_, left⟩
  unfold Codec.interpret
  rw [read]
  rfl

end

/-- How a character set writes and reads, and what zeros at the end do to it. -/
structure Exact (charset : Charset) : Prop where
  inverse : ∀ text bytes, charset.encode text = .ok bytes ↔ charset.decode bytes = .ok text
  written : ∀ text,
    (∃ bytes, charset.encode text = .ok bytes) ↔ ∀ c ∈ text.toList, charset.Represents c
  read : ∀ bytes, (∃ text, charset.decode bytes = .ok text) ↔ charset.WellFormed bytes
  stripped : ∀ bytes, ∃ k, bytes = Codec.dropTrailingZeros bytes ++ List.replicate k 0 ∧
    (Codec.dropTrailingZeros bytes).getLast? ≠ some 0
  trimmed : ∀ bytes text, charset.decode (Codec.dropTrailingZeros bytes) = .ok text ↔
    ∃ whole, charset.decode bytes = .ok whole ∧ trimEnd whole = text
  padded : ∀ (field : Descriptor) (text : String) (bytes : Bytes) (k limit : Nat),
    field.charset = charset → field.mode = .fixed → field.length = some (bytes.length + k) →
    charset.encode text = .ok bytes → text.toList.getLast? ≠ some nul →
    ∀ {σ : Type} [Source σ] [Supply σ] (source : σ) (taken : Nat) (rest : Bytes),
      Supply.Holds source taken (bytes ++ List.replicate k 0 ++ rest) →
      ∃ after, Codec.string.decode limit field source = .ok (.text text) after ∧
        Supply.Holds after (taken + (bytes.length + k)) rest

/-- A character set writes the texts of its own characters and reads the bytes that are well formed
in it, and the two undo each other. Bytes are read just where they are read without the zeros at
their end, as the same text without the zero characters at its end; so a text that ends in none is
read back from a span of declared length that was filled up with zeros behind its bytes. -/
theorem charset_exact (charset : Charset) : Exact charset where
  inverse text bytes := ⟨decode_of_encode, encode_of_decode⟩
  written text := exists_encode_iff
  read bytes := exists_decode_iff
  stripped := exists_zeros
  trimmed bytes text := decode_dropTrailingZeros_iff
  padded field text bytes k limit same fixed declared wrote other σ _ _ source taken rest holds := by
    have lengths : (bytes ++ List.replicate k 0).length = bytes.length + k := by simp
    have read : field.charset.decode
        (Codec.dropTrailingZeros (bytes ++ List.replicate k 0)) = .ok text := by
      rw [same, dropTrailingZeros_padded wrote other]
      exact decode_of_encode wrote
    rw [← lengths] at declared ⊢
    exact decode_of_declared fixed declared read holds

/-- A text of two characters, one of them not ASCII, in a span of five bytes with one more behind
it. -/
theorem charset_exact_padded :
    let field := (Descriptor.sized .string 5).withCharset .utf8
    ∃ after, Codec.string.decode 16 field (Cursor.ofBytes [0x41, 0xc3, 0xa9, 0, 0, 7]) =
      .ok (.text "Aé") after ∧ after.unread = [7] := by
  intro field
  have wrote : utf8.encode "Aé" = .ok [0x41, 0xc3, 0xa9] := by decide
  have other : "Aé".toList.getLast? ≠ some nul := by decide
  obtain ⟨after, ran, done, -, rfl⟩ := (charset_exact utf8).padded field "Aé" _ 2 16 rfl rfl rfl
    wrote other _ 0 [7] (Cursor.holds_ofBytes [0x41, 0xc3, 0xa9, 0, 0, 7])
  exact ⟨_, ran, Cursor.unread_between done [7]⟩

end Wireform.Charset
