import Mathlib.Data.Nat.Digits.Defs
import Mathlib.Data.String.Basic
import Wireform.Proofs.Encoding
import Wireform.Proofs.Normal

/-!
Digits as numbers. Packed digits come to the number in base 256 that they come to in base sixteen,
and unpacking keeps that number. So packing and unpacking lose no more than case and zeros in front,
and a field of declared length gives those zeros back.
-/

namespace Wireform

/-- The number that digits in a base come to, the most significant one first. -/
def positional (base : Nat) (digits : List Nat) : Nat :=
  Nat.ofDigits base digits.reverse

section

variable {base : Nat}

theorem positional_cons (digit : Nat) (rest : List Nat) :
    positional base (digit :: rest) = digit * base ^ rest.length + positional base rest := by
  unfold positional
  rw [List.reverse_cons, Nat.ofDigits_append, List.length_reverse, Nat.ofDigits_singleton,
    Nat.mul_comm, Nat.add_comm]

theorem positional_zero_cons (rest : List Nat) :
    positional base (0 :: rest) = positional base rest := by
  rw [positional_cons, Nat.zero_mul, Nat.zero_add]

theorem positional_replicate (n : Nat) (rest : List Nat) :
    positional base (List.replicate n 0 ++ rest) = positional base rest := by
  induction n with
  | zero => rfl
  | succ n ih => rw [List.replicate_succ, List.cons_append, positional_zero_cons, ih]

end

namespace Text.Hex

def digits : List Char :=
  "0123456789abcdef".toList

def anyCase : List Char :=
  "0123456789abcdefABCDEF".toList

def valueOf (c : Char) : Nat :=
  digits.idxOf c.toLower

/-- The number that hexadecimal digits come to. -/
def number (text : List Char) : Nat :=
  positional 16 (text.map valueOf)

theorem digit?_eq_some_iff {c : Char} {n : Nat} :
    digit? c = some n ↔ c ∈ anyCase ∧ valueOf c = n := by
  have table : ∀ code < 103, digit? (Char.ofNat code) =
      if Char.ofNat code ∈ anyCase then some (valueOf (Char.ofNat code)) else none := by
    decide +kernel
  have small : anyCase.all (·.toNat < 103) = true := by decide +kernel
  apply Iff.intro
  · intro known
    have below := toNat_le_of_digit? known
    have entry := table c.toNat (by omega)
    rw [Char.ofNat_toNat, known] at entry
    split at entry
    next listed => exact ⟨listed, (Option.some.inj entry).symm⟩
    next => cases entry
  · intro ⟨listed, same⟩
    have entry := table c.toNat (of_decide_eq_true (List.all_eq_true.1 small c listed))
    rwa [Char.ofNat_toNat, if_pos listed, same] at entry

theorem of_digitChar {n : Nat} (low : n < 16) :
    n.digitChar ∈ digits ∧ valueOf n.digitChar = n := by
  have table : ∀ n < 16, n.digitChar ∈ digits ∧ valueOf n.digitChar = n := by decide +kernel
  exact table n low

theorem map_valueOf_digitChar {ns : List Nat} (low : ∀ n ∈ ns, n < 16) :
    (ns.map Nat.digitChar).map valueOf = ns := by
  rw [List.map_map]
  exact List.map_congr_left (fun n member => (of_digitChar (low n member)).2) |>.trans
    (List.map_id ns)

theorem utf8Len_of_digits {text : List Char} (each : ∀ c ∈ text, c ∈ anyCase) :
    String.utf8Len text = text.length := by
  have single : anyCase.all (·.utf8Size = 1) = true := by decide +kernel
  induction text with
  | nil => rfl
  | cons c rest ih =>
    obtain ⟨first, others⟩ := List.forall_mem_cons.1 each
    have size : c.utf8Size = 1 := of_decide_eq_true (List.all_eq_true.1 single c first)
    rw [String.utf8Len_cons, ih others, size, List.length_cons]

theorem positional_nibbles (bytes : Bytes) :
    positional 16 (nibbles bytes) = positional 256 (bytes.map UInt8.toNat) := by
  induction bytes with
  | nil => rfl
  | cons byte rest ih =>
    have square : 16 ^ (2 * rest.length) = 256 ^ rest.length := Nat.pow_mul 16 2 rest.length
    have whole := Nat.div_add_mod' byte.toNat 16
    rw [nibbles_cons, List.map_cons, positional_cons, positional_cons, positional_cons, ih,
      List.length_cons, List.length_map, length_nibbles, Nat.pow_succ, square, ← Nat.add_assoc]
    congr 1
    calc byte.toNat / 16 * (256 ^ rest.length * 16) + byte.toNat % 16 * 256 ^ rest.length
        = (byte.toNat / 16 * 16 + byte.toNat % 16) * 256 ^ rest.length := by ring
      _ = byte.toNat * 256 ^ rest.length := by rw [whole]

end Text.Hex

namespace Digits

open Text.Hex

/-- Pairs digits up from the left, two to a byte; one that is left alone has no pair. -/
def halves : List Nat → Option Bytes
  | [] => some []
  | [_] => none
  | high :: low :: rest => (halves rest).map (UInt8.ofNat (high * 16 + low) :: ·)

theorem halves_nibbles (bytes : Bytes) : halves (nibbles bytes) = some bytes := by
  induction bytes with
  | nil => rfl
  | cons byte rest ih =>
    rw [nibbles_cons, halves, ih, Nat.div_add_mod', UInt8.ofNat_toNat, Option.map_some]

section

variable {ns : List Nat} (low : ∀ n ∈ ns, n < 16)

include low

theorem halves_padded : halves (padded ns) = some (join ns) := by
  rw [← nibbles_join low, halves_nibbles]

theorem length_join : (join ns).length = bytesFor ns.length := by
  have count := congrArg List.length (nibbles_join low)
  rw [length_nibbles, padded] at count
  unfold bytesFor
  split at count
  next odd =>
    rw [List.length_cons] at count
    omega
  next even => omega

theorem positional_join : positional 256 ((join ns).map UInt8.toNat) = positional 16 ns := by
  rw [← positional_nibbles, nibbles_join low, padded]
  split
  · exact positional_zero_cons ns
  · rfl

end

theorem low_of_digits {text : List Char} (each : ∀ c ∈ text, c ∈ anyCase) :
    ∀ n ∈ text.map valueOf, n < 16 := by
  intro n member
  obtain ⟨c, listed, rfl⟩ := List.mem_map.1 member
  exact (of_digit? (digit?_eq_some_iff.2 ⟨each c listed, rfl⟩)).1

theorem pack_eq_ok_iff {content : String} {packed : Bytes} :
    pack content = .ok packed ↔ (∀ c ∈ content.toList, c ∈ anyCase) ∧
      join (content.toList.map valueOf) = packed := by
  have values (ns : List Nat) : List.Forall₂ (fun c n => valueOf c = n) content.toList ns ↔
      content.toList.map valueOf = ns := by
    rw [← List.forall₂_eq_eq_eq, List.forall₂_map_left_iff]
  simp only [pack_eq_ok, digit?_eq_some_iff, List.forall₂_and_left, values, and_assoc,
    exists_and_left, exists_eq_left']

/-- Trimming drops the zeros in front, but for one that is left alone. -/
theorem trim_cases (text : List Char) : ∃ n,
    text = List.replicate n '0' ∧ trim text = "0" ∨
      ∃ c rest, c ≠ '0' ∧ text = List.replicate n '0' ++ c :: rest ∧
        trim text = String.ofList (c :: rest) := by
  induction text with
  | nil => exact ⟨0, .inl ⟨rfl, rfl⟩⟩
  | cons c rest ih =>
    by_cases zero : c = '0'
    · subst zero
      rw [trim_zero_cons]
      obtain ⟨n, ⟨zeros, single⟩ | ⟨c, others, different, split, trimmed⟩⟩ := ih
      · exact ⟨n + 1, .inl ⟨congrArg _ zeros, single⟩⟩
      · exact ⟨n + 1, .inr ⟨c, others, different, congrArg _ split, trimmed⟩⟩
    · exact ⟨0, .inr ⟨c, rest, zero, rfl, trim_of_ne zero rest⟩⟩

theorem number_replicate (n : Nat) (rest : List Char) :
    number (List.replicate n '0' ++ rest) = number rest := by
  have zero : valueOf '0' = 0 := by decide +kernel
  unfold number
  rw [List.map_append, List.map_replicate, zero, positional_replicate]

theorem number_trim (text : List Char) : number (trim text).toList = number text := by
  obtain ⟨n, ⟨zeros, single⟩ | ⟨c, rest, -, split, trimmed⟩⟩ := trim_cases text
  · have zero : number "0".toList = 0 := by decide +kernel
    have none : number [] = 0 := rfl
    rw [single, zeros, zero, ← List.append_nil (List.replicate n '0'), number_replicate, none]
  · rw [trimmed, split, number_replicate, String.toList_ofList]

theorem trim_digits {text : List Char} (each : ∀ c ∈ text, c ∈ digits) :
    (trim text ≠ "" ∧ ∀ c ∈ (trim text).toList, c ∈ digits) ∧
      (trim text = "0" ∨ (trim text).toList.head? ≠ some '0') := by
  obtain ⟨n, ⟨-, single⟩ | ⟨c, rest, different, split, trimmed⟩⟩ := trim_cases text
  · rw [single]
    exact ⟨⟨by decide, List.forall_mem_singleton.2 (by decide)⟩, .inl rfl⟩
  · have kept : (trim text).toList = c :: rest := by rw [trimmed, String.toList_ofList]
    refine ⟨⟨fun empty => ?_, ?_⟩, .inr ?_⟩
    · rw [empty] at kept
      cases kept
    · rw [kept]
      exact fun other listed => each other (split ▸ List.mem_append_right _ listed)
    · rw [kept]
      exact fun same => different (Option.some.inj same)

/-- What packing digits comes to: when it succeeds, that every digit has its pair, the bytes that it
takes and their number, and what is read of them again. -/
structure PackExact (content : String) : Prop where
  succeeds : (∃ packed, pack content = .ok packed) ↔ ∀ c ∈ content.toList, c ∈ anyCase
  paired : ∀ ns, List.Forall₂ (fun c n => digit? c = some n) content.toList ns →
    ∃ packed, halves (if content.utf8ByteSize % 2 = 1 then 0 :: ns else ns) = some packed ∧
      pack content = .ok packed
  length : ∀ packed, pack content = .ok packed → packed.length = (content.length + 1) / 2
  keeps : ∀ packed, pack content = .ok packed →
    positional 256 (packed.map UInt8.toNat) = number content.toList
  unpacked : ∀ packed, pack content = .ok packed →
    unpack packed = trim (content.toList.map Char.toLower)

/-- What unpacking bytes comes to: digits in lower case without zeros in front, of the same
number. -/
structure UnpackExact (bytes : Bytes) : Prop where
  spelled : unpack bytes ≠ "" ∧ ∀ c ∈ (unpack bytes).toList, c ∈ digits
  leading : unpack bytes = "0" ∨ (unpack bytes).toList.head? ≠ some '0'
  keeps : number (unpack bytes).toList = positional 256 (bytes.map UInt8.toNat)

theorem packExact (content : String) : PackExact content where
  succeeds := by simp only [pack_eq_ok_iff, exists_and_left, exists_eq', and_true]
  paired ns values := by
    have packed := pack_eq_ok.2 ⟨ns, values, rfl⟩
    have each := (pack_eq_ok_iff.1 packed).1
    -- Whether a zero goes in front is told from the bytes of the text, which are its characters.
    have count : content.utf8ByteSize = ns.length := by
      rw [← values.length_eq, ← utf8Len_of_digits each, ← String.utf8ByteSize_ofList,
        String.ofList_toList]
    rw [count]
    exact ⟨_, halves_padded (of_values values).1, packed⟩
  length packed ran := by
    obtain ⟨each, rfl⟩ := pack_eq_ok_iff.1 ran
    rw [length_join (low_of_digits each), List.length_map, String.length_toList, bytesFor]
  keeps packed ran := by
    obtain ⟨each, rfl⟩ := pack_eq_ok_iff.1 ran
    exact positional_join (low_of_digits each)
  unpacked packed ran := unpack_of_pack ran

theorem unpackExact (bytes : Bytes) : UnpackExact bytes := by
  have each : ∀ c ∈ ofBytes bytes, c ∈ digits := by
    rw [ofBytes_eq]
    exact List.forall_mem_map.2 fun n member => (of_digitChar (nibbles_low bytes n member)).1
  obtain ⟨listed, leading⟩ := trim_digits each
  refine ⟨listed, leading, ?_⟩
  rw [unpack_eq, number_trim, ofBytes_eq, number,
    map_valueOf_digitChar (nibbles_low bytes), positional_nibbles]

end Digits

namespace Codec

open Cursor Digits

variable {limit n : Nat} {field : Descriptor} {content : String} {value : Value} {packed : Bytes}

theorem frameDigits_of_fixed (fixed : field.mode = .fixed) (declared : field.length = some n)
    (gives : digitsOf field value = .ok content) (ran : pack content = .ok packed) :
    frameDigits limit field value =
      if n < packed.length then
        .error (.length (.digits field.name packed.length content.length n))
      else .ok [fillLeft n packed] := by
  have length : Span.fixedLength field = .ok n := Span.fixedLength_eq_ok.2 declared
  have frame (data : Bytes) : Span.frame limit field data = .ok [data] := by
    unfold Span.frame
    rw [fixed]
  unfold frameDigits
  simp only [gives, if_pos fixed, length, frame]
  change (pack content >>= _) = _
  rw [ran]
  rfl

section

variable (fixed : field.mode = .fixed) (declared : field.length = some n)

include fixed declared

theorem encode_digits_of_wide {κ : Type} [Sink κ] (gives : digitsOf field value = .ok content)
    (ran : pack content = .ok packed) (wide : n < packed.length) (sink : κ) :
    Codec.bcd.encode limit field value sink =
      .error (.length (.digits field.name packed.length content.length n)) sink := by
  change (Transfer.ofExcept (frameDigits limit field value) >>= Span.write) sink = _
  rw [frameDigits_of_fixed fixed declared gives ran, if_pos wide]
  rfl

theorem encode_digits_of_fits {κ : Type} [Sink κ] [Memory κ]
    (gives : digitsOf field value = .ok content) (ran : pack content = .ok packed)
    (fits : packed.length ≤ n) (sink : κ) :
    Codec.bcd.encode limit field value sink =
      .ok n (Memory.append sink (fillLeft n packed)) := by
  change (Transfer.ofExcept (frameDigits limit field value) >>= Span.write) sink = _
  rw [frameDigits_of_fixed fixed declared gives ran, if_neg (by omega), Transfer.ofExcept_ok,
    pure_bind, Leaf.write_eq, List.flatten_singleton, length_fillLeft fits]

theorem decode_digits_of_fixed {bytes : Bytes} (count : bytes.length = n) (done tail : Bytes) :
    Codec.bcd.decode limit field (between done (bytes ++ tail)) =
      .ok (.digits (unpack bytes)) (between (done ++ bytes) tail) := by
  have takes : Takes (Span.read limit field) bytes tail bytes := by
    refine Span.takes_read_iff.2 ⟨?_, ?_⟩
    · unfold Span.Framed
      rw [fixed]
    · unfold Span.Stands
      rw [fixed, declared, count]
  exact Transfer.bind_of_ok (takes done)

end

/-- What a field of declared length makes of digits, and of bytes. -/
structure FixedDigits (limit : Nat) (field : Descriptor) (n : Nat) : Prop where
  refuses : ∀ (content : String) (value : Value), digitsOf field value = .ok content →
    (∀ c ∈ content.toList, c ∈ Text.Hex.anyCase) → n < (content.length + 1) / 2 →
    ∀ {κ : Type} [Sink κ] (sink : κ), Codec.bcd.encode limit field value sink =
      .error (.length (.digits field.name ((content.length + 1) / 2) content.length n)) sink
  writes : ∀ (content : String) (value : Value), digitsOf field value = .ok content →
    (∀ c ∈ content.toList, c ∈ Text.Hex.anyCase) → (content.length + 1) / 2 ≤ n →
    ∃ bytes : Bytes, bytes.length = n ∧
      positional 256 (bytes.map UInt8.toNat) = Text.Hex.number content.toList ∧
      ∀ {κ : Type} [Sink κ] [Memory κ] (sink : κ), Codec.bcd.encode limit field value sink =
        .ok n (Memory.append sink bytes)
  restores : ∀ bytes : Bytes, bytes.length = n → 1 ≤ n → ∃ digits,
    (∀ done tail, Codec.bcd.decode limit field (between done (bytes ++ tail)) =
      .ok (.digits digits) (between (done ++ bytes) tail)) ∧
    ∀ {κ : Type} [Sink κ] [Memory κ] (sink : κ),
      Codec.bcd.encode limit field (.digits digits) sink = .ok n (Memory.append sink bytes)
  empty : n = 0 →
    (∀ done tail, Codec.bcd.decode limit field (between done tail) =
      .ok (.digits "0") (between done tail)) ∧
    ∀ {κ : Type} [Sink κ] (sink : κ), Codec.bcd.encode limit field (.digits "0") sink =
      .error (.length (.digits field.name 1 1 0)) sink

theorem fixedDigits (limit : Nat) (fixed : field.mode = .fixed) (declared : field.length = some n) :
    FixedDigits limit field n where
  refuses content value gives each wide := by
    obtain ⟨packed, ran⟩ := (packExact content).succeeds.2 each
    have count := (packExact content).length packed ran
    intro κ _ sink
    rw [← count] at wide ⊢
    exact encode_digits_of_wide fixed declared gives ran wide sink
  writes content value gives each fits := by
    obtain ⟨packed, ran⟩ := (packExact content).succeeds.2 each
    have count := (packExact content).length packed ran
    rw [← count] at fits
    refine ⟨fillLeft n packed, length_fillLeft fits, ?_, fun sink =>
      encode_digits_of_fits fixed declared gives ran fits sink⟩
    rw [fillLeft, List.map_append, List.map_replicate]
    exact (positional_replicate _ _).trans ((packExact content).keeps packed ran)
  restores bytes count positive := by
    have some : bytes ≠ [] := List.ne_nil_of_length_pos (by omega)
    obtain ⟨fits, filled⟩ := fillLeft_significant some
    rw [count] at fits filled
    refine ⟨unpack bytes, fun done tail => decode_digits_of_fixed fixed declared count done tail,
      fun sink => ?_⟩
    rw [encode_digits_of_fits fixed declared rfl (pack_unpack bytes) fits, filled]
  empty none := by
    subst none
    refine ⟨fun done tail => ?_, fun sink => ?_⟩
    · have read : Codec.bcd.decode limit field (between done ([] ++ tail)) =
          .ok (.digits "0") (between (done ++ []) tail) :=
        decode_digits_of_fixed fixed declared rfl done tail
      rwa [List.append_nil] at read
    · exact encode_digits_of_wide fixed declared rfl (pack_unpack []) (by decide) sink

/-- Packing and unpacking keep the number that digits come to, and fields of declared length keep it
with all their bytes, unless they have none. -/
theorem digits_exact :
    (∀ content, PackExact content) ∧ (∀ bytes, UnpackExact bytes) ∧
      ∀ limit field n, field.mode = .fixed → field.length = some n → FixedDigits limit field n :=
  ⟨packExact, unpackExact, fun limit _ _ fixed declared => fixedDigits limit fixed declared⟩

/-- Three digits are too many for one byte, also with a zero in front; two bytes come back whole. -/
theorem digits_exact_zero :
    Codec.bcd.encode 8 (.sized .bcd 1) (.digits "0aF") ([] : Bytes) =
      .error (.length (.digits "" 2 3 1)) [] ∧
    ∃ digits, Codec.bcd.decode 8 (.sized .bcd 2) (between [] ([0x00, 0xaf] ++ [])) =
        .ok (.digits digits) (between ([] ++ [0x00, 0xaf]) []) ∧
      Codec.bcd.encode 8 (.sized .bcd 2) (.digits digits) ([] : Bytes) = .ok 2 [0x00, 0xaf] := by
  obtain ⟨-, -, fields⟩ := digits_exact
  have listed : "0aF".toList.all (· ∈ Text.Hex.anyCase) = true := by decide +kernel
  have each (c : Char) (given : c ∈ "0aF".toList) : c ∈ Text.Hex.anyCase :=
    of_decide_eq_true (List.all_eq_true.1 listed c given)
  have single := fields 8 (.sized .bcd 1) 1 rfl rfl
  have double := fields 8 (.sized .bcd 2) 2 rfl rfl
  have refused := single.refuses "0aF" (.digits "0aF") rfl each (by decide +kernel) ([] : Bytes)
  obtain ⟨digits, read, wrote⟩ := double.restores [0x00, 0xaf] rfl (by decide)
  exact ⟨refused, digits, read [] [], wrote []⟩

end Codec

end Wireform
