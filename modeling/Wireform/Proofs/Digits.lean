import Mathlib.Data.List.TakeWhile
import Mathlib.Tactic.IntervalCases
import Wireform.Codec.Decode
import Wireform.Proofs.Transfer

/-!
Digits packed two to a byte. Packing forgets the case of letters and zeros in front, and nothing
else: what is unpacked is the digits in lower case, without leading zeros. So packing what was
unpacked gives the bytes again, without the zeros in front of them.
-/

namespace Wireform

namespace Text.Hex

theorem digit?_digitChar {n : Nat} (low : n < 16) : digit? n.digitChar = some n := by
  interval_cases n <;> decide

theorem toNat_le_of_digit? {c : Char} {n : Nat} (digit : digit? c = some n) : c.toNat ≤ 102 := by
  unfold digit? at digit
  simp only [Char.le_def, UInt32.le_iff_toNat_le] at digit
  split at digit
  next range => exact range.2.trans (by decide)
  next =>
    split at digit
    next range => exact range.2
    next =>
      split at digit
      next range => exact range.2.trans (by decide)
      next => cases digit

theorem of_digit? {c : Char} {n : Nat} (digit : digit? c = some n) :
    n < 16 ∧ n.digitChar = c.toLower := by
  have table : ∀ code < 103, (digit? (Char.ofNat code)).all fun n =>
      n < 16 ∧ n.digitChar = (Char.ofNat code).toLower := by decide
  have below := toNat_le_of_digit? digit
  have entry := table c.toNat (by omega)
  rw [Char.ofNat_toNat, digit] at entry
  exact of_decide_eq_true entry

theorem of_values {digits : List Char} {ns : List Nat}
    (values : List.Forall₂ (fun c n => digit? c = some n) digits ns) :
    (∀ n ∈ ns, n < 16) ∧ ns.map Nat.digitChar = digits.map Char.toLower := by
  induction values with
  | nil => exact ⟨nofun, rfl⟩
  | cons first rest ih =>
    obtain ⟨low, lower⟩ := of_digit? first
    refine ⟨fun n member => ?_, by rw [List.map_cons, List.map_cons, lower, ih.2]⟩
    rcases List.mem_cons.1 member with rfl | member
    · exact low
    · exact ih.1 n member

/-- The values of the digits of bytes. -/
def nibbles (bytes : Bytes) : List Nat :=
  bytes.flatMap fun byte => [byte.toNat / 16, byte.toNat % 16]

theorem nibbles_cons (byte : UInt8) (rest : Bytes) :
    nibbles (byte :: rest) = byte.toNat / 16 :: byte.toNat % 16 :: nibbles rest :=
  rfl

theorem nibbles_low (bytes : Bytes) : ∀ n ∈ nibbles bytes, n < 16 := by
  intro n member
  obtain ⟨byte, -, half⟩ := List.mem_flatMap.1 member
  have bound : byte.toNat < 256 := byte.toNat_lt
  simp only [List.mem_cons, List.not_mem_nil, or_false] at half
  omega

theorem length_nibbles (bytes : Bytes) : (nibbles bytes).length = 2 * bytes.length := by
  induction bytes with
  | nil => rfl
  | cons byte rest ih =>
    rw [nibbles_cons, List.length_cons, List.length_cons, ih, List.length_cons]
    omega

theorem ofBytes_eq (bytes : Bytes) : ofBytes bytes = (nibbles bytes).map Nat.digitChar := by
  unfold ofBytes nibbles
  rw [List.map_flatMap]
  rfl

theorem ofBytes_append (front bytes : Bytes) :
    ofBytes (front ++ bytes) = ofBytes front ++ ofBytes bytes :=
  List.flatMap_append

theorem ofBytes_replicate (n : Nat) :
    ofBytes (List.replicate n 0) = List.replicate (2 * n) '0' := by
  induction n with
  | zero => rfl
  | succ n ih =>
    rw [List.replicate_succ, ofBytes, List.flatMap_cons]
    change ['0', '0'] ++ ofBytes (List.replicate n 0) = _
    rw [ih]
    rfl

end Text.Hex

namespace Digits

open Text.Hex

/-- Digits without leading zeros; nothing is zero. -/
def trim (digits : List Char) : String :=
  match digits.dropWhile (· == '0') with
  | [] => "0"
  | digits => String.ofList digits

theorem unpack_eq (bytes : Bytes) : unpack bytes = trim (ofBytes bytes) := rfl

theorem trim_replicate (n : Nat) (digits : List Char) :
    trim (List.replicate n '0' ++ digits) = trim digits := by
  have zeros : ∀ c ∈ List.replicate n '0', (c == '0') = true := by
    intro c member
    rw [List.eq_of_mem_replicate member]
    rfl
  unfold trim
  rw [List.dropWhile_append_of_pos zeros]

theorem trim_zero_cons (digits : List Char) : trim ('0' :: digits) = trim digits :=
  trim_replicate 1 digits

theorem trim_of_ne {c : Char} (different : c ≠ '0') (digits : List Char) :
    trim (c :: digits) = String.ofList (c :: digits) := by
  unfold trim
  rw [List.dropWhile_cons_of_neg (by simpa using different)]

theorem unpack_fillLeft (length : Nat) (bytes : Bytes) :
    unpack (Codec.fillLeft length bytes) = unpack bytes := by
  rw [unpack_eq, Codec.fillLeft, ofBytes_append, ofBytes_replicate, trim_replicate, unpack_eq]

theorem foldr_pair_nibbles (bytes : Bytes) :
    (nibbles bytes).foldr pair (none, []) = (none, bytes) := by
  induction bytes with
  | nil => rfl
  | cons byte rest ih =>
    have whole : byte.toNat / 16 * 16 + byte.toNat % 16 = byte.toNat := Nat.div_add_mod' _ _
    rw [nibbles_cons, List.foldr_cons, List.foldr_cons, ih, pair, pair, whole, UInt8.ofNat_toNat]

theorem join_nibbles (bytes : Bytes) : join (nibbles bytes) = bytes := by
  unfold join
  rw [foldr_pair_nibbles]

theorem join_cons_nibbles (low : Nat) (bytes : Bytes) :
    join (low :: nibbles bytes) = UInt8.ofNat low :: bytes := by
  unfold join
  rw [List.foldr_cons, foldr_pair_nibbles]
  rfl

theorem exists_nibbles {ns : List Nat} (low : ∀ n ∈ ns, n < 16) :
    ∃ bytes, ns = nibbles bytes ∨ ∃ n < 16, ns = n :: nibbles bytes := by
  induction ns with
  | nil => exact ⟨[], .inl rfl⟩
  | cons n rest ih =>
    have first := low n (List.mem_cons_self ..)
    obtain ⟨bytes, rfl | ⟨second, below, rfl⟩⟩ := ih fun m member =>
      low m (List.mem_cons_of_mem _ member)
    · exact ⟨bytes, .inr ⟨n, first, rfl⟩⟩
    · refine ⟨UInt8.ofNat (n * 16 + second) :: bytes, .inl ?_⟩
      have whole : (UInt8.ofNat (n * 16 + second)).toNat = n * 16 + second := by
        rw [UInt8.toNat_ofNat', Nat.mod_eq_of_lt (by omega)]
      have high : (n * 16 + second) / 16 = n := by omega
      have rest : (n * 16 + second) % 16 = second := by omega
      rw [nibbles_cons, whole, high, rest]

/-- Digits that are odd in number get a zero in front. -/
def padded (ns : List Nat) : List Nat :=
  if ns.length % 2 = 1 then 0 :: ns else ns

theorem nibbles_ofNat_cons {n : Nat} (low : n < 16) (bytes : Bytes) :
    nibbles (UInt8.ofNat n :: bytes) = 0 :: n :: nibbles bytes := by
  have whole : (UInt8.ofNat n).toNat = n := by rw [UInt8.toNat_ofNat', Nat.mod_eq_of_lt (by omega)]
  rw [nibbles_cons, whole, Nat.div_eq_of_lt low, Nat.mod_eq_of_lt low]

theorem nibbles_join {ns : List Nat} (low : ∀ n ∈ ns, n < 16) : nibbles (join ns) = padded ns := by
  unfold padded
  obtain ⟨bytes, rfl | ⟨n, below, rfl⟩⟩ := exists_nibbles low
  · rw [join_nibbles, length_nibbles, if_neg (by omega)]
  · rw [join_cons_nibbles, nibbles_ofNat_cons below, List.length_cons, length_nibbles,
      if_pos (by omega)]

theorem unpack_join {ns : List Nat} (low : ∀ n ∈ ns, n < 16) :
    unpack (join ns) = trim (ns.map Nat.digitChar) := by
  rw [unpack_eq, ofBytes_eq, nibbles_join low, padded]
  split
  · exact trim_zero_cons _
  · rfl

theorem pack_eq_ok {content : String} {packed : Bytes} :
    pack content = .ok packed ↔
      ∃ ns, List.Forall₂ (fun c n => digit? c = some n) content.toList ns ∧ join ns = packed := by
  unfold pack
  rw [Except.bind_eq_ok]
  refine exists_congr fun ns => ?_
  rw [Except.mapM_eq_ok, Except.ok.injEq]
  refine and_congr_left fun _ => ⟨fun each => ?_, fun each => ?_⟩
  · refine each.imp fun c n found => ?_
    cases known : digit? c with
    | some nibble => simp only [known] at found; cases found; rfl
    | none => simp only [known] at found; cases found
  · exact each.imp fun c n known => by simp only [known]

theorem unpack_of_pack {content : String} {packed : Bytes} (ran : pack content = .ok packed) :
    unpack packed = trim (content.toList.map Char.toLower) := by
  obtain ⟨ns, values, rfl⟩ := pack_eq_ok.1 ran
  obtain ⟨low, lower⟩ := of_values values
  rw [unpack_join low, lower]

theorem pack_digits {ns : List Nat} (low : ∀ n ∈ ns, n < 16) :
    pack (String.ofList (ns.map Nat.digitChar)) = .ok (join ns) := by
  refine pack_eq_ok.2 ⟨ns, ?_, rfl⟩
  rw [String.toList_ofList, List.forall₂_map_left_iff]
  exact List.forall₂_same.2 fun n member => digit?_digitChar (low n member)

/-- Bytes without zeros in front; nothing is a zero. -/
def significant (bytes : Bytes) : Bytes :=
  match bytes.dropWhile (· == 0) with
  | [] => [0]
  | rest => rest

/-- Packing what was unpacked gives the bytes again, without zeros in front. -/
theorem pack_unpack (bytes : Bytes) : pack (unpack bytes) = .ok (significant bytes) := by
  induction bytes with
  | nil => decide +kernel
  | cons byte rest ih =>
    by_cases zero : byte = 0
    · subst zero
      have skip : unpack (0 :: rest) = unpack rest := by
        rw [unpack_eq, unpack_eq, ← trim_replicate 2 (ofBytes rest)]
        rfl
      rw [skip, ih]
      rfl
    · have kept : significant (byte :: rest) = byte :: rest := by
        unfold significant
        rw [List.dropWhile_cons_of_neg (by simpa using zero)]
      have positive : 0 < byte.toNat := Nat.pos_of_ne_zero fun none =>
        zero (UInt8.toNat_inj.1 none)
      have bound : byte.toNat < 256 := byte.toNat_lt
      have low := nibbles_low rest
      rw [kept, unpack_eq, ofBytes_eq]
      by_cases high : byte.toNat / 16 = 0
      · have single : nibbles (byte :: rest) = 0 :: byte.toNat :: nibbles rest := by
          rw [nibbles_cons, high, Nat.mod_eq_of_lt (by omega)]
        have digit : byte.toNat.digitChar ≠ '0' := by
          rw [Ne, Nat.digitChar_eq_zero]
          omega
        have trimmed : trim ((nibbles (byte :: rest)).map Nat.digitChar) =
            String.ofList ((byte.toNat :: nibbles rest).map Nat.digitChar) := by
          rw [single]
          exact (trim_zero_cons _).trans (trim_of_ne digit _)
        rw [trimmed, pack_digits, join_cons_nibbles, UInt8.ofNat_toNat]
        intro n member
        rcases List.mem_cons.1 member with rfl | member
        · omega
        · exact low n member
      · have digit : (byte.toNat / 16).digitChar ≠ '0' := by
          rw [Ne, Nat.digitChar_eq_zero]
          exact high
        have trimmed : trim ((nibbles (byte :: rest)).map Nat.digitChar) =
            String.ofList ((nibbles (byte :: rest)).map Nat.digitChar) := trim_of_ne digit _
        rw [trimmed, pack_digits (nibbles_low _), join_nibbles]

theorem significant_of_head {bytes : Bytes} (some : bytes ≠ [])
    (leading : bytes.length = 1 ∨ bytes.head? ≠ .some 0) : significant bytes = bytes := by
  obtain ⟨byte, rest, rfl⟩ := List.exists_cons_of_ne_nil some
  unfold significant
  by_cases zero : byte = 0
  · subst zero
    rcases leading with single | other
    · obtain rfl : rest = [] := List.eq_nil_of_length_eq_zero (Nat.succ_inj.1 single)
      rfl
    · exact absurd rfl other
  · rw [List.dropWhile_cons_of_neg (by simpa using zero)]

theorem fillLeft_significant {bytes : Bytes} (some : bytes ≠ []) :
    (significant bytes).length ≤ bytes.length ∧
      Codec.fillLeft bytes.length (significant bytes) = bytes := by
  obtain ⟨n, zeros⟩ : ∃ n, bytes.takeWhile (· == 0) = List.replicate n 0 := by
    refine ⟨_, List.eq_replicate_iff.2 ⟨rfl, fun byte member => ?_⟩⟩
    exact beq_iff_eq.1 (List.mem_takeWhile_imp (p := (· == 0)) member)
  have split := List.takeWhile_append_dropWhile (p := (· == (0 : UInt8))) (l := bytes)
  rw [zeros] at split
  have count := congrArg List.length split
  rw [List.length_append, List.length_replicate] at count
  unfold significant Codec.fillLeft
  cases rest : bytes.dropWhile (· == 0) with
  | nil =>
    rw [rest, List.append_nil] at split
    rw [rest, List.length_nil] at count
    have positive : 0 < bytes.length := List.length_pos_of_ne_nil some
    refine ⟨positive, ?_⟩
    calc List.replicate (bytes.length - 1) (0 : UInt8) ++ [0]
        = List.replicate (bytes.length - 1 + 1) 0 := List.replicate_succ'.symm
      _ = List.replicate n 0 := by congr 1; omega
      _ = bytes := split
  | cons byte others =>
    rw [rest] at split count
    refine ⟨by dsimp only; omega, ?_⟩
    have length : bytes.length - (byte :: others).length = n := by omega
    dsimp only
    rw [length, split]

end Digits

end Wireform
