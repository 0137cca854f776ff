import Mathlib.Data.List.Induction
import Mathlib.Data.List.Pairwise
import Wireform.Container
import Wireform.Proofs.BigEndian
import Wireform.Proofs.Transfer
import Wireform.Proofs.Width

/-!
Bit-fields in a container, bit by bit. What a bit-field reads are the bits of its span; what it
writes are those bits and no others. So bit-fields that share no bit are read back, and bit-fields
that cover every bit build the container again.
-/

namespace Wireform

/-- The bit lies in the span. -/
def BitDescriptor.Covers (field : BitDescriptor) (i : Nat) : Prop :=
  field.offset ≤ i ∧ i < field.offset + field.length

instance (field : BitDescriptor) (i : Nat) : Decidable (field.Covers i) :=
  inferInstanceAs (Decidable (_ ∧ _))

def BitDescriptor.Apart (a b : BitDescriptor) : Prop :=
  ∀ i, ¬ (a.Covers i ∧ b.Covers i)

theorem BitDescriptor.Apart.symm {a b : BitDescriptor} (apart : a.Apart b) : b.Apart a :=
  fun i both => apart i both.symm

theorem BitDescriptor.apart_iff {a b : BitDescriptor} :
    min (a.offset + a.length) (b.offset + b.length) ≤ max a.offset b.offset ↔ a.Apart b := by
  unfold Apart Covers
  apply Iff.intro
  · intro clear i
    omega
  · intro apart
    have latest := apart (max a.offset b.offset)
    omega

instance (a b : BitDescriptor) : Decidable (a.Apart b) :=
  decidable_of_iff _ BitDescriptor.apart_iff

def BitDescriptor.Inside (length : Nat) (descriptor : BitDescriptor) : Prop :=
  descriptor.length ≤ 32 ∧ descriptor.offset + descriptor.length ≤ 8 * length

namespace Container

variable {length : Nat} {field : BitDescriptor}

/-- A bit of a container, counted from the least significant bit of its last byte. -/
def bit (container : Bytes) (i : Nat) : Bool :=
  (container.reverse[i / 8]?).any fun byte => byte.toNat.testBit (i % 8)

theorem bit_concat (bytes : Bytes) (byte : UInt8) (i : Nat) :
    bit (bytes ++ [byte]) i = if i < 8 then byte.toNat.testBit i else bit bytes (i - 8) := by
  unfold bit
  rw [List.reverse_append, List.reverse_singleton, List.singleton_append]
  split
  next low =>
    rw [Nat.div_eq_of_lt low, Nat.mod_eq_of_lt low, List.getElem?_cons_zero, Option.any_some]
  next high =>
    have further : i / 8 = (i - 8) / 8 + 1 := by omega
    have within : i % 8 = (i - 8) % 8 := by omega
    rw [further, within, List.getElem?_cons_succ]

theorem testBit_ofBytes {container : Bytes} (narrow : container.length ≤ 8) (i : Nat) :
    (BigEndian.ofBytes container).toNat.testBit i = bit container i := by
  induction container using List.reverseRecOn generalizing i with
  | nil => exact Nat.zero_testBit i
  | append_singleton bytes byte ih =>
    rw [List.length_append, List.length_singleton] at narrow
    have small : byte.toNat < 2 ^ 8 := byte.toNat_lt
    have before : (BigEndian.ofBytes bytes).toNat < 256 ^ bytes.length :=
      BigEndian.toNat_ofBytes_lt (by omega)
    have room := BigEndian.pow_le_word narrow
    rw [Nat.pow_succ] at room
    have whole : (BigEndian.ofBytes (bytes ++ [byte])).toNat =
        2 ^ 8 * (BigEndian.ofBytes bytes).toNat + byte.toNat := by
      rw [BigEndian.toNat_ofBytes_concat]
      omega
    rw [whole, Nat.testBit_two_pow_mul_add _ small, bit_concat, ih (by omega)]

theorem lt_of_bit {container : Bytes} {i : Nat} (set : bit container i = true) :
    i < 8 * container.length := by
  by_contra beyond
  have none : container.reverse[i / 8]? = none := by
    rw [List.getElem?_eq_none_iff, List.length_reverse]
    omega
  rw [bit, none] at set
  cases set

theorem bit_toBytes (narrow : length ≤ 8) (word : UInt64) (i : Nat) :
    bit (BigEndian.toBytes length word) i =
      (decide (i < 8 * length) && word.toNat.testBit i) := by
  have power : 256 ^ length = 2 ^ (8 * length) := by rw [Nat.pow_mul]
  have count : (BigEndian.toBytes length word).length ≤ 8 :=
    (BigEndian.length_toBytes length word).symm ▸ narrow
  rw [← testBit_ofBytes count, BigEndian.toNat_ofBytes_toBytes, power,
    Nat.testBit_mod_two_pow]

theorem check_eq_ok : check length = .ok () ↔ 1 ≤ length ∧ length ≤ 4 := by
  unfold check
  split
  next within => exact ⟨fun _ => within, fun _ => rfl⟩
  next outside => exact ⟨nofun, fun within => absurd within outside⟩

theorem narrow_of_check (checked : check length = .ok ()) : length ≤ 4 :=
  (check_eq_ok.1 checked).2

theorem inside_of_checkSpan (checked : check length = .ok ())
    (passed : checkSpan length field = .ok ()) :
    length ≤ 4 ∧ field.length ≤ 32 ∧ field.offset + field.length ≤ 8 * length := by
  have narrow := narrow_of_check checked
  unfold checkSpan at passed
  dsimp only at passed
  split at passed
  next => cases passed
  next short =>
    split at passed
    next => cases passed
    next within =>
      have bits : accumulatorBits = 32 := rfl
      have size : UInt32.size = 4294967296 := rfl
      unfold stop at within
      rw [bits] at short
      rw [size] at within
      omega

theorem checkSpan_eq_ok (checked : check length = .ok ()) :
    checkSpan length field = .ok () ↔ field.Inside length := by
  refine ⟨fun passed => (inside_of_checkSpan checked passed).2, fun ⟨narrow, ends⟩ => ?_⟩
  have small := narrow_of_check checked
  have size : UInt32.size = 4294967296 := rfl
  have available : 8 * length % UInt32.size = 8 * length := Nat.mod_eq_of_lt (by omega)
  have stops : stop field ≤ 8 * length := Nat.le_trans (Nat.min_le_left _ _) ends
  rw [← available] at stops
  exact (if_neg (Nat.not_lt.2 narrow)).trans (if_neg (Nat.not_lt.2 stops))

theorem shift_eq {n : Nat} (small : n < 64) : (UInt64.ofNat n).toNat % 64 = n := by
  rw [UInt64.toNat_ofNat']
  omega

theorem extract_eq_ok {word value : UInt64} (checked : check length = .ok ()) :
    extract length word field = .ok value ↔ checkSpan length field = .ok () ∧
      ∀ i, value.toNat.testBit i =
        (decide (i < field.length) && word.toNat.testBit (field.offset + i)) := by
  have bits (passed : checkSpan length field = .ok ()) (i : Nat) :
      ((word >>> UInt64.ofNat field.offset) &&& Width.lowBits field.length).toNat.testBit i =
        (decide (i < field.length) && word.toNat.testBit (field.offset + i)) := by
    obtain ⟨narrow, short, inside⟩ := inside_of_checkSpan checked passed
    rw [UInt64.toNat_and, UInt64.toNat_shiftRight, shift_eq (by omega),
      Width.toNat_lowBits, Nat.min_eq_left (by omega), Nat.testBit_and, Nat.testBit_shiftRight,
      Nat.testBit_two_pow_sub_one, Bool.and_comm]
  apply Iff.intro
  · intro ran
    obtain ⟨_, passed, same⟩ := Except.bind_eq_ok.1 ran
    cases same
    exact ⟨passed, bits passed⟩
  · intro ⟨passed, each⟩
    refine Except.bind_eq_ok.2 ⟨(), passed, congrArg Except.ok ?_⟩
    apply UInt64.toNat_inj.1
    apply Nat.eq_of_testBit_eq
    intro i
    rw [bits passed, each]

/-- A value has no bits beyond those of its span. -/
def Fits (field : BitDescriptor) (value : UInt64) : Prop :=
  value.toNat < 2 ^ field.length

/-- A value of zero asks nothing of its bit-field; any other has to fit a span inside the
container. -/
def Admits (length : Nat) (field : BitDescriptor) (value : UInt64) : Prop :=
  value ≠ 0 → checkSpan length field = .ok () ∧ Fits field value

theorem fits_of_admits {value : UInt64} (admits : Admits length field value) :
    Fits field value := by
  by_cases zero : value = 0
  · subst zero
    exact Nat.two_pow_pos field.length
  · exact (admits zero).2

theorem shiftRight_eq_zero_iff {value : UInt64} (short : field.length ≤ 32) :
    value >>> UInt64.ofNat field.length = 0 ↔ Fits field value := by
  rw [← UInt64.toNat_inj, UInt64.toNat_shiftRight, shift_eq (by omega), Nat.shiftRight_eq_div_pow]
  exact Nat.div_eq_zero_iff_lt (Nat.two_pow_pos _)

theorem place_eq_ok {value placed : UInt64} (checked : check length = .ok ()) :
    place length field value = .ok placed ↔
      Admits length field value ∧ value <<< UInt64.ofNat field.offset = placed := by
  unfold place Admits
  by_cases zero : value = 0
  · subst zero
    simp only [if_true, UInt64.zero_shiftLeft, Except.ok.injEq, ne_eq, not_true_eq_false,
      false_implies, true_and]
  · rw [if_neg zero, Except.check_bind_eq_ok, imp_iff_right zero, and_assoc]
    refine and_congr_right fun passed => ?_
    rw [← shiftRight_eq_zero_iff (inside_of_checkSpan checked passed).2.1]
    split
    next empty => simp only [empty, true_and, Except.ok.injEq]
    next wide => simp only [wide, false_and, reduceCtorEq]

theorem testBit_place {value : UInt64} (checked : check length = .ok ())
    (admits : Admits length field value) (i : Nat) :
    (value <<< UInt64.ofNat field.offset).toNat.testBit i =
      (decide (field.Covers i) && value.toNat.testBit (i - field.offset)) := by
  by_cases zero : value = 0
  · subst zero
    rw [UInt64.zero_shiftLeft, UInt64.toNat_zero, Nat.zero_testBit, Nat.zero_testBit,
      Bool.and_false]
  obtain ⟨passed, fits⟩ := admits zero
  obtain ⟨narrow, short, inside⟩ := inside_of_checkSpan checked passed
  rw [UInt64.toNat_shiftLeft, shift_eq (by omega), Nat.testBit_mod_two_pow, Nat.testBit_shiftLeft]
  by_cases covers : field.Covers i
  · have bounds : field.offset ≤ i ∧ i < field.offset + field.length := covers
    simp only [covers, show i < 64 by omega, bounds.1, decide_true, Bool.true_and]
  · simp only [covers, decide_false, Bool.false_and]
    by_cases before : i < field.offset
    · simp only [show ¬ field.offset ≤ i by omega, decide_false, Bool.false_and,
        Bool.and_false]
    · have beyond : field.length ≤ i - field.offset := by
        unfold BitDescriptor.Covers at covers
        omega
      have above : value.toNat < 2 ^ (i - field.offset) :=
        Nat.lt_of_lt_of_le fits (Nat.pow_le_pow_right (by decide) beyond)
      rw [Nat.testBit_lt_two_pow above, Bool.and_false, Bool.and_false]

/-- The bits that entries set between them. -/
def gathered (fields : List (BitDescriptor × UInt64)) (i : Nat) : Bool :=
  fields.any fun (field, value) =>
    decide (field.Covers i) && value.toNat.testBit (i - field.offset)

theorem gathered_eq_true {fields : List (BitDescriptor × UInt64)} {i : Nat} :
    gathered fields i = true ↔ ∃ field value, (field, value) ∈ fields ∧ field.Covers i ∧
      value.toNat.testBit (i - field.offset) = true := by
  simp only [gathered, List.any_eq_true, Prod.exists, Bool.and_eq_true, decide_eq_true_eq]

theorem gathered_cons (field : BitDescriptor) (value : UInt64)
    (rest : List (BitDescriptor × UInt64)) (i : Nat) : gathered ((field, value) :: rest) i =
      (decide (field.Covers i) && value.toNat.testBit (i - field.offset) || gathered rest i) :=
  rfl

theorem lt_of_gathered {fields : List (BitDescriptor × UInt64)} (checked : check length = .ok ())
    (each : ∀ field value, (field, value) ∈ fields → Admits length field value) {i : Nat}
    (set : gathered fields i = true) : i < 8 * length := by
  obtain ⟨field, value, member, covers, own⟩ := gathered_eq_true.1 set
  have given : value ≠ 0 := by
    rintro rfl
    rw [UInt64.toNat_zero, Nat.zero_testBit] at own
    cases own
  have inside := inside_of_checkSpan checked (each field value member given).1
  have bounds : field.offset ≤ i ∧ i < field.offset + field.length := covers
  omega

theorem exists_gathered {fields : List (BitDescriptor × UInt64)} (checked : check length = .ok ())
    (each : ∀ field value, (field, value) ∈ fields → Admits length field value) :
    ∃ word : UInt64, ∀ i, word.toNat.testBit i = gathered fields i := by
  induction fields with
  | nil => exact ⟨0, fun i => Nat.zero_testBit i⟩
  | cons entry rest ih =>
    obtain ⟨field, value⟩ := entry
    obtain ⟨word, bits⟩ := ih fun other given member => each other given
      (List.mem_cons_of_mem _ member)
    refine ⟨value <<< UInt64.ofNat field.offset ||| word, fun i => ?_⟩
    rw [UInt64.toNat_or, Nat.testBit_or, bits, gathered_cons,
      testBit_place checked (each field value (List.mem_cons_self ..))]

theorem foldlM_place_eq_ok {fields : List (BitDescriptor × UInt64)}
    (checked : check length = .ok ()) {word after : UInt64} :
    fields.foldlM (fun word (field, value) => (place length field value).map (word ||| ·)) word =
        .ok after ↔
      (∀ field value, (field, value) ∈ fields → Admits length field value) ∧
        ∀ i, after.toNat.testBit i = (word.toNat.testBit i || gathered fields i) := by
  induction fields generalizing word with
  | nil =>
    have none (i : Nat) : gathered [] i = false := rfl
    simp only [List.foldlM_nil, none, Bool.or_false, List.not_mem_nil, false_implies,
      implies_true, true_and]
    apply Iff.intro
    · intro same i
      cases same
      rfl
    · intro same
      exact congrArg Except.ok (UInt64.toNat_inj.1 (Nat.eq_of_testBit_eq same)).symm
  | cons entry rest ih =>
    obtain ⟨field, value⟩ := entry
    simp only [List.foldlM_cons, Except.bind_eq_ok, Except.map_eq_ok, place_eq_ok checked, ih]
    apply Iff.intro
    · rintro ⟨_, ⟨_, ⟨admits, rfl⟩, rfl⟩, others, bits⟩
      refine ⟨fun other given member => ?_, fun i => ?_⟩
      · rcases List.mem_cons.1 member with same | member
        · cases same
          exact admits
        · exact others other given member
      · rw [bits, UInt64.toNat_or, Nat.testBit_or, testBit_place checked admits, gathered_cons,
          Bool.or_assoc]
    · intro ⟨each, bits⟩
      have admits := each field value (List.mem_cons_self ..)
      refine ⟨_, ⟨_, ⟨admits, rfl⟩, rfl⟩,
        fun other given member => each other given (List.mem_cons_of_mem _ member), fun i => ?_⟩
      rw [bits, UInt64.toNat_or, Nat.testBit_or, testBit_place checked admits, gathered_cons,
        Bool.or_assoc]

theorem pack_eq_ok {fields : List (BitDescriptor × UInt64)} {bytes : Bytes} :
    pack length fields = .ok bytes ↔ check length = .ok () ∧
      (∀ field value, (field, value) ∈ fields → Admits length field value) ∧
      bytes.length = length ∧ ∀ i, bit bytes i = gathered fields i := by
  have empty (i : Nat) : (0 : UInt64).toNat.testBit i = false := Nat.zero_testBit i
  unfold pack
  rw [Except.check_bind_eq_ok]
  refine and_congr_right fun checked => ?_
  have narrow : length ≤ 8 := Nat.le_trans (narrow_of_check checked) (by decide)
  simp only [Except.bind_eq_ok, foldlM_place_eq_ok checked, empty, Bool.false_or, Except.ok.injEq]
  apply Iff.intro
  · rintro ⟨word, ⟨admits, bits⟩, rfl⟩
    refine ⟨admits, BigEndian.length_toBytes length word, fun i => ?_⟩
    rw [bit_toBytes narrow, bits]
    -- The word may be wider than the container, but nothing is gathered beyond it.
    cases set : gathered fields i with
    | false => exact Bool.and_false _
    | true => rw [decide_eq_true (lt_of_gathered checked admits set), Bool.and_true]
  · intro ⟨admits, count, bits⟩
    subst count
    refine ⟨BigEndian.ofBytes bytes, ⟨admits, fun i => ?_⟩, BigEndian.toBytes_ofBytes narrow⟩
    rw [testBit_ofBytes narrow, bits]

theorem length_of_pack {fields : List (BitDescriptor × UInt64)} {bytes : Bytes}
    (ran : pack length fields = .ok bytes) : bytes.length = length :=
  (pack_eq_ok.1 ran).2.2.1

theorem exists_pack_iff {fields : List (BitDescriptor × UInt64)} :
    (∃ bytes, pack length fields = .ok bytes) ↔ check length = .ok () ∧
      ∀ field value, (field, value) ∈ fields → Admits length field value := by
  apply Iff.intro
  · intro ⟨bytes, packed⟩
    obtain ⟨checked, admits, -⟩ := pack_eq_ok.1 packed
    exact ⟨checked, admits⟩
  · intro ⟨checked, admits⟩
    obtain ⟨word, bits⟩ := exists_gathered checked admits
    have empty (i : Nat) : (0 : UInt64).toNat.testBit i = false := Nat.zero_testBit i
    have folded : fields.foldlM
        (fun word (field, value) => (place length field value).map (word ||| ·)) 0 = .ok word :=
      (foldlM_place_eq_ok checked).2 ⟨admits, fun i => by rw [bits, empty, Bool.false_or]⟩
    exact ⟨BigEndian.toBytes length word, Except.check_bind_eq_ok.2
      ⟨checked, Except.bind_eq_ok.2 ⟨word, folded, rfl⟩⟩⟩

/-- What bit-fields gather does not depend on the order in which they are packed. -/
theorem pack_of_perm {fields others : List (BitDescriptor × UInt64)} {bytes : Bytes}
    (order : fields.Perm others) (packed : pack length fields = .ok bytes) :
    pack length others = .ok bytes := by
  obtain ⟨checked, admits, count, bits⟩ := pack_eq_ok.1 packed
  refine pack_eq_ok.2 ⟨checked, fun field value member => ?_, count, fun i => ?_⟩
  · exact admits field value (order.mem_iff.2 member)
  · rw [bits, gathered, gathered, order.any_eq]

theorem unpack_eq_ok {container : Bytes} {fields : List BitDescriptor} {words : List UInt64} :
    unpack container fields = .ok words ↔ check container.length = .ok () ∧
      List.Forall₂ (fun field value =>
        extract container.length (BigEndian.ofBytes container) field = .ok value) fields words := by
  unfold unpack
  rw [Except.check_bind_eq_ok, Except.mapM_eq_ok]

theorem extract_ofBytes_eq_ok {container : Bytes} {value : UInt64}
    (checked : check container.length = .ok ()) :
    extract container.length (BigEndian.ofBytes container) field = .ok value ↔
      checkSpan container.length field = .ok () ∧ ∀ i, value.toNat.testBit i =
        (decide (i < field.length) && bit container (field.offset + i)) := by
  have narrow : container.length ≤ 8 := Nat.le_trans (narrow_of_check checked) (by decide)
  simp only [extract_eq_ok checked, testBit_ofBytes narrow]

theorem fits_of_extract {word value : UInt64} (checked : check length = .ok ())
    (ran : extract length word field = .ok value) : Fits field value := by
  apply Nat.lt_pow_two_of_testBit
  intro i beyond
  rw [((extract_eq_ok checked).1 ran).2]
  simp only [show ¬ i < field.length by omega, decide_false, Bool.false_and]

theorem gathered_of_apart {fields : List (BitDescriptor × UInt64)} {value : UInt64}
    (apart : (fields.map Prod.fst).Pairwise BitDescriptor.Apart) (member : (field, value) ∈ fields)
    {i : Nat} (covers : field.Covers i) :
    gathered fields i = value.toNat.testBit (i - field.offset) := by
  have mutually : Std.Symm fun a b : BitDescriptor × UInt64 => a.1.Apart b.1 :=
    ⟨fun _ _ => BitDescriptor.Apart.symm⟩
  rw [Bool.eq_iff_iff, gathered_eq_true]
  apply Iff.intro
  · intro ⟨other, found, present, covered, set⟩
    have same : (other, found) = (field, value) := by
      by_contra different
      exact (List.pairwise_map.1 apart).forall present member different i ⟨covered, covers⟩
    cases same
    exact set
  · intro set
    exact ⟨field, value, member, covers, set⟩

theorem unpack_of_pack {fields : List (BitDescriptor × UInt64)} {bytes : Bytes}
    (passed : ∀ field ∈ fields.map Prod.fst, checkSpan length field = .ok ())
    (apart : (fields.map Prod.fst).Pairwise BitDescriptor.Apart)
    (packed : pack length fields = .ok bytes) :
    unpack bytes (fields.map Prod.fst) = .ok (fields.map Prod.snd) := by
  obtain ⟨checked, admits, rfl, bits⟩ := pack_eq_ok.1 packed
  refine unpack_eq_ok.2 ⟨checked, List.forall₂_map_left_iff.2 (List.forall₂_map_right_iff.2
    (List.forall₂_same.2 ?_))⟩
  intro (field, value) member
  refine (extract_ofBytes_eq_ok checked).2 ⟨passed field (List.mem_map_of_mem member), fun i => ?_⟩
  by_cases within : i < field.length
  · have covers : field.Covers (field.offset + i) :=
      ⟨Nat.le_add_right _ _, Nat.add_lt_add_left within _⟩
    rw [bits, gathered_of_apart apart member covers, Nat.add_sub_cancel_left, decide_eq_true within,
      Bool.true_and]
  · have fits := fits_of_admits (admits field value member)
    have beyond : 2 ^ field.length ≤ 2 ^ i := Nat.pow_le_pow_right (by decide) (by omega)
    rw [Nat.testBit_lt_two_pow (Nat.lt_of_lt_of_le fits beyond), decide_eq_false within,
      Bool.false_and]

theorem extract_of_unpack {container : Bytes} {fields : List BitDescriptor} {words : List UInt64}
    {value : UInt64} (unpacked : unpack container fields = .ok words)
    (member : (field, value) ∈ fields.zip words) :
    extract container.length (BigEndian.ofBytes container) field = .ok value :=
  (List.forall₂_iff_zip.1 (unpack_eq_ok.1 unpacked).2).2 member

theorem exists_of_unpack {container : Bytes} {fields : List BitDescriptor} {words : List UInt64}
    (unpacked : unpack container fields = .ok words) (member : field ∈ fields) :
    ∃ value, (field, value) ∈ fields.zip words := by
  have paired := (List.forall₂_iff_zip.1 (unpack_eq_ok.1 unpacked).2).1
  rw [← List.map_fst_zip (Nat.le_of_eq paired)] at member
  obtain ⟨⟨field, value⟩, given, rfl⟩ := List.mem_map.1 member
  exact ⟨value, given⟩

theorem admits_of_unpack {container : Bytes} {fields : List BitDescriptor} {words : List UInt64}
    (unpacked : unpack container fields = .ok words) (field : BitDescriptor) (value : UInt64)
    (member : (field, value) ∈ fields.zip words) : Admits container.length field value := by
  have checked := (unpack_eq_ok.1 unpacked).1
  have own := extract_of_unpack unpacked member
  exact fun _ => ⟨((extract_ofBytes_eq_ok checked).1 own).1, fits_of_extract checked own⟩

theorem gathered_of_unpack {container : Bytes} {fields : List BitDescriptor} {words : List UInt64}
    (unpacked : unpack container fields = .ok words) (i : Nat) :
    gathered (fields.zip words) i = true ↔
      bit container i = true ∧ ∃ field ∈ fields, field.Covers i := by
  have checked := (unpack_eq_ok.1 unpacked).1
  have read (field : BitDescriptor) (value : UInt64) (member : (field, value) ∈ fields.zip words)
      (covers : field.Covers i) : value.toNat.testBit (i - field.offset) = bit container i := by
    have bounds : field.offset ≤ i ∧ i < field.offset + field.length := covers
    have own := ((extract_ofBytes_eq_ok checked).1 (extract_of_unpack unpacked member)).2
    rw [own, Nat.add_sub_cancel' bounds.1, decide_eq_true (by omega), Bool.true_and]
  rw [gathered_eq_true]
  apply Iff.intro
  · intro ⟨field, value, member, covers, set⟩
    rw [read field value member covers] at set
    exact ⟨set, field, (List.of_mem_zip member).1, covers⟩
  · intro ⟨set, field, member, covers⟩
    obtain ⟨value, given⟩ := exists_of_unpack unpacked member
    exact ⟨field, value, given, covers, by rw [read field value given covers, set]⟩

theorem pack_of_unpack {container bytes : Bytes} {fields : List BitDescriptor}
    {words : List UInt64} (unpacked : unpack container fields = .ok words)
    (count : bytes.length = container.length)
    (bits : ∀ i, bit bytes i = true ↔
      bit container i = true ∧ ∃ field ∈ fields, field.Covers i) :
    pack container.length (fields.zip words) = .ok bytes := by
  refine pack_eq_ok.2 ⟨(unpack_eq_ok.1 unpacked).1, admits_of_unpack unpacked, count, fun i => ?_⟩
  rw [Bool.eq_iff_iff, bits, gathered_of_unpack unpacked]

end Container

end Wireform
