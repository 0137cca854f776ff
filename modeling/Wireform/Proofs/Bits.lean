import Wireform.Proofs.Container

/-!
What packing and unpacking mean, bit by bit. Packing sets the bits that some entry sets, whatever
the order of the entries and however their spans overlap; unpacking reads the bits of each span. No
shift on the way is as wide as the word, and none drops a bit that is set.
-/

namespace Wireform.Container

variable {length : Nat} {field : BitDescriptor}

/-- Shifting the word to the left keeps all of its bits. -/
def ShiftsWhole (word : UInt64) (amount : Nat) : Prop :=
  amount < 64 ∧ (word <<< UInt64.ofNat amount).toNat = word.toNat * 2 ^ amount

theorem shiftsWhole_of_lt {word : UInt64} {amount : Nat} (small : amount < 64)
    (room : word.toNat * 2 ^ amount < 2 ^ 64) : ShiftsWhole word amount := by
  refine ⟨small, ?_⟩
  rw [UInt64.toNat_shiftLeft, shift_eq small, Nat.shiftLeft_eq, Nat.mod_eq_of_lt room]

theorem shiftsWhole_of_admits {value : UInt64} (checked : check length = .ok ())
    (admits : Admits length field value) (given : value ≠ 0) : ShiftsWhole value field.offset := by
  obtain ⟨passed, fits⟩ := admits given
  obtain ⟨narrow, short, inside⟩ := inside_of_checkSpan checked passed
  refine shiftsWhole_of_lt (by omega) ?_
  calc value.toNat * 2 ^ field.offset
      < 2 ^ field.length * 2 ^ field.offset :=
        Nat.mul_lt_mul_of_pos_right fits (Nat.two_pow_pos _)
    _ = 2 ^ (field.length + field.offset) := (Nat.pow_add ..).symm
    _ ≤ 2 ^ 64 := Nat.pow_le_pow_right (by decide) (by omega)

theorem shiftsWhole_one (short : field.length ≤ 32) : ShiftsWhole 1 field.length := by
  refine shiftsWhole_of_lt (by omega) ?_
  calc (1 : UInt64).toNat * 2 ^ field.length = 2 ^ field.length := Nat.one_mul _
    _ < 2 ^ 64 := Nat.pow_lt_pow_right (by decide) (by omega)

theorem shiftsWhole_ofBytes {front : Bytes} (narrow : front.length < 8) :
    ShiftsWhole (BigEndian.ofBytes front) 8 := by
  have bound := BigEndian.toNat_ofBytes_lt (Nat.le_of_lt narrow)
  have room := BigEndian.pow_le_word narrow
  rw [Nat.pow_succ] at room
  exact shiftsWhole_of_lt (by decide) (by omega)

/-- The word that entries are gathered in, one after the other. -/
def gather (length : Nat) (fields : List (BitDescriptor × UInt64)) : Except Fault UInt64 :=
  fields.foldlM (fun word (field, value) => (place length field value).map (word ||| ·)) 0

theorem pack_eq_gather (length : Nat) (fields : List (BitDescriptor × UInt64)) :
    pack length fields = (do
      check length
      let word ← gather length fields
      .ok (BigEndian.toBytes length word)) :=
  rfl

theorem toNat_gather_lt {fields : List (BitDescriptor × UInt64)} {word : UInt64}
    (checked : check length = .ok ()) (gathered : gather length fields = .ok word) :
    word.toNat < 2 ^ (8 * length) := by
  obtain ⟨admits, bits⟩ := (foldlM_place_eq_ok checked).1 gathered
  apply Nat.lt_pow_two_of_testBit
  intro i beyond
  rw [bits, UInt64.toNat_zero, Nat.zero_testBit, Bool.false_or, Bool.eq_false_iff]
  intro set
  have within := lt_of_gathered checked admits set
  omega

/-- A value of zero is admitted by any span; any other needs one inside the container that holds
it. -/
theorem admits_iff {value : UInt64} (checked : check length = .ok ()) :
    Admits length field value ↔ (value ≠ 0 → field.length ≤ 32 ∧
      field.offset + field.length ≤ 8 * length ∧ value.toNat < 2 ^ field.length) := by
  unfold Admits Fits
  rw [checkSpan_eq_ok checked, BitDescriptor.Inside, and_assoc]

theorem exists_unpack_iff {container : Bytes} {fields : List BitDescriptor} :
    (∃ words, unpack container fields = .ok words) ↔ check container.length = .ok () ∧
      ∀ field ∈ fields, checkSpan container.length field = .ok () := by
  apply Iff.intro
  · intro ⟨words, unpacked⟩
    have checked := (unpack_eq_ok.1 unpacked).1
    refine ⟨checked, fun field member => ?_⟩
    obtain ⟨value, given⟩ := exists_of_unpack unpacked member
    exact ((extract_eq_ok checked).1 (extract_of_unpack unpacked given)).1
  · intro ⟨checked, passed⟩
    refine ⟨fields.map fun field => (BigEndian.ofBytes container >>> UInt64.ofNat field.offset) &&&
      Width.lowBits field.length, unpack_eq_ok.2 ⟨checked, ?_⟩⟩
    refine List.forall₂_map_right_iff.2 (List.forall₂_same.2 fun field member => ?_)
    exact Except.check_bind_eq_ok.2 ⟨passed field member, rfl⟩

/-- What packing comes to: when it succeeds, which bits it sets, that the order of entries is
nothing to it, and that no bit is lost on the way. -/
structure PackExact (length : Nat) (fields : List (BitDescriptor × UInt64)) : Prop where
  succeeds : (∃ bytes, pack length fields = .ok bytes) ↔ (1 ≤ length ∧ length ≤ 4) ∧
    ∀ field value, (field, value) ∈ fields → value ≠ 0 → field.length ≤ 32 ∧
      field.offset + field.length ≤ 8 * length ∧ value.toNat < 2 ^ field.length
  bits : ∀ bytes, pack length fields = .ok bytes → bytes.length = length ∧
    ∀ i, bit bytes i = true ↔ ∃ field value, (field, value) ∈ fields ∧
      (field.offset ≤ i ∧ i < field.offset + field.length) ∧
      value.toNat.testBit (i - field.offset) = true
  orderless : ∀ others, fields.Perm others → ∀ bytes,
    pack length others = .ok bytes ↔ pack length fields = .ok bytes
  placed : ∀ bytes, pack length fields = .ok bytes → ∀ field value, (field, value) ∈ fields →
    value ≠ 0 → field.length < 64 ∧ ShiftsWhole value field.offset
  split : ∀ bytes, pack length fields = .ok bytes → (∀ i < length, 8 * i < 64) ∧
    ∃ word, gather length fields = .ok word ∧ word.toNat < 2 ^ (8 * length) ∧
      BigEndian.toBytes length word = bytes

/-- What unpacking comes to: when it succeeds, which bits it reads, and that no bit is lost on the
way. -/
structure UnpackExact (container : Bytes) (fields : List BitDescriptor) : Prop where
  succeeds : (∃ words, unpack container fields = .ok words) ↔
    (1 ≤ container.length ∧ container.length ≤ 4) ∧
      ∀ field ∈ fields, field.offset + field.length ≤ 8 * container.length
  bits : ∀ words, unpack container fields = .ok words → List.Forall₂ (fun field word =>
    ∀ i, word.toNat.testBit i = (decide (i < field.length) && bit container (field.offset + i)))
      fields words
  gathered : ∀ words, unpack container fields = .ok words → ∀ front byte rest,
    container = front ++ byte :: rest → ShiftsWhole (BigEndian.ofBytes front) 8
  masked : ∀ words, unpack container fields = .ok words → ∀ field ∈ fields,
    field.offset < 64 ∧ ShiftsWhole 1 field.length

theorem packExact (length : Nat) (fields : List (BitDescriptor × UInt64)) :
    PackExact length fields where
  succeeds := by
    rw [exists_pack_iff, check_eq_ok]
    refine and_congr_right fun narrow => ?_
    simp only [admits_iff (check_eq_ok.2 narrow)]
  bits bytes packed := by
    obtain ⟨-, -, count, same⟩ := pack_eq_ok.1 packed
    refine ⟨count, fun i => ?_⟩
    rw [same, gathered_eq_true]
    rfl
  orderless others order bytes := ⟨pack_of_perm order.symm, pack_of_perm order⟩
  placed bytes packed field value member given := by
    obtain ⟨checked, admits, -⟩ := pack_eq_ok.1 packed
    have short := (inside_of_checkSpan checked (admits field value member given).1).2.1
    exact ⟨by omega, shiftsWhole_of_admits checked (admits field value member) given⟩
  split bytes packed := by
    rw [pack_eq_gather, Except.check_bind_eq_ok] at packed
    obtain ⟨checked, ran⟩ := packed
    obtain ⟨word, gathered, same⟩ := Except.bind_eq_ok.1 ran
    have narrow := narrow_of_check checked
    exact ⟨by omega, word, gathered, toNat_gather_lt checked gathered, Except.ok.inj same⟩

theorem unpackExact (container : Bytes) (fields : List BitDescriptor) :
    UnpackExact container fields where
  succeeds := by
    rw [exists_unpack_iff, check_eq_ok]
    refine and_congr_right fun narrow => forall₂_congr fun field _ => ?_
    rw [checkSpan_eq_ok (check_eq_ok.2 narrow), BitDescriptor.Inside]
    omega
  bits words unpacked := by
    obtain ⟨checked, extracted⟩ := unpack_eq_ok.1 unpacked
    exact extracted.imp fun field word own => ((extract_ofBytes_eq_ok checked).1 own).2
  gathered words unpacked front byte rest whole := by
    have narrow := narrow_of_check (unpack_eq_ok.1 unpacked).1
    rw [whole, List.length_append, List.length_cons] at narrow
    exact shiftsWhole_ofBytes (by omega)
  masked words unpacked field member := by
    obtain ⟨checked, passed⟩ := exists_unpack_iff.1 ⟨words, unpacked⟩
    obtain ⟨narrow, short, inside⟩ := inside_of_checkSpan checked (passed field member)
    exact ⟨by omega, shiftsWhole_one short⟩

/-- Entries that share no bit and fit their spans are packed, and read back. -/
theorem exists_unpack_of_pack {fields : List (BitDescriptor × UInt64)}
    (checked : check length = .ok ())
    (each : ∀ field value, (field, value) ∈ fields → field.Inside length ∧ Fits field value)
    (apart : (fields.map Prod.fst).Pairwise BitDescriptor.Apart) :
    ∃ bytes, pack length fields = .ok bytes ∧
      unpack bytes (fields.map Prod.fst) = .ok (fields.map Prod.snd) := by
  obtain ⟨bytes, packed⟩ := exists_pack_iff.2 ⟨checked, fun field value member _ =>
    ⟨(checkSpan_eq_ok checked).2 (each field value member).1, (each field value member).2⟩⟩
  refine ⟨bytes, packed, unpack_of_pack (List.forall_mem_map.2 fun entry member => ?_) apart packed⟩
  exact (checkSpan_eq_ok checked).2 (each entry.1 entry.2 member).1

/-- What is read from a container packs it again, with the bits cleared that no span covers. -/
theorem exists_pack_of_unpack {container : Bytes} {fields : List BitDescriptor}
    {words : List UInt64} (unpacked : unpack container fields = .ok words) :
    ∃ bytes, pack container.length (fields.zip words) = .ok bytes ∧
      bytes.length = container.length ∧ ∀ i, bit bytes i = true ↔
        bit container i = true ∧ ∃ field ∈ fields, field.Covers i := by
  obtain ⟨bytes, packed⟩ := exists_pack_iff.2
    ⟨(unpack_eq_ok.1 unpacked).1, admits_of_unpack unpacked⟩
  obtain ⟨-, -, count, bits⟩ := pack_eq_ok.1 packed
  exact ⟨bytes, packed, count, fun i => by rw [bits, gathered_of_unpack unpacked]⟩

/-- Packing and unpacking mean what their bits say, and each undoes the other as far as the spans
allow. -/
theorem pack_unpack_exact :
    (∀ length fields, PackExact length fields) ∧
      (∀ container fields, UnpackExact container fields) ∧
      (∀ length (fields : List (BitDescriptor × UInt64)), 1 ≤ length ∧ length ≤ 4 →
        (∀ field value, (field, value) ∈ fields →
          field.offset + field.length ≤ 8 * length ∧ value.toNat < 2 ^ field.length) →
        (fields.map Prod.fst).Pairwise BitDescriptor.Apart →
        ∃ bytes, pack length fields = .ok bytes ∧
          unpack bytes (fields.map Prod.fst) = .ok (fields.map Prod.snd)) ∧
      ∀ container fields words, unpack container fields = .ok words →
        ∃ bytes, pack container.length (fields.zip words) = .ok bytes ∧
          bytes.length = container.length ∧ ∀ i, bit bytes i = true ↔
            bit container i = true ∧ ∃ field ∈ fields, field.Covers i := by
  refine ⟨packExact, unpackExact, ?_, fun _ _ _ => exists_pack_of_unpack⟩
  intro length fields narrow each apart
  refine exists_unpack_of_pack (check_eq_ok.2 narrow) (fun field value member => ?_) apart
  have ends := (each field value member).1
  exact ⟨⟨by omega, ends⟩, (each field value member).2⟩

/-- Two spans apart from each other come back, and the gap between them is cleared. -/
theorem pack_unpack_exact_apart :
    (∃ bytes, pack 2 [(.ofSpan 0 3, 5), (.ofSpan 6 4, 9)] = .ok bytes ∧
      unpack bytes [.ofSpan 0 3, .ofSpan 6 4] = .ok [5, 9]) ∧
    ∃ bytes, pack 2 [(.ofSpan 0 3, 7), (.ofSpan 6 4, 15)] = .ok bytes ∧ bytes.length = 2 ∧
      ¬ bit bytes 3 = true := by
  obtain ⟨-, -, read, cleared⟩ := pack_unpack_exact
  have unpacked : unpack [0xff, 0xff] [.ofSpan 0 3, .ofSpan 6 4] = .ok [7, 15] := rfl
  obtain ⟨bytes, packed, count, bits⟩ := cleared _ _ _ unpacked
  refine ⟨read 2 [(.ofSpan 0 3, 5), (.ofSpan 6 4, 9)] (by decide) ?_ (by decide), bytes, packed,
    count, fun set => ?_⟩
  · simp only [List.mem_cons, List.not_mem_nil, or_false, Prod.mk.injEq]
    rintro field value (⟨rfl, rfl⟩ | ⟨rfl, rfl⟩) <;> decide
  · exact absurd ((bits 3).1 set).2 (by decide)

end Wireform.Container
