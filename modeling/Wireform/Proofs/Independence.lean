import Wireform.Proofs.Interchange
import Wireform.Proofs.Settled
import Wireform.Proofs.Normal

/-!
Bit-fields of one container. What one of them holds reaches the bits of its span and no others, so
it is nothing to a bit-field that shares none of them. Spans may share bits, though: a plan asks
only that each of them ends inside the container.
-/

namespace Wireform

open Cursor

theorem Leaf.gathered_of_words {record : String} {bits : List (Planned BitDescriptor × Held)}
    {entries : List (BitDescriptor × UInt64)} (given : words record bits = .ok entries) (i : Nat) :
    Container.gathered entries i = true ↔ ∃ bit ∈ bits, bit.1.descriptor.Covers i ∧
      ∃ value, bit.2.value = .uint value ∧
        value.toNat.testBit (i - bit.1.descriptor.offset) = true := by
  simp only [Container.gathered_eq_true, mem_words_iff given]
  apply Iff.intro
  · rintro ⟨_, value, ⟨bit, member, rfl, holds⟩, covers, set⟩
    exact ⟨bit, member, covers, value, holds, set⟩
  · rintro ⟨bit, member, covers, value, holds, set⟩
    exact ⟨_, value, ⟨bit, member, rfl, holds⟩, covers, set⟩

namespace BitField

variable {declared : List BitField} {planned : List (Planned BitDescriptor)} {record : String}

/-- Two packed records hold the same but for the bit-field at a position. -/
def SameBut (declared : List BitField) (position : Nat) (a b : Contents declared) : Prop :=
  ∀ other, other ≠ position → heldAt declared a other = heldAt declared b other

theorem SameBut.symm {position : Nat} {a b : Contents declared}
    (same : SameBut declared position a b) : SameBut declared position b a :=
  fun other different => (same other different).symm

theorem gathered_of_sameBut {a b : Contents declared} {changed : Planned BitDescriptor}
    (once : (planned.map Planned.position).Nodup) (travels : changed ∈ planned)
    (same : SameBut declared changed.position a b) {entries others : List (BitDescriptor × UInt64)}
    (given : Leaf.words record (planned.map fun bit => (bit, heldAt declared a bit.position)) =
      .ok entries)
    (given' : Leaf.words record (planned.map fun bit => (bit, heldAt declared b bit.position)) =
      .ok others) {i : Nat} (outside : ¬ changed.descriptor.Covers i)
    (set : Container.gathered entries i = true) : Container.gathered others i = true := by
  obtain ⟨_, member, covers, value, holds, set⟩ := (Leaf.gathered_of_words given i).1 set
  obtain ⟨bit, listed, rfl⟩ := List.mem_map.1 member
  -- A bit-field that covers the bit is not the one that changed.
  have different : bit.position ≠ changed.position := by
    intro equal
    obtain rfl : bit = changed := List.inj_on_of_nodup_map once listed travels equal
    exact outside covers
  refine (Leaf.gathered_of_words given' i).2 ⟨_, List.mem_map_of_mem listed, covers, value, ?_, set⟩
  rw [← same _ different]
  exact holds

/-- A bit-field draws the same from containers that hold the same bits in its span. -/
theorem draw_of_bits {container other : Bytes} {type : FieldType} {descriptor : BitDescriptor}
    {held : Held} (checked : Container.check container.length = .ok ())
    (count : other.length = container.length)
    (same : ∀ i, descriptor.Covers i → Container.bit other i = Container.bit container i)
    (drawn : draw container type descriptor = .ok held) :
    draw other type descriptor = .ok held := by
  obtain ⟨word, extracted, taken⟩ := Except.bind_eq_ok.1 drawn
  obtain ⟨passed, bits⟩ := (Container.extract_ofBytes_eq_ok checked).1 extracted
  rw [← count] at checked passed
  refine Except.bind_eq_ok.2 ⟨word, (Container.extract_ofBytes_eq_ok checked).2
    ⟨passed, fun i => ?_⟩, taken⟩
  rw [bits]
  by_cases within : i < descriptor.length
  · rw [same _ ⟨Nat.le_add_right _ _, Nat.add_lt_add_left within _⟩]
  · rw [decide_eq_false within, Bool.false_and, Bool.false_and]

theorem exists_fill_of_words {contents : Contents declared} {container : Bytes}
    {entries : List (BitDescriptor × UInt64)} (registry : Registry) (length : Nat)
    (given : Leaf.words record (planned.map fun bit =>
      (bit, heldAt declared contents bit.position)) = .ok entries)
    (checked : Container.check container.length = .ok ())
    (passed : ∀ bit ∈ planned, Container.checkSpan container.length bit.descriptor = .ok ()) :
    ∃ leaf, Leaf.fill registry container (.packed record length (typed declared planned)) =
      .ok leaf := by
  have never : Except.Raises
      (Leaf.fill registry container (.packed record length (typed declared planned)))
      fun _ => False := by
    rw [Leaf.fill_packed]
    refine (Container.raises_unpack checked (List.forall_mem_map.2 passed)).bind fun words _ => ?_
    refine ((Leaf.raises_fillBits _ words).mono ?_).map _
    -- A type that gives an integer takes any other.
    rintro fault ⟨⟨⟨bit, type⟩, word⟩, read, foreign⟩
    obtain ⟨_, listed, same⟩ := List.mem_map.1 (List.of_mem_zip read).1
    cases same
    obtain ⟨entry, spelled⟩ := Except.exists_of_mapM given (List.mem_map_of_mem listed)
    have accepts : ∃ taken,
        (heldAt declared contents bit.position).type.ofValue (.uint word) = .ok taken :=
      FieldType.ofValue_of_kind (congrArg Value.kind (Leaf.of_word spelled).2).symm
    obtain ⟨taken, accepted⟩ := accepts
    change (typeAt declared bit.position).ofValue (.uint word) = .error fault at foreign
    rw [← type_heldAt declared contents, accepted] at foreign
    cases foreign
  cases filled : Leaf.fill registry container (.packed record length (typed declared planned)) with
  | ok leaf => exact ⟨leaf, rfl⟩
  | error fault => exact (never fault filled).elim

end BitField

namespace Marshaller

section

variable {tag length version n : Nat} {name : String} {declared : List BitField} {plan : Plan}
  {record : (Schema.packed tag name length declared).Record} {marshaller left : Marshaller}
  {bytes : Bytes}

theorem pack_of_encode
    (resolved : (Schema.packed tag name length declared).resolve version = .ok plan)
    (ran : encode (.packed tag name length declared) version record (marshaller, ([] : Bytes)) =
      .ok n (left, bytes)) :
    ∃ entries, Leaf.words name (plan.bits.map fun bit =>
        (bit, BitField.heldAt declared record bit.position)) = .ok entries ∧
      Container.pack length entries = .ok bytes := by
  obtain ⟨written, each, -, rfl⟩ := pieces_of_encode ran
  change ((Schema.packed tag name length declared).leaves version record).map
    (· >>= Leaf.alone (marshaller.setting version)) = _ at each
  rw [Schema.leaves_of_resolve_packed resolved] at each
  obtain ⟨wire, others, rfl, alone, none⟩ := List.map_eq_cons_iff.1 each.symm
  obtain rfl := List.map_eq_nil_iff.1 none
  have framed := (Leaf.alone_eq_frame _ _).symm.trans alone.symm
  obtain ⟨pieces, framed, same⟩ := Except.map_eq_ok.1 framed
  obtain ⟨entries, given, framed⟩ := Except.bind_eq_ok.1 framed
  obtain ⟨container, packed, framed⟩ := Except.bind_eq_ok.1 framed
  cases framed
  rw [List.flatten_singleton] at same ⊢
  exact ⟨entries, given, same ▸ packed⟩

theorem decode_of_encode_packed
    (resolved : (Schema.packed tag name length declared).resolve version = .ok plan)
    (ran : encode (.packed tag name length declared) version record (marshaller, ([] : Bytes)) =
      .ok n (left, bytes)) (reader : Marshaller)
    (initial : (Schema.packed tag name length declared).Record) (tail : Bytes) :
    ∃ decoded after stopped,
      decode (.packed tag name length declared) version initial
          (reader, ofBytes (bytes ++ tail)) =
        .ok decoded (after, stopped) ∧
      ∀ bit ∈ plan.bits,
        BitField.draw bytes (BitField.typeAt declared bit.position) bit.descriptor =
          .ok (BitField.heldAt declared decoded.record bit.position) := by
  obtain ⟨entries, given, packed⟩ := pack_of_encode resolved ran
  obtain ⟨-, -, lists, -⟩ := Schema.plannedBy_of_resolve resolved
  obtain ⟨-, checked, inside⟩ := Schema.of_resolve_packed resolved
  have count := Container.length_of_pack packed
  obtain ⟨leaf, filled⟩ := BitField.exists_fill_of_words reader.registry length given
    (count ▸ checked) fun bit listed => count ▸ (inside bit listed).2
  have takes : Takes (Leaf.readAll (reader.setting version)
      ((Schema.packed tag name length declared).layout version)) bytes tail [bytes] := by
    rw [Schema.layout_of_resolve_packed resolved]
    refine Leaf.takes_readAll_cons_iff.2 ⟨_, rfl, bytes, bytes, [], (List.append_nil _).symm, ?_,
      [], takes_pure_iff.2 ⟨rfl, rfl⟩, rfl⟩
    exact Leaf.takes_read_iff.2 ⟨takes_readFixed_iff.2 ⟨rfl, count⟩, leaf, filled⟩
  obtain ⟨after, decoded⟩ := decode_of_takes takes initial []
  refine ⟨_, _, _, decoded, ?_⟩
  simp only [assemble, Schema.build_packed resolved, List.headD_cons]
  exact (BitField.heldAt_build _ _ lists filled).1

end

/-- Bit-fields that share no bit are independent. Take two packed records that hold the same but for
one bit-field that travels, and let both be encoded: then what they were encoded as is decoded
again, and every bit-field that travels and has no bit in common with the changed one holds the same
in both. -/
theorem apart_bits_independent {tag length version : Nat} {name : String}
    {declared : List BitField} {plan : Plan}
    (resolved : (Schema.packed tag name length declared).resolve version = .ok plan)
    {changed : Planned BitDescriptor} (travels : changed ∈ plan.bits)
    {record other : (Schema.packed tag name length declared).Record}
    (same : BitField.SameBut declared changed.position record other)
    {marshaller left marshaller' left' : Marshaller} {n n' : Nat} {bytes bytes' : Bytes}
    (ran : encode (.packed tag name length declared) version record (marshaller, ([] : Bytes)) =
      .ok n (left, bytes))
    (ran' : encode (.packed tag name length declared) version other (marshaller', ([] : Bytes)) =
      .ok n' (left', bytes'))
    (reader reader' : Marshaller)
    (initial initial' : (Schema.packed tag name length declared).Record) (tail tail' : Bytes) :
    ∃ decoded after stopped decoded' after' stopped',
      decode (.packed tag name length declared) version initial
          (reader, ofBytes (bytes ++ tail)) =
        .ok decoded (after, stopped) ∧
      decode (.packed tag name length declared) version initial'
          (reader', ofBytes (bytes' ++ tail')) =
        .ok decoded' (after', stopped') ∧
      ∀ bit ∈ plan.bits, bit.descriptor.Apart changed.descriptor →
        BitField.heldAt declared decoded.record bit.position =
          BitField.heldAt declared decoded'.record bit.position := by
  obtain ⟨decoded, after, stopped, read, drawn⟩ :=
    decode_of_encode_packed resolved ran reader initial tail
  obtain ⟨decoded', after', stopped', read', drawn'⟩ :=
    decode_of_encode_packed resolved ran' reader' initial' tail'
  refine ⟨decoded, after, stopped, decoded', after', stopped', read, read', ?_⟩
  intro bit listed apart
  obtain ⟨entries, given, packed⟩ := pack_of_encode resolved ran
  obtain ⟨others, given', packed'⟩ := pack_of_encode resolved ran'
  obtain ⟨checked, -, count, bits⟩ := Container.pack_eq_ok.1 packed
  obtain ⟨-, -, count', bits'⟩ := Container.pack_eq_ok.1 packed'
  have once := (Schema.of_resolve_packed resolved).1
  have kept (i : Nat) (covers : bit.descriptor.Covers i) :
      Container.bit bytes' i = Container.bit bytes i := by
    have outside : ¬ changed.descriptor.Covers i := fun shared => apart i ⟨covers, shared⟩
    rw [Bool.eq_iff_iff, bits, bits']
    exact ⟨BitField.gathered_of_sameBut once travels same.symm given' given outside,
      BitField.gathered_of_sameBut once travels same given given' outside⟩
  have again := BitField.draw_of_bits (count.symm ▸ checked) (count'.trans count.symm) kept
    (drawn bit listed)
  exact Except.ok.inj (again.symm.trans (drawn' bit listed))

end Marshaller

namespace Sample

/-- The second bit-field shares bits with the first; the third shares none with either. -/
def sharing : List BitField :=
  [⟨"first", .uint8, [.ofSpan 0 8]⟩, ⟨"second", .uint8, [.ofSpan 4 8]⟩,
    ⟨"third", .uint8, [.ofSpan 12 4]⟩]

def shared : Schema :=
  .packed 9 "Shared" 2 sharing

def bit (position : Nat) (name : String) (offset length : Nat) : Planned BitDescriptor :=
  ⟨position, name, (BitDescriptor.ofSpan offset length).named name⟩

def sharedPlan : Plan :=
  ⟨"Shared", 1, [], [bit 0 "first" 0 8, bit 1 "second" 4 8, bit 2 "third" 12 4]⟩

def share (first second third : UInt8) : shared.Record :=
  (first, second, third, ())

theorem sameBut_share (first first' second third : UInt8) :
    BitField.SameBut sharing 0 (share first second third) (share first' second third) := by
  intro other different
  obtain ⟨other, rfl⟩ := Nat.exists_eq_succ_of_ne_zero different
  rfl

end Sample

namespace Marshaller

/-- Whatever becomes of the first bit-field, the third holds the same. -/
theorem apart_bits_independent_third :
    ∃ decoded after stopped decoded' after' stopped',
      decode Sample.shared 1 (Sample.share 0 0 0) (default, ofBytes ([0x50, 0x00] ++ [])) =
        .ok decoded (after, stopped) ∧
      decode Sample.shared 1 (Sample.share 7 7 7) (default, ofBytes ([0x50, 0x10] ++ [])) =
        .ok decoded' (after', stopped') ∧
      BitField.heldAt Sample.sharing decoded.record 2 =
        BitField.heldAt Sample.sharing decoded'.record 2 := by
  have resolved : Sample.shared.resolve 1 = .ok Sample.sharedPlan := rfl
  have travels : Sample.bit 0 "first" 0 8 ∈ Sample.sharedPlan.bits := by decide +kernel
  have same := Sample.sameBut_share 0 16 0 5
  have ran : encode Sample.shared 1 (Sample.share 0 0 5) (default, ([] : Bytes)) =
    .ok 2 (_, [0x50, 0x00]) := rfl
  have ran' : encode Sample.shared 1 (Sample.share 16 0 5) (default, ([] : Bytes)) =
    .ok 2 (_, [0x50, 0x10]) := rfl
  obtain ⟨decoded, after, stopped, decoded', after', stopped', read, read', holds⟩ :=
    apart_bits_independent resolved travels same ran ran' default default _ _ [] []
  refine ⟨decoded, after, stopped, decoded', after', stopped', read, read', ?_⟩
  exact holds (Sample.bit 2 "third" 12 4) (by decide +kernel) (by decide +kernel)

/-- Bit-fields that share bits are not independent: a plan is made of them all the same. Two records
that differ in the first bit-field alone are both encoded, and what they are encoded as is decoded
with different values in the second. -/
theorem shared_bits_dependent :
    Sample.shared.resolve 1 = .ok Sample.sharedPlan ∧
    BitField.SameBut Sample.sharing 0 (Sample.share 0 0 5) (Sample.share 16 0 5) ∧
    (∃ left, encode Sample.shared 1 (Sample.share 0 0 5) (default, ([] : Bytes)) =
      .ok 2 (left, [0x50, 0x00])) ∧
    (∃ left, encode Sample.shared 1 (Sample.share 16 0 5) (default, ([] : Bytes)) =
      .ok 2 (left, [0x50, 0x10])) ∧
    (∃ left, decode Sample.shared 1 (Sample.share 7 7 7) (default, ofBytes [0x50, 0x00]) =
      .ok ⟨Sample.share 0 0 5, none⟩ left) ∧
    ∃ left, decode Sample.shared 1 (Sample.share 7 7 7) (default, ofBytes [0x50, 0x10]) =
      .ok ⟨Sample.share 16 1 5, none⟩ left :=
  ⟨rfl, Sample.sameBut_share 0 16 0 5, ⟨_, rfl⟩, ⟨_, rfl⟩, ⟨_, rfl⟩, _, rfl⟩

end Marshaller

end Wireform
