import Wireform.Proofs.Delivery
import Wireform.Proofs.Limit

/-!
How many bytes a record takes whose leaves all have a declared length. Each codec but that of text
fills the declared length, or refuses, and a container has as many bytes as it says, so what such a
record is written as, and what it is read off, has one length for all records of its type.
-/

namespace Wireform

open Cursor

/-- A source of which it is known what is taken by reading so many bytes. -/
class Metered (σ : Type) [Source σ] where
  /-- What the source has yet to give. -/
  unread : σ → Bytes
  /-- From one state to the other, just these bytes were taken. -/
  Took : σ → σ → Bytes → Prop
  refl (source : σ) : Took source source []
  trans {source mid after : σ} {first second : Bytes} :
    Took source mid first → Took mid after second → Took source after (first ++ second)
  unread_eq {source after : σ} {front : Bytes} :
    Took source after front → unread source = front ++ unread after
  readExactly {n : Nat} {source after : σ} {data : Bytes} :
    Source.readExactly n source = .ok data after → Took source after data ∧ data.length = n

theorem Cursor.unread_of_readExactly {n : Nat} {cursor after : Cursor} {data : Bytes}
    (ran : Source.readExactly n cursor = .ok data after) :
    cursor.unread = data ++ after.unread ∧ data.length = n := by
  obtain ⟨rest, split, rfl⟩ := split_of_advance ran
  obtain ⟨whole, length⟩ := Unread.exactly_eq_ok.1 split
  have placed : cursor.data = cursor.data.take cursor.position ++ (data ++ rest) := by
    rw [← whole]
    exact (List.take_append_drop ..).symm
  have stopped := stop_eq (cursor.data.take cursor.position) data rest
  rw [← placed] at stopped
  rw [stopped, unread_between]
  exact ⟨whole, length⟩

theorem Bytes.of_readExactly {n : Nat} {source after data : Bytes}
    (ran : Source.readExactly n source = .ok data after) :
    source = data ++ after ∧ data.length = n :=
  Unread.exactly_eq_ok.1 (split_of_readFront ran)

instance : Metered Cursor where
  unread := Cursor.unread
  Took source after front := source.unread = front ++ after.unread
  refl _ := rfl
  trans former latter := by rw [former, latter, List.append_assoc]
  unread_eq := id
  readExactly := Cursor.unread_of_readExactly

instance : Metered Bytes where
  unread := id
  Took source after front := source = front ++ after
  refl _ := rfl
  trans former latter := by rw [former, latter, List.append_assoc]
  unread_eq := id
  readExactly := Bytes.of_readExactly

instance : Metered Reader where
  unread := Reader.unread
  Took := Reader.Took
  refl := Reader.Took.refl
  trans := Reader.Took.trans
  unread_eq := Reader.Took.unread
  readExactly := Reader.of_readExactly

namespace Leaf

variable {κ : Type} {registry : Registry}

/-- The leaf has a declared length, and a codec that keeps to it. -/
def Rigid (registry : Registry) : Except Fault (Leaf κ) → Prop
  | .ok (scalar descriptor _) =>
    descriptor.mode = .fixed ∧ registry.find? descriptor.wire ≠ some .string
  | _ => True

instance (step : Except Fault (Leaf κ)) : Decidable (Rigid registry step) :=
  match step with
  | .ok (scalar descriptor _) => inferInstanceAs (Decidable
    (descriptor.mode = .fixed ∧ registry.find? descriptor.wire ≠ some .string))
  | .ok (packed ..) | .error _ => isTrue trivial

/-- The length that the leaf declares. -/
def extent : Except Fault (Leaf κ) → Nat
  | .ok (scalar descriptor _) => descriptor.length.getD 0
  | .ok (packed _ length _) => length
  | .error _ => 0

theorem rigid_types {step : Except Fault (Leaf Held)} :
    Rigid registry (types step) ↔ Rigid registry step := by
  rcases step with _ | _ | _ <;> exact Iff.rfl

theorem extent_types (step : Except Fault (Leaf Held)) : extent (types step) = extent step := by
  rcases step with _ | _ | _ <;> rfl

end Leaf

namespace Schema

def Rigid (registry : Registry) (schema : Schema) (version : Nat) : Prop :=
  ∀ step ∈ schema.layout version, Leaf.Rigid registry step

instance (registry : Registry) (schema : Schema) (version : Nat) :
    Decidable (schema.Rigid registry version) :=
  inferInstanceAs (Decidable (∀ step ∈ schema.layout version, Leaf.Rigid registry step))

def extent (schema : Schema) (version : Nat) : Nat :=
  ((schema.layout version).map Leaf.extent).sum

end Schema

namespace Codec

variable {codec : Codec} {field : Descriptor} {declared : Nat}

theorem width_of_checkNatural {width : Nat} (checked : codec.checkNatural width field = .ok ())
    (known : field.length = some declared) : width = declared := by
  unfold checkNatural at checked
  rw [if_pos (fixed_of_checkNatural checked), known] at checked
  dsimp only at checked
  split at checked
  next natural => exact natural.symm
  next => cases checked

theorem length_wordPayload {width : Nat} {value : Value} {data : Bytes}
    (found : codec.wordPayload width field value = .ok data)
    (known : field.length = some declared) : data.length = declared := by
  obtain ⟨checked, found⟩ := Except.check_bind_eq_ok.1 found
  cases value with
  | uint n =>
    cases found
    rw [BigEndian.length_toBytes, width_of_checkNatural checked known]
  | bytes _ | text _ | digits _ => cases found

/-- Whatever the value, the data of a field of declared length has that length, unless it is
text. -/
theorem length_payload {value : Value} {data : Bytes} (fixed : field.mode = .fixed)
    (known : field.length = some declared) (plain : codec ≠ string)
    (found : codec.payload field value = .ok data) : data.length = declared := by
  have length := Span.fixedLength_eq_ok.2 known
  cases codec with
  | byte | word | dword => exact length_wordPayload found known
  | bytes =>
    cases value with
    | bytes given =>
      simp only [payload, if_pos fixed, length, Except.map, Except.ok.injEq] at found
      rw [← found, length_fillRight]
    | uint _ | text _ | digits _ => cases found
  | bcd =>
    obtain ⟨digits, -, found⟩ := Except.bind_eq_ok.1 found
    obtain ⟨packed, -, found⟩ := Except.bind_eq_ok.1 found
    rw [if_pos fixed] at found
    obtain ⟨other, same, found⟩ := Except.bind_eq_ok.1 found
    cases length.symm.trans same
    split at found
    next => cases found
    next room =>
      cases found
      exact length_fillLeft (by omega)
  | string => exact absurd rfl plain

theorem length_readSpan {σ : Type} [Source σ] [Metered σ] {limit : Nat} {source after : σ}
    {span : Bytes} (fixed : field.mode = .fixed) (known : field.length = some declared)
    (ran : codec.readSpan limit field source = .ok span after) :
    Metered.Took source after span ∧ span.length = declared := by
  have integer {codec : Codec} {width : Nat}
      (ran : codec.readWord width field source = .ok span after) :
      Metered.Took source after span ∧ span.length = declared := by
    obtain ⟨_, _, checked, ran⟩ := Transfer.bind_eq_ok.1 ran
    obtain ⟨natural, rfl⟩ := Transfer.ofExcept_eq_ok.1 checked
    rw [← width_of_checkNatural natural known]
    exact Metered.readExactly (Span.readExactly_of_readFixed ran)
  have delimited (ran : Span.read limit field source = .ok span after) :
      Metered.Took source after span ∧ span.length = declared := by
    unfold Span.read at ran
    simp only [fixed, Span.fixedLength_eq_ok.2 known, Transfer.ofExcept_ok, pure_bind] at ran
    exact Metered.readExactly (Span.readExactly_of_readFixed ran)
  cases codec with
  | byte | word | dword => exact integer ran
  | bytes | bcd | string => exact delimited ran

end Codec

namespace Leaf

variable {setting : Walk.Setting}

theorem length_of_frame {leaf : Leaf Held} {pieces : List Bytes} (settled : leaf.Settled)
    (rigid : Rigid setting.registry (.ok leaf)) (framed : leaf.frame setting = .ok pieces) :
    pieces.flatten.length = extent (.ok leaf) := by
  cases leaf with
  | scalar descriptor held =>
    obtain ⟨fixed, plain⟩ := rigid
    obtain ⟨declared, known⟩ := Option.ne_none_iff_exists'.1 (settled.sized fixed)
    obtain ⟨codec, found, framed⟩ := Except.bind_eq_ok.1 framed
    rw [Registry.lookup_eq_ok] at found
    rw [Codec.frame_eq_payload] at framed
    obtain ⟨data, carried, framed⟩ := Except.bind_eq_ok.1 framed
    unfold Span.frame at framed
    rw [fixed] at framed
    cases framed
    have length := Codec.length_payload fixed known (fun text => plain (text ▸ found)) carried
    simp only [List.flatten_singleton, extent, known, Option.getD_some, length]
  | packed record length bits =>
    obtain ⟨entries, -, framed⟩ := Except.bind_eq_ok.1 framed
    obtain ⟨container, packed, framed⟩ := Except.bind_eq_ok.1 framed
    cases framed
    rw [List.flatten_singleton]
    exact Container.length_of_pack packed

theorem took_of_read {σ : Type} [Source σ] [Metered σ] {leaf : Leaf FieldType} {source after : σ}
    {span : Bytes} (settled : leaf.Settled) (rigid : Rigid setting.registry (.ok leaf))
    (ran : leaf.read setting source = .ok span after) :
    Metered.Took source after span ∧ span.length = extent (.ok leaf) := by
  obtain ⟨found, mid, spanned, ran⟩ := Transfer.bind_eq_ok.1 ran
  obtain ⟨_, _, filled, answered⟩ := Transfer.bind_eq_ok.1 ran
  obtain ⟨-, rfl⟩ := Transfer.ofExcept_eq_ok.1 filled
  cases answered
  cases leaf with
  | scalar descriptor type =>
    obtain ⟨declared, known⟩ := Option.ne_none_iff_exists'.1 (settled.sized rigid.1)
    obtain ⟨codec, _, carried, ran⟩ := Transfer.bind_eq_ok.1 spanned
    obtain ⟨-, rfl⟩ := Transfer.ofExcept_eq_ok.1 carried
    obtain ⟨took, length⟩ := Codec.length_readSpan rigid.1 known ran
    exact ⟨took, by simp only [extent, known, Option.getD_some, length]⟩
  | packed record length bits =>
    exact Metered.readExactly (Span.readExactly_of_readFixed spanned)

/-- What is asked of leaves for their length to be known. -/
structure Sized {κ : Type} (registry : Registry) (step : Except Fault (Leaf κ)) : Prop where
  settled : ∀ leaf, step = .ok leaf → leaf.Settled
  rigid : Rigid registry step

theorem length_of_writing {steps : List (Except Fault (Leaf Held))} {n : Nat}
    (sized : ∀ step ∈ steps, Sized setting.registry step)
    (answered : (writing setting steps).2 = .ok n) : n = (steps.map extent).sum := by
  induction steps generalizing n with
  | nil => cases answered; rfl
  | cons step steps ih =>
    obtain ⟨first, others⟩ := List.forall_mem_cons.1 sized
    rw [writing] at answered
    cases step with
    | error fault => cases answered
    | ok leaf =>
      cases framed : leaf.frame setting with
      | error fault =>
        have refused : (Except.ok leaf >>= frame setting) = .error fault := framed
        rw [refused] at answered
        cases answered
      | ok pieces =>
        have given : (Except.ok leaf >>= frame setting) = .ok pieces := framed
        rw [given] at answered
        obtain ⟨m, later, rfl⟩ := Except.map_eq_ok.1 answered
        rw [List.map_cons, List.sum_cons, ← ih others later,
          length_of_frame (first.settled leaf rfl) first.rigid framed]

theorem isOk_of_writing {steps : List (Except Fault (Leaf Held))} {n : Nat}
    (answered : (writing setting steps).2 = .ok n) : ∀ step ∈ steps, step.isOk = true := by
  induction steps generalizing n with
  | nil => exact fun _ member => absurd member List.not_mem_nil
  | cons step steps ih =>
    rw [writing] at answered
    cases framed : step >>= frame setting with
    | error fault => rw [framed] at answered; cases answered
    | ok pieces =>
      rw [framed] at answered
      obtain ⟨leaf, rfl, -⟩ := Except.bind_eq_ok.1 framed
      obtain ⟨m, later, -⟩ := Except.map_eq_ok.1 answered
      exact List.forall_mem_cons.2 ⟨rfl, ih later⟩

theorem took_of_readAll {σ : Type} [Source σ] [Metered σ]
    {steps : List (Except Fault (Leaf FieldType))} {source after : σ} {spans : List Bytes}
    (sized : ∀ step ∈ steps, Sized setting.registry step)
    (ran : readAll setting steps source = .ok spans after) :
    Metered.Took source after spans.flatten ∧
      spans.flatten.length = (steps.map extent).sum := by
  induction steps generalizing source after spans with
  | nil => cases ran; exact ⟨Metered.refl _, rfl⟩
  | cons step steps ih =>
    obtain ⟨first, others⟩ := List.forall_mem_cons.1 sized
    cases step with
    | error fault => cases ran
    | ok leaf =>
      simp only [readAll, Transfer.ofExcept_ok, pure_bind] at ran
      obtain ⟨span, mid, read, ran⟩ := Transfer.bind_eq_ok.1 ran
      obtain ⟨more, last, later, answered⟩ := Transfer.bind_eq_ok.1 ran
      cases answered
      obtain ⟨took, length⟩ := took_of_read (first.settled leaf rfl) first.rigid read
      obtain ⟨tookAll, lengthAll⟩ := ih others later
      rw [List.flatten_cons, List.map_cons, List.sum_cons, List.length_append, length, lengthAll]
      exact ⟨Metered.trans took tookAll, rfl⟩

theorem isOk_of_readAll {σ : Type} [Source σ] {steps : List (Except Fault (Leaf FieldType))}
    {source after : σ} {spans : List Bytes}
    (ran : readAll setting steps source = .ok spans after) : ∀ step ∈ steps, step.isOk = true := by
  induction steps generalizing source after spans with
  | nil => exact fun _ member => absurd member List.not_mem_nil
  | cons step steps ih =>
    cases step with
    | error fault => cases ran
    | ok leaf =>
      simp only [readAll, Transfer.ofExcept_ok, pure_bind] at ran
      obtain ⟨span, mid, -, ran⟩ := Transfer.bind_eq_ok.1 ran
      obtain ⟨more, last, later, -⟩ := Transfer.bind_eq_ok.1 ran
      exact List.forall_mem_cons.2 ⟨rfl, ih later⟩

end Leaf

namespace Schema

variable {registry : Registry} {schema : Schema} {version : Nat}

theorem sized_layout (rigid : schema.Rigid registry version)
    (flat : ∀ step ∈ schema.layout version, step.isOk = true) :
    ∀ step ∈ schema.layout version, Leaf.Sized registry step := by
  intro step member
  obtain ⟨leaf, rfl, settled⟩ := schema.settled_layout (resolves_iff.2 flat) step member
  refine ⟨?_, rigid _ member⟩
  rintro _ ⟨⟩
  exact settled

theorem sized_leaves (rigid : schema.Rigid registry version) {record : schema.Record}
    (flat : ∀ step ∈ schema.leaves version record, step.isOk = true) :
    ∀ step ∈ schema.leaves version record, Leaf.Sized registry step := by
  have known {step : Except Fault (Leaf Held)} (member : step ∈ schema.leaves version record) :
      Leaf.types step ∈ schema.layout version := by
    rw [← schema.types_leaves version record]
    exact List.mem_map_of_mem member
  have plain : ∀ step ∈ schema.layout version, step.isOk = true := by
    rw [← schema.types_leaves version record]
    refine List.forall_mem_map.2 fun step member => ?_
    have given := flat step member
    cases step with
    | error fault => cases given
    | ok leaf => rfl
  intro step member
  obtain ⟨leaf, rfl, settled⟩ := settled_leaves (resolves_iff.2 plain) record step member
  refine ⟨?_, Leaf.rigid_types.1 (rigid _ (known member))⟩
  rintro _ ⟨⟩
  exact settled

theorem sum_extent_leaves (record : schema.Record) :
    ((schema.leaves version record).map Leaf.extent).sum = schema.extent version := by
  rw [extent, ← schema.types_leaves version record, List.map_map]
  congr 1
  exact List.map_congr_left fun step _ => (Leaf.extent_types step).symm

end Schema

namespace Marshaller

variable {marshaller : Marshaller} {schema : Schema} {version : Nat}

theorem writes_of_encode {κ : Type} [Sink κ] {record : schema.Record} {sink : κ} {n : Nat}
    {after : Marshaller × κ}
    (ran : encode schema version record (marshaller, sink) = .ok n after) :
    (marshaller.writing schema version record).2 = .ok n ∧
      ((marshaller.writing schema version record).1.forM Sink.writeAll : Transfer κ Unit) sink =
        .ok () after.2 := by
  obtain ⟨answer, left⟩ := marshaller.encode_writes schema version record sink
  simp only [Transfer.answer, Transfer.left, ran] at answer left
  generalize written : Leaf.writes (marshaller.writing schema version record) sink = result at *
  cases result with
  | error fault stopped => cases answer
  | ok m stopped =>
    cases answer
    obtain rfl : after.2 = stopped := left
    obtain ⟨_, mid, wrote, given⟩ := Transfer.bind_eq_ok.1 written
    obtain ⟨answered, rfl⟩ := Transfer.ofExcept_eq_ok.1 given
    exact ⟨answered, wrote⟩

theorem extent_of_encode (rigid : schema.Rigid marshaller.registry version) {κ : Type} [Sink κ]
    {record : schema.Record} {sink : κ} {n : Nat} {after : Marshaller × κ}
    (ran : encode schema version record (marshaller, sink) = .ok n after) :
    n = schema.extent version ∧ ∃ pieces : List Bytes,
      pieces.flatten.length = schema.extent version ∧
        (pieces.forM Sink.writeAll : Transfer κ Unit) sink = .ok () after.2 := by
  obtain ⟨answered, wrote⟩ := writes_of_encode ran
  have sized : ∀ step ∈ schema.leaves version record,
      Leaf.Sized (marshaller.setting version).registry step :=
    Schema.sized_leaves rigid (Leaf.isOk_of_writing answered)
  have size := Leaf.length_of_writing sized answered
  rw [Schema.sum_extent_leaves] at size
  exact ⟨size, _, (Leaf.length_writing _ answered).symm.trans size, wrote⟩

theorem extent_of_decode (rigid : schema.Rigid marshaller.registry version) {σ : Type} [Source σ]
    [Metered σ] {initial : schema.Record} {source stopped : σ} {decoded : Decoded schema}
    {left : Marshaller}
    (ran : decode schema version initial (marshaller, source) = .ok decoded (left, stopped)) :
    ∃ front, Metered.Took source stopped front ∧ front.length = schema.extent version := by
  obtain ⟨spans, read, -⟩ := readAll_of_decode ran
  have sized : ∀ step ∈ schema.layout version,
      Leaf.Sized (marshaller.setting version).registry step :=
    Schema.sized_layout rigid (Leaf.isOk_of_readAll read)
  exact ⟨_, Leaf.took_of_readAll sized read⟩

/-- A record type all of whose leaves have declared lengths, text apart, has one length, the sum of
these. Whatever a record holds, each call that encodes it answers with that length and writes so
many bytes, to whatever sink; each call that decodes one takes so many bytes off its source, and
none answers from a source with fewer. -/
theorem extent_exact (marshaller : Marshaller) (schema : Schema) (version : Nat)
    (rigid : schema.Rigid marshaller.registry version) :
    let size := schema.extent version
    (∀ {κ : Type} [Sink κ] (record : schema.Record) (sink : κ) n after,
      encode schema version record (marshaller, sink) = .ok n after →
        n = size ∧ ∃ pieces : List Bytes, pieces.flatten.length = size ∧
          (pieces.forM Sink.writeAll : Transfer κ Unit) sink = .ok () after.2) ∧
    (∀ {κ : Type} [Sink κ] [Memory κ] (record : schema.Record) (sink : κ) n after,
      encode schema version record (marshaller, sink) = .ok n after →
        ∃ image : Bytes, image.length = size ∧ after.2 = Memory.append sink image) ∧
    (∀ (record : schema.Record) (writer : Writer) n after,
      encode schema version record (marshaller, writer) = .ok n after →
        after.2.counted = writer.counted + size ∧
          ∃ image : Bytes, image.length = size ∧ after.2.received = writer.received ++ image) ∧
    (∀ {σ : Type} [Source σ] [Metered σ] initial (source stopped : σ) decoded left,
      decode schema version initial (marshaller, source) = .ok decoded (left, stopped) →
        ∃ front, front.length = size ∧
          Metered.unread source = front ++ Metered.unread stopped) ∧
    (∀ initial (reader stopped : Reader) decoded left,
      decode schema version initial (marshaller, reader) = .ok decoded (left, stopped) →
        stopped.consumed = reader.consumed + size) ∧
    (∀ initial (data : Bytes) (stopped : Cursor) decoded left,
      decode schema version initial (marshaller, ofBytes data) = .ok decoded (left, stopped) →
        stopped.position = size) ∧
    (∀ {σ : Type} [Source σ] [Metered σ] (source : σ), (Metered.unread source).length < size →
      ∀ initial decoded after,
        decode schema version initial (marshaller, source) ≠ .ok decoded after) := by
  intro size
  refine ⟨fun record sink n after ran => extent_of_encode rigid ran,
    fun record sink n after ran => ?_, fun record writer n after ran => ?_,
    fun initial source stopped decoded left ran => ?_,
    fun initial reader stopped decoded left ran => ?_,
    fun initial data stopped decoded left ran => ?_,
    fun source short initial decoded after ran => ?_⟩
  · obtain ⟨-, pieces, length, wrote⟩ := extent_of_encode rigid ran
    rw [Leaf.forM_writeAll_eq] at wrote
    injection wrote with _ written
    exact ⟨_, length, written.symm⟩
  · obtain ⟨-, pieces, length, wrote⟩ := extent_of_encode rigid ran
    have delivered := Writer.wrote_forM pieces writer
    rw [wrote] at delivered
    obtain ⟨used, moves, -⟩ := delivered
    refine ⟨?_, _, length, moves.received⟩
    rw [moves.counted, length]
  · obtain ⟨front, took, length⟩ := extent_of_decode rigid ran
    exact ⟨front, length, Metered.unread_eq took⟩
  · obtain ⟨front, took, length⟩ := extent_of_decode rigid ran
    have counted : stopped.consumed = reader.consumed + front.length := took.consumed
    rw [counted, length]
  · obtain ⟨front, took, length⟩ := extent_of_decode rigid ran
    have started : decode schema version initial (marshaller, between [] data) = _ := ran
    obtain ⟨taken, rest, -, whole, rfl, -⟩ := takes_of_decode started
    have split : (ofBytes data).unread = front ++ (between ([] ++ taken) rest).unread := took
    rw [unread_between, show (ofBytes data).unread = data from rfl, whole] at split
    exact (congrArg List.length (List.append_cancel_right split)).trans length
  · obtain ⟨left, stopped⟩ := after
    obtain ⟨front, took, length⟩ := extent_of_decode rigid ran
    have held := congrArg List.length (Metered.unread_eq took)
    rw [List.length_append, length] at held
    omega

/-- Two bytes of an integer, one of two bit-fields and one of digits, from a cursor with one byte
more and from bytes with one less. -/
theorem extent_exact_sample :
    Sample.schema.extent 1 = 4 ∧
    (∃ n after, encode Sample.schema 1 (Sample.record "2" 3 10 258) (default, ([7] : Bytes)) =
        .ok n after ∧ n = 4 ∧ ∃ image : Bytes, image.length = 4 ∧ after.2 = [7] ++ image) ∧
    (∃ decoded left stopped, decode Sample.schema 1 Sample.initial
        (default, ofBytes [1, 2, 0xa3, 0x12, 9]) = .ok decoded (left, stopped) ∧
      stopped.position = 4) ∧
    ∀ decoded after, decode Sample.schema 1 Sample.initial (default, ([1, 2, 0xa3] : Bytes)) ≠
        .ok decoded after := by
  have rigid : Sample.schema.Rigid default.registry 1 := by decide +kernel
  have size : Sample.schema.extent 1 = 4 := by decide +kernel
  have wrote : (encode Sample.schema 1 (Sample.record "2" 3 10 258) : Transfer _ Nat)
      (default, ([7] : Bytes)) = .ok 4 _ := Transfer.eq_ok_of_answer (by decide +kernel)
  have read : decode Sample.schema 1 Sample.initial (default, ofBytes [1, 2, 0xa3, 0x12, 9]) =
      .ok _ (_, ⟨[1, 2, 0xa3, 0x12, 9], 4⟩) := rfl
  obtain ⟨encoded, held, -, -, -, placed, enough⟩ := extent_exact default Sample.schema 1 rigid
  rw [size] at encoded held placed enough
  refine ⟨size, ⟨4, _, wrote, (encoded _ _ _ _ wrote).1, held _ _ _ _ wrote⟩,
    ⟨_, _, _, read, placed _ _ _ _ _ read⟩, enough _ (by decide) _⟩

end Marshaller

end Wireform
