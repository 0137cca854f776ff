import Wireform.Proofs.Decoding
import Wireform.Proofs.Encoding
import Wireform.Proofs.Reading

/-!
Decoding looks only at the bytes that it consumes. A span of known extent is read off the bytes it
stands in, whatever follows them, and so is a record all of whose leaves have such spans. Records
that stand back to back are therefore decoded as each of them is on its own.
-/

namespace Wireform

open Cursor

namespace Codec

variable {limit : Nat} {field : Descriptor}

theorem forward_readWord (codec : Codec) (width : Nat) (field : Descriptor) :
    Forward (codec.readWord width field) :=
  forward_bind (forward_ofExcept _) fun _ => forward_readFixed width

theorem forward_readSpan (codec : Codec) (limit : Nat) (field : Descriptor) :
    Forward (codec.readSpan limit field) := by
  cases codec with
  | byte | word | dword => exact forward_readWord _ _ field
  | bytes | bcd | string => exact Span.forward_read limit field

theorem takes_readWord_iff {codec : Codec} {width : Nat} {front rest span : Bytes} :
    Takes (codec.readWord width field) front rest span ↔
      codec.checkNatural width field = .ok () ∧ front = span ∧ span.length = width := by
  unfold readWord
  rw [takes_ofExcept_bind_iff]
  apply Iff.intro
  · intro ⟨_, checked, takes⟩
    exact ⟨checked, takes_readFixed_iff.1 takes⟩
  · intro ⟨checked, takes⟩
    exact ⟨(), checked, takes_readFixed_iff.2 takes⟩

/-- What follows a span makes no difference to it, unless it takes that too. -/
theorem takes_readSpan_of_closed {codec : Codec} {front rest span : Bytes}
    (closed : field.mode ≠ .remaining) (takes : Takes (codec.readSpan limit field) front rest span)
    (other : Bytes) : Takes (codec.readSpan limit field) front other span := by
  have delimited (spans : Takes (Span.read limit field) front rest span) :
      Takes (Span.read limit field) front other span := by
    obtain ⟨framed, stands⟩ := Span.takes_read_iff.1 spans
    refine Span.takes_read_iff.2 ⟨framed, ?_⟩
    unfold Span.Stands at stands ⊢
    cases mode : field.mode with
    | remaining => exact absurd mode closed
    | fixed => rwa [mode] at stands
    | counted _ | terminated _ => trivial
  cases codec with
  | byte | word | dword => exact takes_readWord_iff.2 (takes_readWord_iff.1 takes)
  | bytes | bcd | string => exact delimited takes

end Codec

namespace Leaf

def Open {κ : Type} : Except Fault (Leaf κ) → Prop
  | .ok (scalar descriptor _) => descriptor.mode = .remaining
  | _ => False

instance {κ : Type} (step : Except Fault (Leaf κ)) : Decidable (Open step) :=
  match step with
  | .ok (scalar descriptor _) => inferInstanceAs (Decidable (descriptor.mode = .remaining))
  | .ok (packed ..) | .error _ => isFalse not_false

variable {setting : Walk.Setting} {front rest : Bytes}

theorem forward_readSpan (setting : Walk.Setting) (leaf : Leaf FieldType) :
    Forward (leaf.readSpan setting) := by
  cases leaf with
  | scalar descriptor type =>
    exact forward_bind (forward_ofExcept _) fun codec => codec.forward_readSpan _ descriptor
  | packed record length bits => exact forward_readFixed length

theorem forward_read (setting : Walk.Setting) (leaf : Leaf FieldType) :
    Forward (leaf.read setting) := by
  refine forward_bind (leaf.forward_readSpan setting) fun span => ?_
  exact forward_bind (forward_ofExcept _) fun _ => forward_pure span

theorem forward_readAll (setting : Walk.Setting) (steps : List (Except Fault (Leaf FieldType))) :
    Forward (readAll setting steps) := by
  induction steps with
  | nil => exact forward_pure []
  | cons step others ih =>
    refine forward_bind (forward_ofExcept step) fun leaf => ?_
    refine forward_bind (leaf.forward_read setting) fun span => ?_
    exact forward_bind ih fun spans => forward_pure (span :: spans)

theorem takes_read_iff {leaf : Leaf FieldType} {span : Bytes} :
    Takes (leaf.read setting) front rest span ↔
      Takes (leaf.readSpan setting) front rest span ∧
        ∃ filled, leaf.fill setting.registry span = .ok filled := by
  unfold read
  rw [takes_bind_iff (leaf.forward_readSpan setting) fun span =>
    forward_bind (forward_ofExcept _) fun _ => forward_pure span]
  simp only [takes_ofExcept_bind_iff, takes_pure_iff]
  apply Iff.intro
  · intro ⟨span, first, second, same, takes, filled, taken, same', same''⟩
    subst same same' same''
    rw [List.append_nil]
    exact ⟨takes, filled, taken⟩
  · intro ⟨takes, filled, taken⟩
    exact ⟨span, front, [], (List.append_nil front).symm, takes, filled, taken, rfl, rfl⟩

theorem takes_readAll_cons_iff {step : Except Fault (Leaf FieldType)}
    {steps : List (Except Fault (Leaf FieldType))} {spans : List Bytes} :
    Takes (readAll setting (step :: steps)) front rest spans ↔
      ∃ leaf, step = .ok leaf ∧ ∃ span first second, front = first ++ second ∧
        Takes (leaf.read setting) first (second ++ rest) span ∧
          ∃ others, Takes (readAll setting steps) second rest others ∧ span :: others = spans := by
  have following (span : Bytes) :
      Forward (readAll setting steps >>= fun others => return span :: others) :=
    forward_bind (forward_readAll setting steps) fun others => forward_pure (span :: others)
  rw [readAll, takes_ofExcept_bind_iff]
  refine exists_congr fun leaf => and_congr_right fun _ => ?_
  rw [takes_bind_iff (leaf.forward_read setting) following]
  simp only [takes_bind_pure_iff (forward_readAll setting steps)]

theorem takes_read_of_closed {leaf : Leaf FieldType} (closed : ¬ Open (.ok leaf)) {span : Bytes}
    (takes : Takes (leaf.read setting) front rest span) (other : Bytes) :
    Takes (leaf.read setting) front other span := by
  obtain ⟨takesSpan, taken⟩ := takes_read_iff.1 takes
  refine takes_read_iff.2 ⟨?_, taken⟩
  cases leaf with
  | scalar descriptor type =>
    obtain ⟨codec, known, takesCodec⟩ := takes_ofExcept_bind_iff.1 takesSpan
    refine takes_ofExcept_bind_iff.2 ⟨codec, known, ?_⟩
    exact Codec.takes_readSpan_of_closed closed takesCodec other
  | packed record length bits => exact takes_readFixed_iff.2 (takes_readFixed_iff.1 takesSpan)

theorem takes_readAll_of_closed {steps : List (Except Fault (Leaf FieldType))}
    (closed : ∀ step ∈ steps, ¬ Open step) {spans : List Bytes}
    (takes : Takes (readAll setting steps) front rest spans) (other : Bytes) :
    Takes (readAll setting steps) front other spans := by
  induction steps generalizing front spans with
  | nil => exact takes_pure_iff.2 (takes_pure_iff.1 takes)
  | cons step steps ih =>
    obtain ⟨leaf, rfl, span, first, second, rfl, takesFirst, others, takesOthers, rfl⟩ :=
      takes_readAll_cons_iff.1 takes
    refine takes_readAll_cons_iff.2 ⟨leaf, rfl, span, first, second, rfl, ?_, others, ?_, rfl⟩
    · exact takes_read_of_closed (closed _ (List.mem_cons_self ..)) takesFirst _
    · exact ih (fun step member => closed step (List.mem_cons_of_mem _ member)) takesOthers

end Leaf

/-- No leaf of a record takes all that is left. -/
def Schema.Closed (schema : Schema) (version : Nat) : Prop :=
  ∀ step ∈ schema.layout version, ¬ Leaf.Open step

instance (schema : Schema) (version : Nat) : Decidable (schema.Closed version) :=
  inferInstanceAs (Decidable (∀ step ∈ schema.layout version, ¬ Leaf.Open step))

namespace Marshaller

variable {marshaller : Marshaller} {schema : Schema} {version : Nat}

theorem decode_of_takes {front rest : Bytes} {spans : List Bytes}
    (takes : Takes (Leaf.readAll (marshaller.setting version) (schema.layout version)) front rest
      spans) (initial : schema.Record) (done : Bytes) : ∃ after,
    decode schema version initial (marshaller, between done (front ++ rest)) =
      .ok (marshaller.assemble marshaller.settings.captureTree schema version initial spans)
        ({ marshaller with plans := after }, between (done ++ front) rest) :=
  decode_of_readAll (takes done) initial marshaller.plans

theorem takes_of_decode {initial : schema.Record} {done unread : Bytes}
    {decoded : Decoded schema} {left : Marshaller} {cursor : Cursor}
    (ran : decode schema version initial (marshaller, between done unread) =
      .ok decoded (left, cursor)) :
    ∃ front rest spans, unread = front ++ rest ∧ cursor = between (done ++ front) rest ∧
      Takes (Leaf.readAll (marshaller.setting version) (schema.layout version)) front rest spans ∧
      decoded =
        marshaller.assemble marshaller.settings.captureTree schema version initial spans := by
  obtain ⟨spans, readAll, rfl⟩ := readAll_of_decode ran
  obtain ⟨front, rest, rfl, rfl, takes⟩ := Leaf.forward_readAll _ _ done unread spans _ readAll
  exact ⟨front, rest, spans, rfl, rfl, takes, rfl⟩

theorem leaves_assemble {front rest : Bytes} {spans : List Bytes}
    (takes : Takes (Leaf.readAll (marshaller.setting version) (schema.layout version)) front rest
      spans) (capture : Bool) (initial : schema.Record) :
    schema.leaves version (marshaller.assemble capture schema version initial spans).record =
      Leaf.fillAll marshaller.registry (schema.layout version) spans :=
  schema.leaves_build initial spans (Leaf.accepts_of_readAll (takes []))

/-- A record that does not take all that is left is decoded from what it took, wherever that stands
and whatever follows it. -/
theorem decode_of_closed (closed : schema.Closed version) {initial : schema.Record} {data : Bytes}
    {decoded : Decoded schema} {left : Marshaller} {cursor : Cursor}
    (ran : decode schema version initial (marshaller, ofBytes data) = .ok decoded (left, cursor)) :
    ∃ front rest, data = front ++ rest ∧ cursor = between front rest ∧
      ∀ plans done tail, ∃ after,
        decode schema version initial
            ({ marshaller with plans := plans }, between done (front ++ tail)) =
          .ok decoded ({ marshaller with plans := after }, between (done ++ front) tail) := by
  have started : decode schema version initial (marshaller, between [] data) = _ := ran
  obtain ⟨front, rest, spans, split, stopped, takes, rfl⟩ := takes_of_decode started
  refine ⟨front, rest, split, stopped, fun plans done tail => ?_⟩
  have alone := Leaf.takes_readAll_of_closed closed takes tail
  have fresh : Takes (Leaf.readAll
      (setting { marshaller with plans := plans } version) (schema.layout version)) front tail
        spans := alone
  exact decode_of_takes fresh initial done

theorem encode_append_of_ok {κ : Type} [Sink κ] [Memory κ] {record : schema.Record} {n : Nat}
    {bytes : Bytes} {left : Marshaller}
    (ran : encode schema version record (marshaller, ([] : Bytes)) = .ok n (left, bytes))
    (plans : PlanCache) (sink : κ) : ∃ after,
    encode schema version record ({ marshaller with plans := plans }, sink) =
      .ok n ({ marshaller with plans := after }, Memory.append sink bytes) := by
  obtain ⟨written, each, rfl, rfl⟩ := pieces_of_encode ran
  have same : schema.pieces (setting { marshaller with plans := plans } version) record =
      written.map .ok := each
  exact encode_of_pieces same sink

end Marshaller

/-- A record on its way, with what it is written as, and what that is read into and read back as. -/
structure Message where
  schema : Schema
  version : Nat
  record : schema.Record
  initial : schema.Record
  bytes : Bytes
  decoded : Decoded schema

namespace Message

open Marshaller

def encodeEach {κ : Type} [Sink κ] : List Message → Transfer (Marshaller × κ) Unit
  | [] => return
  | message :: rest => do
    let _ ← encode message.schema message.version message.record
    encodeEach rest

def decodeEach {σ : Type} [Source σ] :
    List Message → Transfer (Marshaller × σ) (List (Sigma Decoded))
  | [] => return []
  | message :: rest => do
    let first ← decode message.schema message.version message.initial
    return ⟨message.schema, first⟩ :: (← decodeEach rest)

/-- On its own, the message is written and read back whole. -/
structure Alone (marshaller : Marshaller) (message : Message) : Prop where
  closed : message.schema.Closed message.version
  written : ∃ n left, encode message.schema message.version message.record
    (marshaller, ([] : Bytes)) = .ok n (left, message.bytes)
  read : ∃ left cursor, decode message.schema message.version message.initial
    (marshaller, ofBytes message.bytes) = .ok message.decoded (left, cursor) ∧ cursor.unread = []

variable {marshaller : Marshaller} {messages : List Message}

theorem encodeEach_of_alone (alone : ∀ message ∈ messages, message.Alone marshaller)
    (plans : PlanCache) (sink : Bytes) : ∃ after,
    encodeEach messages ({ marshaller with plans := plans }, sink) =
      .ok () ({ marshaller with plans := after }, sink ++ messages.flatMap bytes) := by
  induction messages generalizing plans sink with
  | nil => exact ⟨plans, by rw [List.flatMap_nil, List.append_nil]; rfl⟩
  | cons message rest ih =>
    obtain ⟨n, left, written⟩ := (alone message (List.mem_cons_self ..)).written
    obtain ⟨mid, first⟩ := encode_append_of_ok written plans sink
    obtain ⟨after, others⟩ := ih
      (fun other member => alone other (List.mem_cons_of_mem _ member)) mid (sink ++ message.bytes)
    refine ⟨after, ?_⟩
    rw [encodeEach, Transfer.bind_of_ok first, List.flatMap_cons, ← List.append_assoc]
    exact others

theorem decodeEach_of_alone (alone : ∀ message ∈ messages, message.Alone marshaller)
    (plans : PlanCache) (done tail : Bytes) : ∃ after,
    decodeEach messages
        ({ marshaller with plans := plans }, between done (messages.flatMap bytes ++ tail)) =
      .ok (messages.map fun message => ⟨message.schema, message.decoded⟩)
        ({ marshaller with plans := after }, between (done ++ messages.flatMap bytes) tail) := by
  induction messages generalizing plans done with
  | nil => exact ⟨plans, by rw [List.flatMap_nil, List.append_nil]; rfl⟩
  | cons message rest ih =>
    have whole := alone message (List.mem_cons_self ..)
    obtain ⟨left, cursor, read, nothing⟩ := whole.read
    obtain ⟨front, unread, split, stopped, anywhere⟩ := decode_of_closed whole.closed read
    rw [stopped, unread_between] at nothing
    rw [nothing, List.append_nil] at split
    obtain ⟨mid, first⟩ := anywhere plans done (rest.flatMap bytes ++ tail)
    obtain ⟨after, others⟩ := ih
      (fun other member => alone other (List.mem_cons_of_mem _ member)) mid (done ++ front)
    refine ⟨after, ?_⟩
    rw [List.flatMap_cons, List.append_assoc, split, decodeEach, Transfer.bind_of_ok first,
      Transfer.bind_of_ok others, List.append_assoc]
    rfl

end Message

namespace Marshaller

/-- Decoding a record that does not take all that is left looks only at the bytes it consumes: the
rest may be replaced, and record, tree and position stay the same. So records that are written back
to back are read back as each of them is on its own. -/
theorem decode_consumed_bytes (marshaller : Marshaller) :
    (∀ (schema : Schema) version initial data decoded left cursor, schema.Closed version →
      decode schema version initial (marshaller, ofBytes data) = .ok decoded (left, cursor) →
      cursor.position ≤ data.length ∧ ∀ plans tail, ∃ after stopped,
        decode schema version initial
            ({ marshaller with plans := plans }, ofBytes (data.take cursor.position ++ tail)) =
          .ok decoded (after, stopped) ∧
        stopped.position = cursor.position ∧ stopped.unread = tail) ∧
    (∀ messages : List Message, (∀ message ∈ messages, message.Alone marshaller) →
      ∀ sent received tail, ∃ written after after' cursor,
        Message.encodeEach messages ({ marshaller with plans := sent }, ([] : Bytes)) =
          .ok () (after, written) ∧
        Message.decodeEach messages
            ({ marshaller with plans := received }, ofBytes (written ++ tail)) =
          .ok (messages.map fun message => ⟨message.schema, message.decoded⟩) (after', cursor) ∧
        cursor.unread = tail) := by
  refine ⟨fun schema version initial data decoded left cursor closed ran => ?_,
    fun messages alone sent received tail => ?_⟩
  · obtain ⟨front, rest, rfl, rfl, anywhere⟩ := decode_of_closed closed ran
    refine ⟨by simp only [between, List.length_append]; omega, fun plans tail => ?_⟩
    obtain ⟨after, same⟩ := anywhere plans [] tail
    have front_eq : (front ++ rest).take (between front rest).position = front := List.take_left
    rw [front_eq]
    exact ⟨_, _, same, rfl, unread_between _ tail⟩
  · obtain ⟨after, written⟩ := Message.encodeEach_of_alone alone sent []
    obtain ⟨after', read⟩ := Message.decodeEach_of_alone alone received [] tail
    exact ⟨_, _, _, _, written, read, unread_between _ tail⟩

/-- Two records back to back, and two bytes behind them. -/
theorem decode_consumed_bytes_pair :
    let decoded : Decoded Sample.schema := ⟨Sample.record "12" 3 10 258, none⟩
    let message : Message :=
      ⟨Sample.schema, 1, Sample.record "12" 3 10 258, Sample.initial, [1, 2, 0xa3, 0x12], decoded⟩
    (∃ after stopped,
      decode Sample.schema 1 Sample.initial
          (default, ofBytes ([1, 2, 0xa3, 0x12] ++ [9, 9])) =
        .ok decoded (after, stopped) ∧ stopped.position = 4 ∧ stopped.unread = [9, 9]) ∧
    ∃ written after after' cursor,
      Message.encodeEach [message, message] (default, ([] : Bytes)) = .ok () (after, written) ∧
      Message.decodeEach [message, message] (default, ofBytes (written ++ [9, 9])) =
        .ok [⟨Sample.schema, decoded⟩, ⟨Sample.schema, decoded⟩] (after', cursor) ∧
      cursor.unread = [9, 9] := by
  intro decoded message
  have closed : Sample.schema.Closed 1 := by decide +kernel
  have read : decode Sample.schema 1 Sample.initial (default, ofBytes [1, 2, 0xa3, 0x12]) =
      .ok decoded (_, ⟨[1, 2, 0xa3, 0x12], 4⟩) := rfl
  have wrote : (encode Sample.schema 1 (Sample.record "12" 3 10 258) : Transfer _ Nat)
      (default, ([] : Bytes)) = .ok 4 _ := Transfer.eq_ok_of_answer (by decide +kernel)
  have written := wrote.trans (congrArg (EStateM.Result.ok 4) (Prod.ext rfl (by decide +kernel)))
  have alone : message.Alone default := ⟨closed, ⟨4, _, written⟩, ⟨_, _, read, rfl⟩⟩
  refine ⟨((decode_consumed_bytes default).1 _ 1 _ _ _ _ _ closed read).2 _ [9, 9], ?_⟩
  exact (decode_consumed_bytes default).2 [message, message] (by simp [alone]) _ _ [9, 9]

end Marshaller

end Wireform
