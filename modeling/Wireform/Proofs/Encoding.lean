import Wireform.Proofs.Layout
import Wireform.Proofs.Plan

/-!
What encoding a record does to its sink. The walk writes the leaves of the record one after the
other and adds nothing between them. A leaf is written whole or not at all, so a sink in memory ends
up with what it held and the leaves before the first that fails.
-/

namespace Wireform

open Walk

namespace Leaf

def word (record : String) (bit : Planned BitDescriptor) :
    Value → Except Fault (BitDescriptor × UInt64)
  | .uint word => .ok (bit.descriptor, word)
  | other => .error (.unsupported (.bits record bit.name other.kind))

def words (record : String) (bits : List (Planned BitDescriptor × Held)) :
    Except Fault (List (BitDescriptor × UInt64)) :=
  bits.mapM fun (bit, held) => word record bit held.value

theorem of_word {record : String} {bit : Planned BitDescriptor} {value : Value}
    {entry : BitDescriptor × UInt64} (given : word record bit value = .ok entry) :
    bit.descriptor = entry.1 ∧ value = .uint entry.2 := by
  cases value with
  | uint _ => cases given; exact ⟨rfl, rfl⟩
  | bytes _ | text _ | digits _ => cases given

theorem mem_words_iff {record : String} {bits : List (Planned BitDescriptor × Held)}
    {entries : List (BitDescriptor × UInt64)} (given : words record bits = .ok entries)
    {field : BitDescriptor} {value : UInt64} :
    (field, value) ∈ entries ↔
      ∃ bit ∈ bits, bit.1.descriptor = field ∧ bit.2.value = .uint value := by
  have each := Except.mapM_eq_ok.1 given
  clear given
  induction each with
  | nil => exact ⟨nofun, nofun⟩
  | @cons bit entry bits entries first others ih =>
    obtain ⟨descriptor, held⟩ := of_word first
    rw [List.mem_cons, List.exists_mem_cons_iff]
    refine or_congr ?_ ih
    rw [descriptor, held, Value.uint.injEq, Prod.ext_iff, eq_comm, @eq_comm _ value]

def encode {κ : Type} [Sink κ] (setting : Setting) : Leaf Held → Transfer κ Nat
  | scalar descriptor held => held.value.encode setting descriptor
  | packed record length bits => do
    Container.encode length (← Transfer.ofExcept (words record bits))

def encodeAll {κ : Type} [Sink κ] (setting : Setting) :
    List (Except Fault (Leaf Held)) → Transfer κ Nat
  | [] => return 0
  | step :: rest => do
    let first ← (← Transfer.ofExcept step).encode setting
    return first + (← encodeAll setting rest)

/-- The bytes that a leaf leaves in a sink that held nothing. -/
def alone (setting : Setting) (leaf : Leaf Held) : Except Fault Bytes :=
  match leaf.encode setting ([] : Bytes) with
  | .ok _ written => .ok written
  | .error fault _ => .error fault

def frame (setting : Setting) : Leaf Held → Except Fault (List Bytes)
  | scalar descriptor held => do
    let codec ← setting.registry.lookup descriptor.wire
    codec.frame setting.settings.maxVariableLength descriptor held.value
  | packed record length bits => do
    return [← Container.pack length (← words record bits)]

/-- All that can be wrong with a leaf is found before its first byte is written. -/
theorem encode_eq_write {κ : Type} [Sink κ] (setting : Setting) (leaf : Leaf Held) :
    leaf.encode setting =
      (Transfer.ofExcept (leaf.frame setting) >>= Span.write : Transfer κ Nat) := by
  cases leaf with
  | scalar descriptor held =>
    simp only [encode, Value.encode, Codec.encode, frame, Transfer.ofExcept_bind, bind_assoc]
  | packed record length bits =>
    simp only [encode, Container.encode, frame, Transfer.ofExcept_bind, bind_assoc]
    rfl

theorem encodeAll_append {κ : Type} [Sink κ] (setting : Setting)
    (steps others : List (Except Fault (Leaf Held))) :
    (encodeAll setting (steps ++ others) : Transfer κ Nat) = do
      let first ← encodeAll setting steps
      return first + (← encodeAll setting others) := by
  induction steps with
  | nil => simp only [List.nil_append, encodeAll, pure_bind, Nat.zero_add, bind_pure]
  | cons step rest ih =>
    simp only [List.cons_append, encodeAll, ih, bind_assoc, pure_bind, Nat.add_assoc]

theorem encodeAll_singleton {κ : Type} [Sink κ] (setting : Setting) (leaf : Leaf Held) :
    (encodeAll setting [.ok leaf] : Transfer κ Nat) = leaf.encode setting := by
  simp only [encodeAll, Transfer.ofExcept_ok, pure_bind, Nat.add_zero, bind_pure]

theorem encodeAll_ofPlan {κ : Type} [Sink κ] (setting : Setting) (answer : Except Fault Plan)
    (leaves : Plan → List (Except Fault (Leaf Held))) :
    (encodeAll setting (ofPlan answer leaves) : Transfer κ Nat) =
      Transfer.ofExcept answer >>= fun plan => encodeAll setting (leaves plan) := by
  cases answer <;> rfl

theorem foldlM_encodeAll {κ ι : Type} [Sink κ] (setting : Setting)
    (leaves : ι → List (Except Fault (Leaf Held))) (entries : List ι) (written : Nat) :
    (entries.foldlM (fun written entry => do
      return written + (← encodeAll setting (leaves entry))) written : Transfer κ Nat) =
      encodeAll setting (entries.flatMap leaves) >>= fun others => return written + others := by
  induction entries generalizing written with
  | nil => rfl
  | cons entry rest ih =>
    simp only [List.foldlM_cons, List.flatMap_cons, encodeAll_append, ih, bind_assoc, pure_bind,
      Nat.add_assoc]

end Leaf

theorem BitField.words_heldAt (record : String) (fields : List BitField)
    (contents : Contents fields) (planned : List (Planned BitDescriptor)) :
    words record fields contents planned =
      Leaf.words record (planned.map fun bit => (bit, heldAt fields contents bit.position)) := by
  unfold words Leaf.words
  rw [List.mapM_map]
  congr 1
  funext bit
  change _ = Leaf.word record bit (heldAt fields contents bit.position).value
  rw [value_heldAt]
  cases valueAt fields contents bit.position <;> rfl

mutual

/-- Encoding a record is writing its leaves in order. -/
theorem Schema.encode_follows {κ : Type} [Sink κ] (setting : Setting) :
    (schema : Schema) → (record : schema.Record) →
    Follows (schema.encode setting record : Walk κ Nat)
      (Leaf.encodeAll setting (schema.leaves setting.version record))
  | .fields tag name declared, record => by
    simp only [Schema.encode, Schema.leaves, Leaf.encodeAll_ofPlan]
    refine (Follows.plan _ _ _).bind fun plan => ?_
    have each (written : Nat) (planned : Planned Descriptor) :
        Follows (return written + (← Field.encodeAt setting declared record planned.position
          planned.descriptor) : Walk κ Nat) _ :=
      (Field.encodeAt_follows setting declared record planned.position
        planned.descriptor).bind fun n => .pure (written + n)
    have all := Follows.foldlM each plan.fields 0
    simpa only [Leaf.foldlM_encodeAll, Nat.zero_add, bind_pure] using all
  | .packed tag name length declared, record => by
    simp only [Schema.encode, Schema.leaves, Leaf.encodeAll_ofPlan, Leaf.encodeAll_singleton]
    refine (Follows.plan _ _ _).bind fun plan => ?_
    rw [BitField.words_heldAt name declared record plan.bits]
    exact .onStream _

theorem Field.encode_follows {κ : Type} [Sink κ] (setting : Setting) :
    (field : Field) → (content : field.Content) → (descriptor : Descriptor) →
    Follows (field.encode setting content descriptor : Walk κ Nat)
      (Leaf.encodeAll setting (field.leaves setting.version content descriptor))
  | .scalar _ type _, content, descriptor => by
    simp only [Field.encode, Field.leaves, Leaf.encodeAll_singleton]
    exact .onStream _
  | .nested _ schema _, content, _ => by
    simp only [Field.encode, Field.leaves]
    exact schema.encode_follows setting content

theorem Field.encodeAt_follows {κ : Type} [Sink κ] (setting : Setting) :
    (fields : List Field) → (contents : Field.Contents fields) → (position : Nat) →
    (descriptor : Descriptor) →
    Follows (Field.encodeAt setting fields contents position descriptor : Walk κ Nat)
      (Leaf.encodeAll setting
        (Field.leavesAt setting.version fields contents position descriptor))
  | [], _, _, _ => Follows.pure 0
  | field :: _, contents, 0, descriptor => field.encode_follows setting contents.1 descriptor
  | _ :: rest, contents, position + 1, descriptor =>
    Field.encodeAt_follows setting rest contents.2 position descriptor

end

/-- A sink that takes all it is given, at its end. -/
class Memory (κ : Type) [Sink κ] where
  append : κ → Bytes → κ
  append_nil (sink : κ) : append sink [] = sink
  append_append (sink : κ) (data more : Bytes) :
    append (append sink data) more = append sink (data ++ more)
  writeAll_eq (data : Bytes) (sink : κ) : Sink.writeAll data sink = .ok () (append sink data)

instance : Memory Bytes where
  append sink data := sink ++ data
  append_nil := List.append_nil
  append_append := List.append_assoc
  writeAll_eq _ _ := rfl

theorem Memory.foldl_push (data : Bytes) (written : ByteArray) :
    data.foldl ByteArray.push written = written ++ data.toByteArray := by
  induction data generalizing written with
  | nil => simp
  | cons byte rest ih =>
    have split : (byte :: rest).toByteArray = [byte].toByteArray ++ rest.toByteArray := by
      rw [← List.toByteArray_append, List.singleton_append]
    rw [List.foldl_cons, ih, split, ← ByteArray.append_assoc,
      ByteArray.append_toByteArray_singleton]

instance : Memory ByteArray where
  append sink data := sink ++ data.toByteArray
  append_nil sink := by simp
  append_append sink data more := by
    rw [ByteArray.append_assoc, ← List.toByteArray_append]
  writeAll_eq data sink := by
    rw [← Memory.foldl_push]
    rfl

theorem Except.all_ok_or_first_error {α : Type} (answers : List (Except Fault α)) :
    (∃ given : List α, answers = given.map .ok) ∨
      ∃ (given : List α) (fault : Fault) (rest : List (Except Fault α)),
        answers = given.map .ok ++ .error fault :: rest := by
  induction answers with
  | nil => exact .inl ⟨[], rfl⟩
  | cons answer others ih =>
    cases answer with
    | error fault => exact .inr ⟨[], fault, others, rfl⟩
    | ok a =>
      rcases ih with ⟨given, rfl⟩ | ⟨given, fault, rest, rfl⟩
      · exact .inl ⟨a :: given, rfl⟩
      · exact .inr ⟨a :: given, fault, rest, rfl⟩

namespace Leaf

variable {κ : Type} [Sink κ] [Memory κ]

theorem forM_writeAll_eq (pieces : List Bytes) (sink : κ) :
    (pieces.forM Sink.writeAll : Transfer κ Unit) sink =
      .ok () (Memory.append sink pieces.flatten) := by
  induction pieces generalizing sink with
  | nil => rw [List.flatten_nil, Memory.append_nil]; rfl
  | cons piece rest ih =>
    have first : ((piece :: rest).forM Sink.writeAll : Transfer κ Unit) =
        Sink.writeAll piece >>= fun _ => rest.forM Sink.writeAll := rfl
    rw [first, Transfer.bind_of_ok (Memory.writeAll_eq piece sink), ih, Memory.append_append,
      List.flatten_cons]

theorem write_eq (pieces : List Bytes) (sink : κ) :
    Span.write pieces sink = .ok pieces.flatten.length (Memory.append sink pieces.flatten) := by
  unfold Span.write
  rw [Transfer.bind_of_ok (forM_writeAll_eq pieces sink)]
  rfl

theorem encode_eq_frame (setting : Setting) (leaf : Leaf Held) (sink : κ) :
    leaf.encode setting sink =
      match leaf.frame setting with
      | .ok pieces => .ok pieces.flatten.length (Memory.append sink pieces.flatten)
      | .error fault => .error fault sink := by
  rw [encode_eq_write]
  cases leaf.frame setting with
  | ok pieces => exact write_eq pieces sink
  | error fault => rfl

theorem alone_eq_frame (setting : Setting) (leaf : Leaf Held) :
    leaf.alone setting = (leaf.frame setting).map List.flatten := by
  unfold alone
  rw [encode_eq_frame]
  cases leaf.frame setting <;> rfl

theorem encode_of_alone {setting : Setting} {leaf : Leaf Held} {bytes : Bytes}
    (written : leaf.alone setting = .ok bytes) (sink : κ) :
    leaf.encode setting sink = .ok bytes.length (Memory.append sink bytes) := by
  rw [alone_eq_frame] at written
  obtain ⟨pieces, framed, rfl⟩ := Except.map_eq_ok.1 written
  rw [encode_eq_frame, framed]

theorem encode_of_alone_error {setting : Setting} {leaf : Leaf Held} {fault : Fault}
    (refused : leaf.alone setting = .error fault) (sink : κ) :
    leaf.encode setting sink = .error fault sink := by
  rw [alone_eq_frame] at refused
  rw [encode_eq_frame]
  cases framed : leaf.frame setting with
  | ok pieces => rw [framed] at refused; cases refused
  | error other => rw [framed] at refused; cases refused; rfl

theorem encodeAll_of_alone {setting : Setting} {steps : List (Except Fault (Leaf Held))}
    {written : List Bytes} (each : steps.map (· >>= alone setting) = written.map .ok) (sink : κ) :
    encodeAll setting steps sink =
      .ok written.flatten.length (Memory.append sink written.flatten) := by
  induction steps generalizing written sink with
  | nil =>
    obtain rfl := List.map_eq_nil_iff.1 each.symm
    rw [List.flatten_nil, Memory.append_nil]
    rfl
  | cons step rest ih =>
    obtain ⟨bytes, others, rfl, first, remaining⟩ := List.map_eq_cons_iff.1 each.symm
    obtain ⟨leaf, rfl, alone⟩ := Except.bind_eq_ok.1 first.symm
    simp only [encodeAll, Transfer.ofExcept_ok, pure_bind]
    rw [Transfer.bind_of_ok (encode_of_alone alone sink),
      Transfer.bind_of_ok (ih remaining.symm _), Memory.append_append]
    simp only [List.flatten_cons, List.length_append]
    rfl

theorem encodeAll_of_fault {setting : Setting} {steps : List (Except Fault (Leaf Held))}
    {written : List Bytes} {fault : Fault} {rest : List (Except Fault Bytes)}
    (each : steps.map (· >>= alone setting) = written.map .ok ++ .error fault :: rest) (sink : κ) :
    encodeAll setting steps sink = .error fault (Memory.append sink written.flatten) := by
  obtain ⟨firsts, others, rfl, before, after⟩ := List.map_eq_append_iff.1 each
  obtain ⟨step, tail, rfl, refused, -⟩ := List.map_eq_cons_iff.1 after
  rw [encodeAll_append, Transfer.bind_of_ok (encodeAll_of_alone before sink)]
  apply Transfer.bind_of_error
  cases step with
  | error other => cases refused; rfl
  | ok leaf =>
    simp only [encodeAll, Transfer.ofExcept_ok, pure_bind]
    exact Transfer.bind_of_error (encode_of_alone_error refused _)

theorem alone_of_encodeAll {setting : Setting} {steps : List (Except Fault (Leaf Held))} {n : Nat}
    {bytes : Bytes} (ran : encodeAll setting steps ([] : Bytes) = .ok n bytes) :
    ∃ written : List Bytes, steps.map (· >>= alone setting) = written.map .ok ∧
      n = written.flatten.length ∧ bytes = written.flatten := by
  rcases Except.all_ok_or_first_error (steps.map (· >>= alone setting)) with
    ⟨written, each⟩ | ⟨written, fault, rest, each⟩
  · have whole := (encodeAll_of_alone each ([] : Bytes)).symm.trans ran
    cases whole
    exact ⟨written, each, rfl, rfl⟩
  · have refused := (encodeAll_of_fault each ([] : Bytes)).symm.trans ran
    cases refused

end Leaf

/-- What each leaf of a record comes to when it is written on its own. A nested record without a
plan comes to its fault. -/
def Schema.pieces (setting : Setting) (schema : Schema) (record : schema.Record) :
    List (Except Fault Bytes) :=
  (schema.leaves setting.version record).map (· >>= Leaf.alone setting)

theorem Schema.pieces_of_unplanned {setting : Setting} {schema : Schema} {fault : Fault}
    (unplanned : schema.resolve setting.version = .error fault) (record : schema.Record) :
    schema.pieces setting record = [.error fault] := by
  rw [pieces, leaves_of_unplanned unplanned]
  rfl

namespace Marshaller

theorem encode_eq {κ : Type} [Sink κ] (marshaller : Marshaller) (schema : Schema) (version : Nat)
    (record : schema.Record) (sink : κ) : ∃ after,
    encode schema version record (marshaller, sink) =
      (Leaf.encodeAll (marshaller.setting version) (schema.leaves version record)).within
        (fun rest => ({ marshaller with plans := after }, rest)) sink := by
  have follows : Follows (schema.encode (marshaller.setting version) record : Walk κ Nat) _ :=
    schema.encode_follows (marshaller.setting version) record
  exact walk_eq (fun setting => schema.encode setting record) follows sink

theorem encode_of_pieces {κ : Type} [Sink κ] [Memory κ] {marshaller : Marshaller} {schema : Schema}
    {version : Nat} {record : schema.Record} {written : List Bytes}
    (each : schema.pieces (marshaller.setting version) record = written.map .ok) (sink : κ) :
    ∃ after, encode schema version record (marshaller, sink) =
      .ok written.flatten.length
        ({ marshaller with plans := after }, Memory.append sink written.flatten) := by
  obtain ⟨after, ran⟩ := encode_eq marshaller schema version record sink
  have wrote :
      Leaf.encodeAll (marshaller.setting version) (schema.leaves version record) sink = _ :=
    Leaf.encodeAll_of_alone each sink
  exact ⟨after, ran.trans (Transfer.within_eq_ok.2 ⟨_, wrote, rfl⟩)⟩

theorem pieces_of_encode {marshaller left : Marshaller} {schema : Schema} {version n : Nat}
    {record : schema.Record} {bytes : Bytes}
    (ran : encode schema version record (marshaller, ([] : Bytes)) = .ok n (left, bytes)) :
    ∃ written : List Bytes, schema.pieces (marshaller.setting version) record = written.map .ok ∧
      n = written.flatten.length ∧ bytes = written.flatten := by
  obtain ⟨after, same⟩ := encode_eq marshaller schema version record ([] : Bytes)
  obtain ⟨stopped, wrote, answer⟩ := Transfer.within_eq_ok.1 (same.symm.trans ran)
  cases answer
  exact Leaf.alone_of_encodeAll wrote

/-- Encoding into memory writes the leaves of the record in order, up to the first that fails. The
sink keeps what it held, takes the leaves before that one whole, and takes nothing else. Leaves go
in the order of their plan, which is strictly ascending. -/
theorem encode_writes_leaves {κ : Type} [Sink κ] [Memory κ] (marshaller : Marshaller)
    (schema : Schema) (version : Nat) (record : schema.Record) (sink : κ) :
    let pieces := schema.pieces (marshaller.setting version) record
    let call : Transfer (Marshaller × κ) Nat := encode schema version record
    (∀ written : List Bytes, pieces = written.map .ok →
      call.answer (marshaller, sink) = .ok written.flatten.length ∧
        (call.left (marshaller, sink)).2 = Memory.append sink written.flatten) ∧
    (∀ (written : List Bytes) fault rest, pieces = written.map .ok ++ .error fault :: rest →
      call.answer (marshaller, sink) = .error fault ∧
        (call.left (marshaller, sink)).2 = Memory.append sink written.flatten) ∧
    ((∃ written : List Bytes, pieces = written.map .ok) ∨
      ∃ (written : List Bytes) (fault : Fault) (rest : List (Except Fault Bytes)),
        pieces = written.map .ok ++ .error fault :: rest) ∧
    (∀ fault, schema.resolve version = .error fault →
      call.answer (marshaller, sink) = .error fault ∧
        (call.left (marshaller, sink)).2 = sink) ∧
    (∀ plan, schema.resolve version = .ok plan →
      plan.fields.Pairwise fun a b => a.descriptor.order < b.descriptor.order) := by
  intro pieces call
  obtain ⟨after, ran⟩ := marshaller.encode_eq schema version record sink
  have called : call (marshaller, sink) = _ := ran
  have stopped : ∀ (written : List Bytes) fault rest,
      pieces = written.map .ok ++ .error fault :: rest →
      call.answer (marshaller, sink) = .error fault ∧
        (call.left (marshaller, sink)).2 = Memory.append sink written.flatten := by
    intro written fault rest each
    have wrote : Leaf.encodeAll _ (schema.leaves version record) sink = _ :=
      Leaf.encodeAll_of_fault each sink
    simp only [Transfer.answer, Transfer.left, called, Transfer.within, wrote, and_self]
  refine ⟨?_, stopped, Except.all_ok_or_first_error pieces, ?_,
    fun plan resolved => schema.ascending_of_resolve resolved⟩
  · intro written each
    have wrote : Leaf.encodeAll _ (schema.leaves version record) sink = _ :=
      Leaf.encodeAll_of_alone each sink
    simp only [Transfer.answer, Transfer.left, called, Transfer.within, wrote, and_self]
  · intro fault unplanned
    have unwritten := stopped [] fault [] (Schema.pieces_of_unplanned unplanned record)
    simpa only [List.flatten_nil, Memory.append_nil] using unwritten

/-- Five digits do not fit a byte: the fields before them are written, and nothing else is. -/
theorem encode_writes_leaves_before_digits :
    let call : Transfer (Marshaller × Bytes) Nat :=
      encode Sample.schema 1 (Sample.record "12345" 3 10 258)
    call.answer (default, [7]) = .error (.length (.digits "digits" 3 5 1)) ∧
      (call.left (default, [7])).2 = [7, 1, 2, 0xa3] :=
  (encode_writes_leaves default Sample.schema 1 (Sample.record "12345" 3 10 258)
    ([7] : Bytes)).2.1 [[1, 2], [0xa3]] _ [] (by decide +kernel)

end Marshaller

end Wireform
