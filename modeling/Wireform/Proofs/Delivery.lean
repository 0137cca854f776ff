import Wireform.Proofs.Encoding

/-!
What reaches a sink that may refuse. A record is written in pieces, the same for every sink, and
what is wrong with the record itself ends the writing behind the same piece everywhere. A writer
takes the pieces in as many steps as it likes; when it refuses one, it has received those before it
and a part of that one, and counts only those before it.
-/

namespace Wireform

open Walk

namespace Writer

/-- The failure that an event ends a write with. A writer that takes none of some bytes fails. -/
def Event.refusal? : Event → Option String
  | accept 0 => some "failed to write whole buffer"
  | accept (_ + 1) | interrupt => none
  | failure message => some message

/-- What comes of offering `data` under `script`: all of it is taken and no event refuses, or a part
of it is and one does. -/
inductive Offered (data : Bytes) (script : List Event) : Delivered → Prop where
  | whole (used : List Event) {rest : List Event} (split : script = used ++ rest)
    (willing : used.filterMap Event.refusal? = []) : Offered data script ⟨data, none, rest⟩
  | part (used : List Event) {rest : List Event} {taken : Bytes} {message : String}
    (split : script = used ++ rest) (refuses : used.filterMap Event.refusal? = [message])
    (front : taken <+: data) (short : taken ≠ data) :
    Offered data script ⟨taken, some message, rest⟩

/-- An event that does not refuse takes the front of the data. -/
theorem Offered.after {front data : Bytes} {event : Event} {rest : List Event}
    {delivered : Delivered} (willing : event.refusal? = none)
    (offered : Offered data rest delivered) :
    Offered (front ++ data) (event :: rest) (delivered.after front) := by
  cases offered with
  | whole used split others =>
    refine .whole (event :: used) (congrArg _ split) ?_
    rw [List.filterMap_cons_none willing, others]
  | part used split refuses prior short =>
    refine .part (event :: used) (congrArg _ split) ?_
      ((List.prefix_append_right_inj front).2 prior)
      fun same => short (List.append_cancel_left same)
    rw [List.filterMap_cons_none willing, refuses]

theorem Offered.refused {data : Bytes} {event : Event} {rest : List Event} {message : String}
    (refuses : event.refusal? = some message) (anything : data ≠ []) :
    Offered data (event :: rest) ⟨[], some message, rest⟩ :=
  .part [event] rfl (List.filterMap_cons_some refuses) List.nil_prefix anything.symm

theorem offered_deliver (data : Bytes) (script : List Event) :
    Offered data script (deliver data script) := by
  -- Each event leaves less of the script, whether or not it leaves less of the data.
  induction script generalizing data with
  | nil =>
    unfold deliver
    split
    next empty => rw [List.isEmpty_iff.1 empty]; exact .whole [] rfl rfl
    next => exact .whole [] rfl rfl
  | cons event rest ih =>
    unfold deliver
    split
    next empty => rw [List.isEmpty_iff.1 empty]; exact .whole [] rfl rfl
    next offers =>
      have anything : data ≠ [] := fun empty => offers (List.isEmpty_iff.2 empty)
      match event with
      | .accept 0 => exact .refused rfl anything
      | .accept (limit + 1) =>
        have later : Offered (data.take (limit + 1) ++ data.drop (limit + 1))
            (.accept (limit + 1) :: rest) _ := (ih (data.drop (limit + 1))).after rfl
        rwa [List.take_append_drop] at later
      | .interrupt =>
        have later : Offered ([] ++ data) (.interrupt :: rest) _ := (ih data).after rfl
        exact later
      | .failure message => exact .refused rfl anything

/-- From one writer to the other, so many events and bytes later. -/
structure Moves (writer after : Writer) (used : List Event) (taken : Bytes) (count : Nat) :
    Prop where
  script : writer.script = used ++ after.script
  received : after.received = writer.received ++ taken
  counted : after.counted = writer.counted + count
  flushFailure : after.flushFailure = writer.flushFailure

theorem Moves.trans {writer mid after : Writer} {used others : List Event} {taken more : Bytes}
    {count further : Nat} (first : Moves writer mid used taken count)
    (second : Moves mid after others more further) :
    Moves writer after (used ++ others) (taken ++ more) (count + further) where
  script := by rw [first.script, second.script, List.append_assoc]
  received := by rw [second.received, first.received, List.append_assoc]
  counted := by rw [second.counted, first.counted, Nat.add_assoc]
  flushFailure := second.flushFailure.trans first.flushFailure

/-- What comes of writing pieces: no event refuses and all of them are received and counted, or one
event refuses a piece, those before it are received and counted, and a part of it is received. -/
inductive Wrote (pieces : List Bytes) (writer : Writer) :
    EStateM.Result Fault Writer Unit → Prop where
  | all (used : List Event) {after : Writer}
    (moves : Moves writer after used pieces.flatten pieces.flatten.length)
    (willing : used.filterMap Event.refusal? = []) : Wrote pieces writer (.ok () after)
  | stopped (used : List Event) (done : List Bytes) {after : Writer} {rest : List Bytes}
    {piece taken : Bytes} {message : String} (split : pieces = done ++ piece :: rest)
    (moves : Moves writer after used (done.flatten ++ taken) done.flatten.length)
    (refuses : used.filterMap Event.refusal? = [message]) (front : taken <+: piece)
    (short : taken ≠ piece) : Wrote pieces writer (.error (.io message) after)

theorem wrote_writeAll (piece : Bytes) (writer : Writer) :
    Wrote [piece] writer (writeAll piece writer) := by
  have offered := offered_deliver piece writer.script
  unfold writeAll
  generalize deliver piece writer.script = delivered at offered
  cases offered with
  | whole used split willing =>
    exact .all used ⟨split, by simp, by simp, rfl⟩ willing
  | part used split refuses front short =>
    exact .stopped used [] rfl ⟨split, rfl, rfl, rfl⟩ refuses front short

theorem Wrote.append {pieces more : List Bytes} {writer mid : Writer}
    {result : EStateM.Result Fault Writer Unit} (first : Wrote pieces writer (.ok () mid))
    (second : Wrote more mid result) : Wrote (pieces ++ more) writer result := by
  obtain ⟨used, moves, willing⟩ := first
  cases second with
  | all others further also =>
    refine .all (used ++ others) ?_ (by rw [List.filterMap_append, willing, also]; rfl)
    rw [List.flatten_append, List.length_append]
    exact moves.trans further
  | stopped others done split further refuses front short =>
    refine .stopped (used ++ others) (pieces ++ done) (by rw [split, List.append_assoc]) ?_
      (by rw [List.filterMap_append, willing, refuses]; rfl) front short
    rw [List.flatten_append, List.length_append, List.append_assoc]
    exact moves.trans further

theorem Wrote.append_of_error {pieces more : List Bytes} {writer after : Writer} {fault : Fault}
    (first : Wrote pieces writer (.error fault after)) :
    Wrote (pieces ++ more) writer (.error fault after) := by
  obtain _ | ⟨used, done, split, moves, refuses, front, short⟩ := first
  exact .stopped used done (by rw [split, List.append_assoc]; rfl) moves refuses front short

theorem wrote_forM (pieces : List Bytes) (writer : Writer) :
    Wrote pieces writer ((pieces.forM Sink.writeAll : Transfer Writer Unit) writer) := by
  induction pieces generalizing writer with
  | nil => exact .all [] ⟨rfl, (List.append_nil _).symm, rfl, rfl⟩ rfl
  | cons piece rest ih =>
    have first := wrote_writeAll piece writer
    rw [List.forM_eq_forM, List.forM_cons, ← List.singleton_append]
    cases ran : writeAll piece writer with
    | ok _ mid =>
      rw [ran] at first
      exact Transfer.bind_of_ok ran ▸ first.append (ih mid)
    | error fault after =>
      rw [ran] at first
      exact Transfer.bind_of_error ran ▸ first.append_of_error

end Writer

namespace Leaf

/-- The pieces that leaves are written in, up to the first leaf that fails, and what the writing
comes to if no piece is refused. -/
def writing (setting : Setting) : List (Except Fault (Leaf Held)) → List Bytes × Except Fault Nat
  | [] => ([], .ok 0)
  | step :: rest =>
    match step >>= frame setting with
    | .error fault => ([], .error fault)
    | .ok pieces =>
      let (others, answer) := writing setting rest
      (pieces ++ others, answer.map (pieces.flatten.length + ·))

def writes {κ : Type} [Sink κ] (writing : List Bytes × Except Fault Nat) : Transfer κ Nat := do
  writing.1.forM Sink.writeAll
  Transfer.ofExcept writing.2

variable {κ : Type} [Sink κ] (setting : Setting)

/-- Every sink is offered the same pieces. -/
theorem encodeAll_eq_writes (steps : List (Except Fault (Leaf Held))) :
    (encodeAll setting steps : Transfer κ Nat) = writes (writing setting steps) := by
  induction steps with
  | nil => rfl
  | cons step rest ih =>
    rw [encodeAll, ih, writing]
    cases step with
    | error fault => rfl
    | ok leaf =>
      rw [Transfer.ofExcept_ok, pure_bind, encode_eq_write]
      cases framed : leaf.frame setting with
      | error fault =>
        simp only [bind, Except.bind, framed]
        rfl
      | ok pieces =>
        have given : (Except.ok leaf >>= frame setting) = .ok pieces := framed
        rw [given]
        simp only [writes, Span.write, Transfer.ofExcept_ok, pure_bind, bind_assoc,
          List.forM_eq_forM, List.forM_append]
        congr 1
        funext _
        congr 1
        funext _
        cases (writing setting rest).2 <;> rfl

omit setting in
theorem writes_of_ok {writing : List Bytes × Except Fault Nat} {sink after : κ}
    (ran : (writing.1.forM Sink.writeAll : Transfer κ Unit) sink = .ok () after) :
    (writes writing).answer sink = writing.2 ∧ (writes writing).left sink = after := by
  unfold Transfer.answer Transfer.left writes
  rw [Transfer.bind_of_ok ran]
  cases writing.2 <;> exact ⟨rfl, rfl⟩

omit [Sink κ] in
theorem length_writing {steps : List (Except Fault (Leaf Held))} {n : Nat}
    (answered : (writing setting steps).2 = .ok n) :
    n = (writing setting steps).1.flatten.length := by
  induction steps generalizing n with
  | nil => cases answered; rfl
  | cons step rest ih =>
    rw [writing] at answered ⊢
    cases framed : step >>= frame setting with
    | error fault => rw [framed] at answered; cases answered
    | ok pieces =>
      rw [framed] at answered
      obtain ⟨m, given, rfl⟩ := Except.map_eq_ok.1 answered
      simp only [List.flatten_append, List.length_append, ← ih given]

end Leaf

/-- How pieces fare with a writer, which takes some events of its script for them. `answer` is to be
given once all pieces are written, `outcome` is what is given. -/
structure Writer.Delivery (pieces : List Bytes) (answer outcome : Except Fault Nat)
    (writer after : Writer) (used : List Writer.Event) : Prop where
  script : writer.script = used ++ after.script
  /-- If nothing is refused, all is received and counted. -/
  whole : used.filterMap Event.refusal? = [] → outcome = answer ∧
    after.received = writer.received ++ pieces.flatten ∧
    after.counted = writer.counted + pieces.flatten.length
  /-- If a piece is refused, the pieces before it are counted, and at least they are received. -/
  part : ∀ message ∈ used.filterMap Event.refusal?, outcome = .error (.io message) ∧
    ∃ done piece rest taken, pieces = done ++ piece :: rest ∧ taken <+: piece ∧ taken ≠ piece ∧
      after.received = writer.received ++ (done.flatten ++ taken) ∧
      done.flatten ++ taken <+: pieces.flatten ∧
      after.counted = writer.counted + done.flatten.length ∧
      done.flatten.length ≤ (done.flatten ++ taken).length

theorem Leaf.delivery_writes (writing : List Bytes × Except Fault Nat) (writer : Writer) :
    ∃ used, Writer.Delivery writing.1 writing.2 ((writes writing).answer writer) writer
      ((writes writing).left writer) used := by
  have wrote := Writer.wrote_forM writing.1 writer
  cases ran : (writing.1.forM Sink.writeAll : Transfer Writer Unit) writer with
  | ok _ after =>
    rw [ran] at wrote
    obtain ⟨used, moves, willing⟩ := wrote
    obtain ⟨answer, left⟩ := writes_of_ok ran
    rw [answer, left]
    refine ⟨used, moves.script, fun _ => ⟨rfl, moves.received, moves.counted⟩, ?_⟩
    rw [willing]
    nofun
  | error fault after =>
    rw [ran] at wrote
    obtain _ | ⟨used, done, split, moves, refuses, front, short⟩ := wrote
    unfold Transfer.answer Transfer.left writes
    rw [Transfer.bind_of_error ran]
    refine ⟨used, moves.script, fun willing => ?_, fun message refused => ?_⟩
    · rw [refuses] at willing
      cases willing
    · rw [refuses, List.mem_singleton] at refused
      subst refused
      refine ⟨rfl, done, _, _, _, split, front, short, moves.received, ?_, moves.counted, ?_⟩
      · rw [split, List.flatten_append, List.flatten_cons]
        exact (List.prefix_append_right_inj _).2 (front.trans (List.prefix_append ..))
      · rw [List.length_append]
        exact Nat.le_add_right ..

namespace Marshaller

section

variable (marshaller : Marshaller) (schema : Schema) (version : Nat) (record : schema.Record)

def writing : List Bytes × Except Fault Nat :=
  Leaf.writing (marshaller.setting version) (schema.leaves version record)

theorem encode_writes {κ : Type} [Sink κ] (sink : κ) :
    let call : Transfer (Marshaller × κ) Nat := encode schema version record
    let writes : Transfer κ Nat := Leaf.writes (marshaller.writing schema version record)
    call.answer (marshaller, sink) = writes.answer sink ∧
      (call.left (marshaller, sink)).2 = writes.left sink := by
  intro call writes
  obtain ⟨after, same⟩ := encode_eq marshaller schema version record sink
  rw [Leaf.encodeAll_eq_writes] at same
  have called : call (marshaller, sink) = writes.within _ sink := same
  unfold Transfer.answer Transfer.left
  rw [called, Transfer.within]
  cases writes sink <;> exact ⟨rfl, rfl⟩

theorem encode_writes_memory {κ : Type} [Sink κ] [Memory κ] (sink : κ) :
    let call : Transfer (Marshaller × κ) Nat := encode schema version record
    let writing := marshaller.writing schema version record
    call.answer (marshaller, sink) = writing.2 ∧
      (call.left (marshaller, sink)).2 = Memory.append sink writing.1.flatten := by
  intro call writing
  obtain ⟨answer, left⟩ := marshaller.encode_writes schema version record sink
  obtain ⟨given, stood⟩ := Leaf.writes_of_ok (Leaf.forM_writeAll_eq writing.1 sink)
  exact ⟨answer.trans given, left.trans stood⟩

end

/-- A record goes out in the same pieces to every sink. Bytes in memory take them all, of either
kind; if the call answers at all, it does so with their number. A writer that refuses nothing
receives and counts the same; one that refuses ends the call with its failure, in the middle of a
piece or in front of it, has received what comes before that, and has counted the whole pieces. -/
theorem encode_delivers (marshaller : Marshaller) (schema : Schema) (version : Nat)
    (record : schema.Record) :
    let call (κ : Type) [Sink κ] : Transfer (Marshaller × κ) Nat := encode schema version record
    let answer := (call Bytes).answer (marshaller, [])
    let image := ((call Bytes).left (marshaller, [])).2
    (∀ n, answer = .ok n → n = image.length) ∧
    (∀ sink, (call Bytes).answer (marshaller, sink) = answer ∧
      ((call Bytes).left (marshaller, sink)).2 = sink ++ image) ∧
    (∀ sink, (call ByteArray).answer (marshaller, sink) = answer ∧
      ((call ByteArray).left (marshaller, sink)).2 = sink ++ image.toByteArray) ∧
    ∃ pieces : List Bytes, pieces.flatten = image ∧
      (∀ (κ : Type) [Sink κ] (sink : κ),
        (call κ).answer (marshaller, sink) = (Leaf.writes (pieces, answer)).answer sink ∧
          ((call κ).left (marshaller, sink)).2 = (Leaf.writes (pieces, answer)).left sink) ∧
      ∀ writer : Writer, ∃ used, Writer.Delivery pieces answer
        ((call Writer).answer (marshaller, writer)) writer
        ((call Writer).left (marshaller, writer)).2 used := by
  intro call answer image
  obtain ⟨given, held⟩ := marshaller.encode_writes_memory schema version record ([] : Bytes)
  have given : answer = (marshaller.writing schema version record).2 := given
  have held : image = (marshaller.writing schema version record).1.flatten := held
  rw [given, held]
  refine ⟨fun n ok => Leaf.length_writing _ ok,
    marshaller.encode_writes_memory schema version record,
    marshaller.encode_writes_memory schema version record, _, rfl,
    fun κ _ sink => marshaller.encode_writes schema version record sink, fun writer => ?_⟩
  obtain ⟨answered, left⟩ := marshaller.encode_writes schema version record writer
  obtain ⟨used, delivery⟩ := Leaf.delivery_writes (marshaller.writing schema version record) writer
  rw [← answered, ← left] at delivery
  exact ⟨used, delivery⟩

end Marshaller

namespace Sample

/-- Takes one byte, is interrupted, takes another, and is full. -/
def full : Writer :=
  .ofScript [.accept 1, .interrupt, .accept 7, .failure "full", .accept 7] none

end Sample

namespace Marshaller

/-- The first piece goes through in two steps, the second is refused, the third is not written. -/
theorem encode_delivers_sample :
    let call : Transfer (Marshaller × Writer) Nat :=
      encode Sample.schema 1 (Sample.record "12" 3 10 258)
    call.answer (default, Sample.full) = .error (.io "full") ∧
      (call.left (default, Sample.full)).2 = ⟨[.accept 7], [1, 2], 2, none⟩ := by
  intro call
  have left : (call.left (default, Sample.full)).2 = ⟨[.accept 7], [1, 2], 2, none⟩ := by
    decide +kernel
  obtain ⟨-, -, -, pieces, -, -, delivers⟩ :=
    encode_delivers default Sample.schema 1 (Sample.record "12" 3 10 258)
  obtain ⟨used, delivery⟩ := delivers Sample.full
  have split : [.accept 1, .interrupt, .accept 7, .failure "full"] ++ [.accept 7] =
      used ++ (call.left (default, Sample.full)).2.script := delivery.script
  rw [left] at split
  have took := List.append_cancel_right split
  subst took
  exact ⟨(delivery.part "full" (by decide)).1, left⟩

end Marshaller

end Wireform
