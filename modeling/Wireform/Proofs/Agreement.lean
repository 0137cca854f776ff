import Wireform.Proofs.Truncation

/-!
A record is the same wherever it is read from. What a cursor reads off its bytes, a reader that
delivers them reads as well, however they are cut into chunks, and it hands out no byte more; so do
bytes by themselves. And what any reader answers, be it one that may fail, is what a cursor reads
off the bytes that were handed out, as long as the end it reports stays the end.
-/

namespace Wireform

open Cursor

/-- What a reader answers, a cursor takes off the bytes that the reader handed out. What may stand
behind them is only what the reader still had, as a read of all that is left has left nothing. -/
theorem Alike.took_of_run {openEnded : Prop} {α : Type} {act : Transfer Cursor α}
    {act' : Transfer Reader α} (alike : Alike openEnded act act') {reader after : Reader} {a : α}
    (final : Reader.Final reader.script) (ran : act' reader = .ok a after) :
    ∃ front, Reader.Took reader after front ∧
      ∀ rest, rest <+: after.unread → Takes act front rest a := by
  induction alike generalizing reader after with
  | pure b =>
    cases ran
    exact ⟨[], .refl reader, fun rest _ => takes_pure b rest⟩
  | throw fault => cases ran
  | readFixed n =>
    obtain ⟨took, length⟩ := Reader.of_readExactly ran
    exact ⟨a, took, fun rest _ => takes_readFixed_iff.2 ⟨rfl, length⟩⟩
  | readUntil separator limit =>
    obtain ⟨own, rfl, absent, within, took⟩ := Reader.of_readUntilFrom ran
    exact ⟨_, took, fun rest _ => takes_readUntil_iff.2 ⟨rfl, absent, within⟩⟩
  | readRemaining allowed limit =>
    obtain ⟨took, within, finished⟩ := Reader.of_readRemaining ran
    refine ⟨a, took, fun rest start => takes_readRemaining_iff.2 ⟨rfl, ?_, within⟩⟩
    rw [finished final] at start
    exact List.prefix_nil.1 start
  | bind first second before after' =>
    obtain ⟨b, mid, ranFirst, ranSecond⟩ := Transfer.bind_eq_ok.1 ran
    obtain ⟨former, tookFirst, takesFirst⟩ := before final ranFirst
    obtain ⟨latter, tookSecond, takesSecond⟩ := after' b (tookFirst.final final) ranSecond
    refine ⟨former ++ latter, tookFirst.trans tookSecond, fun rest start => ?_⟩
    refine takes_bind (takesFirst (latter ++ rest) ?_) (takesSecond rest start)
    rw [tookSecond.unread]
    exact (List.prefix_append_right_inj latter).2 start

namespace Marshaller

variable {marshaller : Marshaller} {schema : Schema} {version : Nat} {initial : schema.Record}

theorem decode_of_holds {data : Bytes} {decoded : Decoded schema} {left : Marshaller}
    {cursor : Cursor}
    (ran : decode schema version initial (marshaller, ofBytes data) = .ok decoded (left, cursor))
    (plans : PlanCache) {σ : Type} [Source σ] [Supply σ] {source : σ} {taken : Nat}
    (holds : Supply.Holds source taken data) : ∃ after stopped,
      decode schema version initial ({ marshaller with plans := plans }, source) =
        .ok decoded (after, stopped) ∧
      Supply.Holds stopped (taken + cursor.position) (data.drop cursor.position) := by
  have started : decode schema version initial (marshaller, between [] data) = _ := ran
  obtain ⟨front, rest, spans, rfl, rfl, takes, rfl⟩ := takes_of_decode started
  obtain ⟨stopped, read, left⟩ :=
    (Leaf.alike_readAll _ fun _ _ _ => trivial).run_of_takes takes (fun _ => rfl) holds
  obtain ⟨after, ran⟩ := decode_of_readAll read initial plans
  have dropped : (front ++ rest).drop front.length = rest := List.drop_left
  exact ⟨_, stopped, ran, dropped.symm ▸ left⟩

theorem decode_handed {reader stopped : Reader} {decoded : Decoded schema} {left : Marshaller}
    (final : Reader.Final reader.script)
    (ran : decode schema version initial (marshaller, reader) = .ok decoded (left, stopped)) :
    ∃ handed, Reader.Took reader stopped handed ∧ ∀ plans, ∃ after,
      decode schema version initial ({ marshaller with plans := plans }, ofBytes handed) =
        .ok decoded ({ marshaller with plans := after }, between handed []) := by
  obtain ⟨spans, read, rfl⟩ := readAll_of_decode ran
  obtain ⟨handed, took, takes⟩ :=
    (Leaf.alike_readAll _ fun _ _ _ => trivial).took_of_run final read
  refine ⟨handed, took, fun plans => ?_⟩
  have whole := takes [] (List.nil_prefix ..) []
  rw [List.append_nil] at whole
  exact decode_of_readAll whole initial plans

/-- Where a cursor answers, every reader that delivers the same bytes gives the same record and
tree, in whatever chunks and however often interrupted, and takes as many bytes and none ahead; so
do bytes by themselves. Where any reader answers whose end is final, a cursor over just the bytes
that it handed out gives the same record and tree and uses them all. -/
theorem decode_reader_agrees (marshaller : Marshaller) (schema : Schema) (version : Nat)
    (initial : schema.Record) :
    (∀ data decoded left cursor,
      decode schema version initial (marshaller, ofBytes data) = .ok decoded (left, cursor) →
      ∀ plans,
      (∀ reader : Reader, reader.Delivers data → ∃ after stopped,
        decode schema version initial ({ marshaller with plans := plans }, reader) =
          .ok decoded (after, stopped) ∧
        stopped.consumed = reader.consumed + cursor.position ∧
        reader.unread = data.take cursor.position ++ stopped.unread) ∧
      ∃ after, decode schema version initial ({ marshaller with plans := plans }, data) =
        .ok decoded (after, data.drop cursor.position)) ∧
    (∀ (reader : Reader) decoded left stopped, Reader.Final reader.script →
      decode schema version initial (marshaller, reader) = .ok decoded (left, stopped) →
      ∃ handed, reader.unread = handed ++ stopped.unread ∧
        stopped.consumed = reader.consumed + handed.length ∧
        ∀ plans, ∃ after cursor,
          decode schema version initial ({ marshaller with plans := plans }, ofBytes handed) =
            .ok decoded (after, cursor) ∧
          cursor.position = handed.length ∧ cursor.unread = []) := by
  refine ⟨fun data decoded left cursor ran plans => ⟨fun reader delivers => ?_, ?_⟩,
    fun reader decoded left stopped final ran => ?_⟩
  · obtain ⟨after, stopped, read, rest, counted⟩ := decode_of_holds ran plans delivers.holds
    refine ⟨after, stopped, read, counted, ?_⟩
    rw [delivers.unread_eq, rest.unread_eq, List.take_append_drop]
  · obtain ⟨after, stopped, read, rfl⟩ := decode_of_holds ran plans (Bytes.holds_self data)
    exact ⟨after, read⟩
  · obtain ⟨handed, took, again⟩ := decode_handed final ran
    refine ⟨handed, took.unread, took.consumed, fun plans => ?_⟩
    obtain ⟨after, read⟩ := again plans
    exact ⟨_, _, read, rfl, unread_between handed []⟩

end Marshaller

namespace Sample

def narrow : Marshaller :=
  .ofSettings (Settings.default.withMaxVariableLength 16) .builtin

def patient : Reader :=
  .ofScript [.chunk [97], .interrupt, .chunk [98, 0, 0xa3, 0], .chunk [2, 7, 8, 9], .endOfData]

/-- Brings a letter, and would fail if it were read on. -/
def brittle : Reader :=
  .ofScript [.chunk [97, 0, 0xa3], .interrupt, .chunk [5, 6], .endOfData, .failure "late"]

end Sample

namespace Marshaller

/-- A letter whose body has its length in front, with a byte behind it, and one whose body is all
that is left. -/
theorem decode_reader_agrees_letter :
    let image : Bytes := [97, 98, 0, 0xa3, 0, 2, 7, 8, 9]
    (∃ decoded left, decode (Sample.letter (.counted 2)) 1 (Sample.draft _)
        (Sample.narrow, ofBytes image) = .ok decoded (left, ⟨image, 8⟩) ∧
      ∃ after stopped, decode (Sample.letter (.counted 2)) 1 (Sample.draft _)
        (Sample.narrow, Sample.patient) = .ok decoded (after, stopped) ∧
      stopped.consumed = 8 ∧ Sample.patient.unread = image.take 8 ++ stopped.unread) ∧
    ∃ decoded left, decode (Sample.letter .remaining) 1 (Sample.draft _)
        (Sample.narrow, Sample.brittle) = .ok decoded (left, ⟨[], [.failure "late"], 5⟩) ∧
      ∃ after cursor, decode (Sample.letter .remaining) 1 (Sample.draft _)
        (Sample.narrow, ofBytes [97, 0, 0xa3, 5, 6]) = .ok decoded (after, cursor) ∧
      cursor.unread = [] := by
  intro image
  have read : decode (Sample.letter (.counted 2)) 1 (Sample.draft _)
    (Sample.narrow, ofBytes image) = .ok _ (_, ⟨image, 8⟩) := rfl
  have delivers : Sample.patient.Delivers image :=
    ⟨_, .chunk _ (.interrupt (.chunk _ (.chunk _ (.endOfData .finished)))), rfl⟩
  obtain ⟨after, stopped, again, count, split⟩ :=
    ((decode_reader_agrees Sample.narrow (Sample.letter (.counted 2)) 1 (Sample.draft _)).1
      image _ _ _ read PlanCache.empty).1 Sample.patient delivers
  refine ⟨⟨_, _, read, after, stopped, again, count, split⟩, ?_⟩
  obtain ⟨decoded, left, found⟩ : ∃ decoded left,
      decode (Sample.letter .remaining) 1 (Sample.draft _) (Sample.narrow, Sample.brittle) =
        .ok decoded (left, ⟨[], [.failure "late"], 5⟩) := ⟨_, _, rfl⟩
  obtain ⟨handed, unread, -, once⟩ :=
    (decode_reader_agrees Sample.narrow (Sample.letter .remaining) 1 (Sample.draft _)).2
      Sample.brittle _ _ _ (by decide) found
  obtain ⟨after, cursor, onceMore, -, nothing⟩ := once PlanCache.empty
  have bytes : handed = [97, 0, 0xa3, 5, 6] := (unread.trans (List.append_nil handed)).symm
  exact ⟨decoded, left, found, after, cursor, bytes ▸ onceMore, nothing⟩

end Marshaller

end Wireform
