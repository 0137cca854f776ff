import Wireform.Proofs.Gathering

/-!
Records cut off before their end. Where decoding succeeds, it has used every byte that it consumed:
with any of them missing behind, it fails for want of bytes, whatever kind of source they come from.
So no record is written as a proper beginning of another one of its type.
-/

namespace Wireform

open Cursor

namespace Marshaller

variable {marshaller : Marshaller} {schema : Schema} {version : Nat} {initial : schema.Record}

theorem starves_of_readAll {σ : Type} [Source σ] {source : σ}
    (starves : (Leaf.readAll (marshaller.setting version) (schema.layout version) :
      Transfer σ (List Bytes)).Starves source) (initial : schema.Record) (plans : PlanCache) :
    (decode schema version initial : Transfer (Marshaller × σ) (Decoded schema)).Starves
      ({ marshaller with plans := plans }, source) := by
  obtain ⟨needed, available, stopped, short⟩ := starves
  obtain ⟨after, ran⟩ := decode_error_of_readAll short initial plans
  exact ⟨needed, available, _, ran⟩

theorem starves_of_cut (closed : schema.Closed version) {data cut : Bytes}
    {decoded : Decoded schema} {left : Marshaller} {cursor : Cursor}
    (ran : decode schema version initial (marshaller, ofBytes data) = .ok decoded (left, cursor))
    (start : cut <+: data) (short : cut.length < cursor.position) (plans : PlanCache)
    {σ : Type} [Source σ] [Supply σ] {source : σ} {taken : Nat}
    (holds : Supply.Holds source taken cut) :
    (decode schema version initial : Transfer (Marshaller × σ) (Decoded schema)).Starves
      ({ marshaller with plans := plans }, source) := by
  have started : decode schema version initial (marshaller, between [] data) = _ := ran
  obtain ⟨front, rest, spans, rfl, rfl, takes, -⟩ := takes_of_decode started
  have within : cut.length < front.length := short
  obtain ⟨lost, whole⟩ : cut <+: front :=
    List.prefix_of_prefix_length_le start (List.prefix_append front rest) (Nat.le_of_lt within)
  have missing : lost ≠ [] := by
    rintro rfl
    rw [← whole, List.append_nil] at within
    exact Nat.lt_irrefl _ within
  have starves := (Leaf.alike_readAll _ closed).starves_of_takes takes whole.symm missing holds
  exact starves_of_readAll starves initial plans

/-- Cut off anywhere before the end of what decoding consumed, the bytes are too few to be decoded:
on a cursor, as bytes by themselves, or handed out by a reader in any chunks. So of two images of
one record type, neither goes on where the other has ended. -/
theorem decode_truncated (closed : schema.Closed version) {data : Bytes} {decoded : Decoded schema}
    {left : Marshaller} {cursor : Cursor}
    (ran : decode schema version initial (marshaller, ofBytes data) = .ok decoded (left, cursor)) :
    (∀ cut < cursor.position, ∀ plans,
      let again := { marshaller with plans := plans }
      (decode schema version initial).Starves (again, ofBytes (data.take cut)) ∧
      (decode schema version initial).Starves (again, data.take cut) ∧
      ∀ reader : Reader, reader.Delivers (data.take cut) →
        (decode schema version initial).Starves (again, reader)) ∧
    (cursor.position = data.length → ∀ image, image <+: data →
      (∃ plans other after stopped, decode schema version initial
        ({ marshaller with plans := plans }, ofBytes image) = .ok other (after, stopped)) →
      image = data) := by
  apply And.intro
  · intro cut short plans
    have start : data.take cut <+: data := List.take_prefix cut data
    have few : (data.take cut).length < cursor.position :=
      Nat.lt_of_le_of_lt (List.length_take_le cut data) short
    refine ⟨?_, ?_, fun reader delivers => ?_⟩
    · exact starves_of_cut closed ran start few plans (holds_ofBytes _)
    · exact starves_of_cut closed ran start few plans (Bytes.holds_self _)
    · exact starves_of_cut closed ran start few plans delivers.holds
  · intro whole image start ⟨plans, other, after, stopped, read⟩
    by_contra proper
    have few : image.length < cursor.position := by
      rw [whole]
      exact lt_of_le_of_ne start.length_le fun same => proper (start.eq_of_length same)
    obtain ⟨needed, available, found, failed⟩ :=
      starves_of_cut closed ran start few plans (holds_ofBytes image)
    cases read.symm.trans failed

end Marshaller

namespace Sample

/-- Text up to a zero, two halves of a byte, and a body. -/
def letter (body : LengthMode) : Schema :=
  .fields 2 "Letter"
    [.scalar "body" .bytes [((Descriptor.ofWire .bytes).withMode body).withOrder 2],
      .nested "flags" flags [(Descriptor.ofWire .object).withOrder 1],
      .scalar "to" .string [(Descriptor.ofWire .string).withMode (.terminated 0)]]

def draft (body : LengthMode) : (letter body).Record :=
  ([9], (1, 2, ()), "nobody", ())

end Sample

namespace Marshaller

/-- A letter without the last byte of its body, in one piece and in chunks, and one that ends in
front of the separator. -/
theorem decode_truncated_letter :
    let schema := Sample.letter (.counted 2)
    let image : Bytes := [97, 98, 0, 0xa3, 0, 2, 7, 8]
    let reader := Reader.ofScript
      [.chunk [97], .interrupt, .chunk [98, 0, 0xa3, 0], .chunk [2, 7], .endOfData]
    let initial := Sample.draft (.counted 2)
    (∃ decoded left cursor, decode schema 1 initial (default, ofBytes image) =
        .ok decoded (left, cursor) ∧
      cursor.position = 8) ∧
    (decode schema 1 initial).Starves (default, ofBytes (image.take 7)) ∧
    (decode schema 1 initial).Starves (default, reader) ∧
    (decode schema 1 initial).Starves (default, image.take 2) := by
  intro schema image reader initial
  have closed : schema.Closed 1 := by decide +kernel
  have read : decode schema 1 initial (default, ofBytes image) = .ok _ (_, ⟨image, 8⟩) := rfl
  have delivers : reader.Delivers (image.take 7) :=
    ⟨_, .chunk _ (.interrupt (.chunk _ (.chunk _ (.endOfData .finished)))), rfl⟩
  have cuts := (decode_truncated closed read).1
  obtain ⟨onCursor, -, onReader⟩ := cuts 7 (by decide) PlanCache.empty
  obtain ⟨-, onBytes, -⟩ := cuts 2 (by decide) PlanCache.empty
  exact ⟨⟨_, _, _, read, rfl⟩, onCursor, onReader reader delivers, onBytes⟩

end Marshaller

end Wireform
