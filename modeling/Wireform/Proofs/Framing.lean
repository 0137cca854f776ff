import Wireform.Proofs.Encoding
import Wireform.Proofs.Reading

/-!
Spans without a declared length: counted, ended by a separator, or all that is left. What may be
written in one of them is just what may be read off one, and each payload stands in bytes of its
own: the two directions refuse the same, and undo each other.
-/

namespace Wireform.Span

open Cursor

variable {limit : Nat} {field : Descriptor} {data front rest : Bytes}

/-- Data keeps to the limit and to what its frame can tell. -/
def Writable (limit : Nat) (field : Descriptor) (data : Bytes) : Prop :=
  data.length ≤ limit ∧
    match field.mode with
    | .counted width => (width = 1 ∨ width = 2 ∨ width = 4) ∧ data.length < 256 ^ width
    | .terminated separator => separator ∉ data
    | .fixed | .remaining => True

theorem exists_framed_iff (undeclared : field.mode ≠ .fixed) :
    (∃ front, Framed limit field data front) ↔ Writable limit field data := by
  unfold Framed Writable
  cases mode : field.mode with
  | fixed => exact absurd mode undeclared
  | counted width =>
    have widths : checkCount (.field field.name) width = .ok () ↔
        width = 1 ∨ width = 2 ∨ width = 4 := by
      rw [checkCount_eq_ok]
      simp only [LengthMode.countWidths, List.mem_cons, List.not_mem_nil, or_false]
    simp only [widths, exists_and_left, exists_eq, and_true]
    exact and_left_comm
  | terminated separator =>
    simp only [exists_and_right, exists_eq, true_and]
    exact and_comm
  | remaining => simp only [exists_and_right, exists_eq, true_and, and_true]

theorem eq_of_framed {other : Bytes} (framed : Framed limit field data front)
    (again : Framed limit field data other) : front = other :=
  Except.ok.inj ((map_flatten_frame_iff.2 framed).symm.trans (map_flatten_frame_iff.2 again))

theorem send_of_framed {κ : Type} [Sink κ] [Memory κ] (framed : Framed limit field data front)
    (sink : κ) : send limit field data sink = .ok front.length (Memory.append sink front) := by
  obtain ⟨pieces, found, rfl⟩ := Except.map_eq_ok.1 (map_flatten_frame_iff.2 framed)
  unfold send
  rw [found, Transfer.ofExcept_ok, pure_bind, Leaf.write_eq]

/-- What has no frame is refused before the sink is touched. -/
theorem send_of_unframed {κ : Type} [Sink κ] (unframed : ¬ ∃ front, Framed limit field data front)
    (sink : κ) : ∃ fault, send limit field data sink = .error fault sink := by
  cases found : frame limit field data with
  | error fault =>
    refine ⟨fault, ?_⟩
    unfold send
    rw [found]
    rfl
  | ok pieces =>
    have flat : (frame limit field data).map List.flatten = .ok pieces.flatten := by
      rw [found]
      rfl
    exact absurd ⟨_, map_flatten_frame_iff.1 flat⟩ unframed

theorem framed_of_send {κ : Type} [Sink κ] {sink after : κ} {n : Nat}
    (wrote : send limit field data sink = .ok n after) :
    ∃ front, Framed limit field data front := by
  by_contra unframed
  obtain ⟨fault, refused⟩ := send_of_unframed unframed sink
  cases wrote.symm.trans refused

theorem takes_of_framed (undeclared : field.mode ≠ .fixed)
    (framed : Framed limit field data front) (last : field.mode = .remaining → rest = []) :
    Takes (read limit field) front rest data := by
  refine takes_read_iff.2 ⟨framed, ?_⟩
  unfold Stands
  cases mode : field.mode with
  | fixed => exact absurd mode undeclared
  | counted _ | terminated _ => exact trivial
  | remaining => exact last mode

theorem framed_of_read {done unread : Bytes} {after : Cursor}
    (ran : read limit field (between done unread) = .ok data after) :
    ∃ front rest, unread = front ++ rest ∧ after = between (done ++ front) rest ∧
      Framed limit field data front ∧ (field.mode = .remaining → rest = []) := by
  obtain ⟨front, rest, split, stopped, takes⟩ := forward_read limit field done unread data after ran
  obtain ⟨framed, stands⟩ := takes_read_iff.1 takes
  refine ⟨front, rest, split, stopped, framed, fun all => ?_⟩
  rwa [Stands, all] at stands

/-- How the two directions of a span fit together. -/
structure Exact (limit : Nat) (field : Descriptor) : Prop where
  succeeds : ∀ {κ : Type} [Sink κ] [Memory κ] (data : Bytes) (sink : κ),
    (∃ n after, send limit field data sink = .ok n after) ↔ Writable limit field data
  refuses : ∀ {κ : Type} [Sink κ] (data : Bytes) (sink : κ), ¬ Writable limit field data →
    ∃ fault, send limit field data sink = .error fault sink
  returns : ∀ {κ : Type} [Sink κ] [Memory κ] (data : Bytes) (sink : κ) (n : Nat) (after : κ),
    send limit field data sink = .ok n after → ∃ written,
      n = written.length ∧ after = Memory.append sink written ∧
      ∀ done tail, (field.mode = .remaining → tail = []) →
        read limit field (between done (written ++ tail)) =
          .ok data (between (done ++ written) tail)
  restores : ∀ (done unread data : Bytes) (after : Cursor),
    read limit field (between done unread) = .ok data after → data.length ≤ limit ∧
      ∃ consumed rest, unread = consumed ++ rest ∧ after = between (done ++ consumed) rest ∧
        (field.mode = .remaining → rest = []) ∧
        ∀ {κ : Type} [Sink κ] [Memory κ] (sink : κ),
          send limit field data sink = .ok consumed.length (Memory.append sink consumed)
  unique : ∀ (done unread done' unread' data : Bytes) (after after' : Cursor),
    read limit field (between done unread) = .ok data after →
    read limit field (between done' unread') = .ok data after' →
      ∃ consumed rest rest', unread = consumed ++ rest ∧ unread' = consumed ++ rest' ∧
        after = between (done ++ consumed) rest ∧ after' = between (done' ++ consumed) rest'

/-- Framing is a bijection between the payloads that may be written and the bytes that may be read
off. A payload is written just if it keeps to the limit and its frame can tell where it ends, else
nothing is; what was written is read as that payload, and no more is taken. A payload that was read
keeps to the limit and is written as the bytes it was read off, so no other bytes carry it. -/
theorem framing_exact (limit : Nat) {field : Descriptor} (undeclared : field.mode ≠ .fixed) :
    Exact limit field where
  succeeds data sink := by
    rw [← exists_framed_iff undeclared]
    apply Iff.intro
    · intro ⟨n, after, wrote⟩
      exact framed_of_send wrote
    · intro ⟨front, framed⟩
      exact ⟨front.length, _, send_of_framed framed sink⟩
  refuses data sink unwritable :=
    send_of_unframed (fun framed => unwritable ((exists_framed_iff undeclared).1 framed)) sink
  returns data sink n after wrote := by
    obtain ⟨front, framed⟩ := framed_of_send wrote
    cases wrote.symm.trans (send_of_framed framed sink)
    exact ⟨front, rfl, rfl, fun done tail last => takes_of_framed undeclared framed last done⟩
  restores done unread data after ran := by
    obtain ⟨front, rest, split, stopped, framed, last⟩ := framed_of_read ran
    exact ⟨((exists_framed_iff undeclared).1 ⟨front, framed⟩).1, front, rest, split, stopped, last,
      fun sink => send_of_framed framed sink⟩
  unique done unread done' unread' data after after' ran ran' := by
    obtain ⟨front, rest, split, stopped, framed, -⟩ := framed_of_read ran
    obtain ⟨other, rest', split', stopped', again, -⟩ := framed_of_read ran'
    obtain rfl := eq_of_framed framed again
    exact ⟨front, rest, rest', split, split', stopped, stopped'⟩

/-- Bytes that a zero ends, two at most. -/
theorem framing_exact_terminated :
    let field := (Descriptor.ofWire .bytes).withMode (.terminated 0)
    field.mode ≠ .fixed ∧
    (∃ n after, send 2 field [7, 8] ([9] : Bytes) = .ok n after) ∧
    (∃ fault, send 2 field [7, 0] ([9] : Bytes) = .error fault [9]) ∧
    send 2 field [7, 8] ([9] : Bytes) = .ok 3 [9, 7, 8, 0] := by
  intro field
  have undeclared : field.mode ≠ .fixed := by decide
  have exact : Exact 2 field := framing_exact 2 undeclared
  have writable : Writable 2 field [7, 8] := ⟨by decide, show (0 : UInt8) ∉ [7, 8] by decide⟩
  have unwritable : ¬ Writable 2 field [7, 0] :=
    fun written => absurd (show (0 : UInt8) ∉ [7, 0] from written.2) (by decide)
  have ran : read 2 field (between [] [7, 8, 0, 1]) = .ok [7, 8] (between [7, 8, 0] [1]) := rfl
  obtain ⟨-, consumed, rest, split, stopped, -, wrote⟩ := exact.restores _ _ _ _ ran
  refine ⟨undeclared, (exact.succeeds _ _).2 writable, exact.refuses _ _ unwritable, ?_⟩
  obtain ⟨same, -⟩ := between_inj stopped
  rw [wrote, ← show [7, 8, 0] = consumed from same]
  rfl

end Wireform.Span
