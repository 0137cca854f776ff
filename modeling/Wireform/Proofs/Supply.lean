import Wireform.Proofs.Alike

/-!
Sources that hold known bytes. A read that finds in front what it asks for takes that and nothing
else, and a read that comes to the end too early finds too few bytes. So what a cursor reads off the
front of its bytes is read off every such source, and where bytes are missing behind, no such source
answers.
-/

namespace Wireform

/-- The action finds fewer bytes than it needs. -/
def Transfer.Starves {σ α : Type} (act : Transfer σ α) (state : σ) : Prop :=
  ∃ needed available after, act state = .error (.insufficient needed available) after

namespace Transfer.Starves

variable {σ α β : Type} {act : Transfer σ α} {state : σ}

theorem bind {next : α → Transfer σ β} : act.Starves state → (act >>= next).Starves state
  | ⟨needed, available, after, ran⟩ => ⟨needed, available, after, bind_of_error ran⟩

theorem of_bind {mid : σ} {a : α} {next : α → Transfer σ β} (first : act state = .ok a mid) :
    (next a).Starves mid → (act >>= next).Starves state
  | ⟨needed, available, after, ran⟩ => ⟨needed, available, after, (bind_of_ok first).trans ran⟩

end Transfer.Starves

/-- A source that tells from its state what it has given and what it will give before it ends. -/
class Supply (σ : Type) [Source σ] where
  /-- So many bytes have been taken, and just these are left. -/
  Holds : σ → Nat → Bytes → Prop
  readFixed_enough {source : σ} {taken : Nat} {data rest : Bytes} :
    Holds source taken (data ++ rest) → ∃ after,
      Span.readFixed data.length source = .ok data after ∧ Holds after (taken + data.length) rest
  readFixed_short {source : σ} {taken n : Nat} {data : Bytes} :
    Holds source taken data → data.length < n → (Span.readFixed n).Starves source
  readUntil_found {source : σ} {taken limit : Nat} {separator : UInt8} {data rest : Bytes} :
    Holds source taken (data ++ separator :: rest) → separator ∉ data → data.length ≤ limit →
      ∃ after, Source.readUntil separator limit source = .ok data after ∧
        Holds after (taken + (data.length + 1)) rest
  readUntil_short {source : σ} {taken limit : Nat} {separator : UInt8} {data : Bytes} :
    Holds source taken data → separator ∉ data → data.length ≤ limit →
      (Source.readUntil separator limit).Starves source
  readRemaining_within {source : σ} {taken limit : Nat} {data : Bytes} :
    Holds source taken data → data.length ≤ limit → ∃ after,
      Source.readRemaining limit source = .ok data after ∧ Holds after (taken + data.length) []

namespace Unread

variable {unread : Bytes}

theorem exactly_of_short {n : Nat} (short : unread.length < n) :
    exactly unread n = .error (.insufficient n unread.length) := by
  unfold exactly
  rw [List.take_of_length_le (by omega)]
  exact if_neg (by omega)

theorem upTo_of_absent {separator : UInt8} (absent : separator ∉ unread) (limit : Nat) :
    upTo unread separator limit = .error (.insufficient (unread.length + 1) unread.length) := by
  have passes : ∀ byte ∈ unread, (byte != separator) = true := by
    intro byte member
    exact bne_iff_ne.2 fun same => absent (same ▸ member)
  unfold upTo
  rw [List.span_eq_takeWhile_dropWhile, List.dropWhile_eq_nil_iff.2 passes]

end Unread

namespace Cursor

theorem advance_eq_error {split : Bytes → Except Fault (Bytes × Bytes)} {done unread : Bytes}
    {fault : Fault} (refused : split unread = .error fault) :
    advance split (between done unread) = .error fault (between done unread) := by
  unfold advance
  rw [unread_between, refused]

theorem holds_of_takes {α : Type} {act : Transfer Cursor α} {front rest : Bytes} {a : α}
    (takes : Takes act front rest a) {cursor : Cursor} {taken : Nat}
    (holds : ∃ done, done.length = taken ∧ cursor = between done (front ++ rest)) :
    ∃ after, act cursor = .ok a after ∧
      ∃ done, done.length = taken + front.length ∧ after = between done rest := by
  obtain ⟨done, rfl, rfl⟩ := holds
  exact ⟨_, takes done, done ++ front, List.length_append, rfl⟩

instance : Supply Cursor where
  Holds cursor taken data := ∃ done, done.length = taken ∧ cursor = between done data
  readFixed_enough holds := holds_of_takes (takes_readFixed_iff.2 ⟨rfl, rfl⟩) holds
  readFixed_short := fun ⟨done, _, same⟩ short => by
    rw [same, readFixed_eq]
    exact ⟨_, _, _, advance_eq_error (Unread.exactly_of_short short)⟩
  readUntil_found {cursor taken limit separator data rest} holds absent within := by
    rw [List.append_cons] at holds
    have found := holds_of_takes (takes_readUntil_iff.2 ⟨rfl, absent, within⟩) holds
    rwa [List.length_append, List.length_singleton] at found
  readUntil_short := fun ⟨done, _, same⟩ absent _ => by
    rw [same]
    exact ⟨_, _, _, advance_eq_error (Unread.upTo_of_absent absent _)⟩
  readRemaining_within {cursor taken limit data} holds within := by
    rw [← List.append_nil data] at holds
    exact holds_of_takes (takes_readRemaining_iff.2 ⟨rfl, rfl, within⟩) holds

theorem holds_ofBytes (data : Bytes) : Supply.Holds (ofBytes data) 0 data :=
  ⟨[], rfl, rfl⟩

end Cursor

namespace Bytes

theorem readFront_eq_ok {split : Bytes → Except Fault (Bytes × Bytes)} {unread data rest : Bytes}
    (found : split unread = .ok (data, rest)) : readFront split unread = .ok data rest := by
  unfold readFront
  rw [found]

theorem readFront_eq_error {split : Bytes → Except Fault (Bytes × Bytes)} {unread : Bytes}
    {fault : Fault} (refused : split unread = .error fault) :
    readFront split unread = .error fault unread := by
  unfold readFront
  rw [refused]

theorem readFixed_eq (n : Nat) :
    (Span.readFixed n : Transfer Bytes Bytes) = Source.readExactly n := by
  funext unread
  change (if unread.length < n then throw (.insufficient n unread.length)
    else Source.readExactly n : Transfer Bytes Bytes) unread = readFront (Unread.exactly · n) unread
  split
  next short => exact (readFront_eq_error (Unread.exactly_of_short short)).symm
  next => rfl

instance : Supply Bytes where
  Holds unread _ data := unread = data
  readFixed_enough {unread taken data rest} holds := by
    subst holds
    rw [readFixed_eq]
    exact ⟨rest, readFront_eq_ok (Unread.exactly_eq_ok.2 ⟨rfl, rfl⟩), rfl⟩
  readFixed_short {unread taken n data} holds short := by
    subst holds
    rw [readFixed_eq]
    exact ⟨_, _, _, readFront_eq_error (Unread.exactly_of_short short)⟩
  readUntil_found {unread taken limit separator data rest} holds absent within := by
    subst holds
    exact ⟨rest, readFront_eq_ok (Unread.upTo_eq_ok.2 ⟨rfl, absent, within⟩), rfl⟩
  readUntil_short {unread taken limit separator data} holds absent _ := by
    subst holds
    exact ⟨_, _, _, readFront_eq_error (Unread.upTo_of_absent absent limit)⟩
  readRemaining_within {unread taken limit data} holds within := by
    subst holds
    exact ⟨[], readFront_eq_ok (Unread.everything_eq_ok.2 ⟨rfl, rfl, within⟩), rfl⟩

theorem holds_self (data : Bytes) : Supply.Holds data 0 data :=
  rfl

end Bytes

namespace Alike

open Cursor Supply

variable {σ α : Type} [Source σ] [Supply σ] {openEnded : Prop} {act : Transfer Cursor α}
  {act' : Transfer σ α} {front rest : Bytes} {a : α}

/-- What a cursor takes off the front of its bytes is taken off the front of any supply. Only where
all that is left may be taken does it matter what follows. -/
theorem run_of_takes (alike : Alike openEnded act act') (takes : Takes act front rest a)
    {other : Bytes} (same : openEnded → other = rest) {source : σ} {taken : Nat}
    (holds : Holds source taken (front ++ other)) :
    ∃ after, act' source = .ok a after ∧ Holds after (taken + front.length) other := by
  induction alike generalizing front rest other source taken with
  | pure b =>
    obtain ⟨rfl, rfl⟩ := takes_pure_iff.1 takes
    exact ⟨source, rfl, holds⟩
  | throw fault => exact (Span.takes_throw_iff.1 takes).elim
  | readFixed n =>
    obtain ⟨rfl, rfl⟩ := takes_readFixed_iff.1 takes
    exact readFixed_enough holds
  | readUntil separator limit =>
    obtain ⟨rfl, absent, within⟩ := takes_readUntil_iff.1 takes
    rw [← List.append_cons] at holds
    obtain ⟨after, ran, left⟩ := readUntil_found holds absent within
    rw [List.length_append, List.length_singleton]
    exact ⟨after, ran, left⟩
  | readRemaining allowed limit =>
    obtain ⟨rfl, rfl, within⟩ := takes_readRemaining_iff.1 takes
    rw [same allowed] at holds ⊢
    rw [List.append_nil] at holds
    exact readRemaining_within holds within
  | bind first second before after =>
    obtain ⟨b, former, latter, rfl, takesFirst, takesSecond⟩ :=
      (takes_bind_iff first.forward fun b => (second b).forward).1 takes
    rw [List.append_assoc] at holds
    obtain ⟨mid, ranFirst, left⟩ :=
      before takesFirst (fun allowed => by rw [same allowed]) holds
    obtain ⟨last, ranSecond, left⟩ := after b takesSecond same left
    rw [Nat.add_assoc, ← List.length_append] at left
    exact ⟨last, (Transfer.bind_of_ok ranFirst).trans ranSecond, left⟩

theorem whole_or_cut {former latter cut lost : Bytes} (whole : former ++ latter = cut ++ lost) :
    (∃ kept, cut = former ++ kept ∧ latter = kept ++ lost) ∨
      ∃ missing, missing ≠ [] ∧ former = cut ++ missing := by
  rcases List.append_eq_append_iff.1 whole with ⟨kept, first, second⟩ | ⟨missing, first, second⟩
  · exact .inl ⟨kept, first, second⟩
  · by_cases seam : missing = []
    · subst seam
      exact .inl ⟨[], by rw [first, List.append_nil, List.append_nil], second.symm⟩
    · exact .inr ⟨missing, seam, first⟩

theorem starves_of_takes (alike : Alike False act act') (takes : Takes act front rest a)
    {cut lost : Bytes} (whole : front = cut ++ lost) (short : lost ≠ []) {source : σ} {taken : Nat}
    (holds : Holds source taken cut) : act'.Starves source := by
  induction alike generalizing front rest cut lost source taken with
  | pure b =>
    obtain ⟨rfl, rfl⟩ := takes_pure_iff.1 takes
    exact absurd (List.append_eq_nil_iff.1 whole.symm).2 short
  | throw fault => exact (Span.takes_throw_iff.1 takes).elim
  | readFixed n =>
    obtain ⟨rfl, rfl⟩ := takes_readFixed_iff.1 takes
    apply readFixed_short holds
    have missing := List.length_pos_iff.2 short
    rw [whole, List.length_append]
    omega
  | readUntil separator limit =>
    obtain ⟨rfl, absent, within⟩ := takes_readUntil_iff.1 takes
    have before : cut <+: a := by
      rcases List.prefix_concat_iff.1 ⟨lost, whole.symm⟩ with rfl | before
      · exact absurd (List.append_right_eq_self.1 whole.symm) short
      · exact before
    exact readUntil_short holds (fun present => absent (before.subset present))
      (before.length_le.trans within)
  | readRemaining allowed limit => exact allowed.elim
  | bind first second before after =>
    obtain ⟨b, former, latter, rfl, takesFirst, takesSecond⟩ :=
      (takes_bind_iff first.forward fun b => (second b).forward).1 takes
    rcases whole_or_cut whole with ⟨kept, rfl, split⟩ | ⟨missing, short, split⟩
    · obtain ⟨mid, ran, left⟩ := first.run_of_takes takesFirst False.elim holds
      exact .of_bind ran (after b takesSecond split short left)
    · exact (before takesFirst split short holds).bind

end Alike

end Wireform
