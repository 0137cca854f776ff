import Mathlib.Data.List.TakeDrop
import Mathlib.Data.List.TakeWhile
import Wireform.Proofs.BigEndian
import Wireform.Proofs.Transfer
import Wireform.Span
import Wireform.Stream.Cursor

/-!
What reads take off the front of bytes in memory. A read that answers has taken some bytes there;
what lies behind them, and how much has been read before, makes no difference to it. A span is read
off exactly the bytes that its data is framed in.
-/

namespace Wireform

namespace Cursor

variable {α β : Type}

/-- A cursor between what has been read and what has not. -/
def between (done unread : Bytes) : Cursor :=
  ⟨done ++ unread, done.length⟩

theorem unread_between (done unread : Bytes) : (between done unread).unread = unread :=
  List.drop_left

theorem between_inj {done unread done' unread' : Bytes}
    (same : between done unread = between done' unread') : done = done' ∧ unread = unread' := by
  injection same with data position
  exact List.append_inj data position

/-- The action answers from the bytes in front and leaves the rest. -/
def Takes (act : Transfer Cursor α) (front rest : Bytes) (a : α) : Prop :=
  ∀ done, act (between done (front ++ rest)) = .ok a (between (done ++ front) rest)

/-- Wherever the action answers, it takes its answer from the bytes in front. -/
def Forward (act : Transfer Cursor α) : Prop :=
  ∀ done unread a after, act (between done unread) = .ok a after →
    ∃ front rest, unread = front ++ rest ∧ after = between (done ++ front) rest ∧
      Takes act front rest a

theorem takes_pure (a : α) (rest : Bytes) : Takes (pure a) [] rest a := by
  intro done
  rw [List.append_nil, List.nil_append]
  rfl

theorem takes_pure_iff {a b : α} {front rest : Bytes} :
    Takes (pure a) front rest b ↔ front = [] ∧ a = b := by
  apply Iff.intro
  · intro takes
    have ran := takes []
    cases front with
    | nil => cases ran; exact ⟨rfl, rfl⟩
    | cons byte front => cases ran
  · intro ⟨same, same'⟩
    subst same same'
    exact takes_pure a rest

theorem takes_bind {act : Transfer Cursor α} {next : α → Transfer Cursor β}
    {first second rest : Bytes} {a : α} {b : β} (before : Takes act first (second ++ rest) a)
    (after : Takes (next a) second rest b) : Takes (act >>= next) (first ++ second) rest b := by
  intro done
  have ran := before done
  rw [← List.append_assoc] at ran
  rw [Transfer.bind_of_ok ran, after, List.append_assoc]

theorem forward_pure (a : α) : Forward (pure a) := by
  intro done unread b after ran
  cases ran
  exact ⟨[], unread, rfl, by rw [List.append_nil], takes_pure a unread⟩

theorem forward_throw (fault : Fault) : Forward (throw fault : Transfer Cursor α) :=
  fun _ _ _ _ ran => nomatch ran

theorem forward_ofExcept (answer : Except Fault α) : Forward (Transfer.ofExcept answer) := by
  cases answer with
  | ok a => exact forward_pure a
  | error fault => exact forward_throw fault

theorem forward_bind {act : Transfer Cursor α} {next : α → Transfer Cursor β}
    (before : Forward act) (after : ∀ a, Forward (next a)) : Forward (act >>= next) := by
  intro done unread b left ran
  obtain ⟨a, mid, first, second⟩ := Transfer.bind_eq_ok.1 ran
  obtain ⟨front, rest, rfl, rfl, takes⟩ := before done unread a mid first
  obtain ⟨more, rest, rfl, rfl, takesMore⟩ := after a _ _ b left second
  exact ⟨front ++ more, rest, by rw [List.append_assoc], by rw [List.append_assoc],
    takes_bind takes takesMore⟩

theorem takes_bind_iff {act : Transfer Cursor α} {next : α → Transfer Cursor β}
    (before : Forward act) (after : ∀ a, Forward (next a)) {front rest : Bytes} {b : β} :
    Takes (act >>= next) front rest b ↔ ∃ a first second, front = first ++ second ∧
      Takes act first (second ++ rest) a ∧ Takes (next a) second rest b := by
  apply Iff.intro
  · intro takes
    obtain ⟨a, mid, ran, ranNext⟩ := Transfer.bind_eq_ok.1 (takes [])
    obtain ⟨first, unread, split, rfl, takesFirst⟩ := before [] _ a mid ran
    obtain ⟨second, left, rfl, same, takesSecond⟩ := after a _ _ b _ ranNext
    obtain ⟨rfl, rfl⟩ := between_inj same
    exact ⟨a, first, second, rfl, takesFirst, takesSecond⟩
  · intro ⟨a, first, second, same, takesFirst, takesSecond⟩
    subst same
    exact takes_bind takesFirst takesSecond

theorem takes_bind_pure_iff {act : Transfer Cursor α} {f : α → β} (before : Forward act)
    {front rest : Bytes} {b : β} :
    Takes (act >>= fun a => return f a) front rest b ↔ ∃ a, Takes act front rest a ∧ f a = b := by
  rw [takes_bind_iff before fun a => forward_pure (f a)]
  simp only [takes_pure_iff]
  apply Iff.intro
  · intro ⟨a, first, second, whole, takes, empty, same⟩
    subst whole empty
    rw [List.append_nil]
    exact ⟨a, takes, same⟩
  · intro ⟨a, takes, same⟩
    exact ⟨a, front, [], (List.append_nil front).symm, takes, rfl, same⟩

theorem takes_ofExcept_bind_iff {answer : Except Fault α} {next : α → Transfer Cursor β}
    {front rest : Bytes} {b : β} :
    Takes (Transfer.ofExcept answer >>= next) front rest b ↔
      ∃ a, answer = .ok a ∧ Takes (next a) front rest b := by
  cases answer with
  | ok a => simp only [Transfer.ofExcept_ok, pure_bind, Except.ok.injEq, exists_eq_left']
  | error fault =>
    apply Iff.intro
    · intro takes
      cases takes []
    · intro ⟨a, impossible, _⟩
      cases impossible

end Cursor

namespace Unread

variable {unread data rest : Bytes}

theorem exactly_eq_ok {n : Nat} :
    exactly unread n = .ok (data, rest) ↔ unread = data ++ rest ∧ data.length = n := by
  unfold exactly
  apply Iff.intro
  · intro split
    dsimp only at split
    split at split
    next enough =>
      cases split
      exact ⟨(List.take_append_drop n unread).symm, enough⟩
    next => cases split
  · intro ⟨same, same'⟩
    subst same same'
    simp only [List.take_left, List.drop_left, if_true]

theorem upTo_eq_ok {separator : UInt8} {limit : Nat} :
    upTo unread separator limit = .ok (data, rest) ↔
      unread = data ++ separator :: rest ∧ separator ∉ data ∧ data.length ≤ limit := by
  unfold upTo
  rw [List.span_eq_takeWhile_dropWhile]
  apply Iff.intro
  · intro split
    have whole : unread.takeWhile (· != separator) ++ unread.dropWhile (· != separator) = unread :=
      List.takeWhile_append_dropWhile
    dsimp only at split
    split at split
    next => cases split
    next byte left found =>
      split at split
      next => cases split
      next within =>
        cases split
        have stops := List.head_dropWhile_not (· != separator) (found ▸ List.cons_ne_nil byte rest)
        simp only [found, List.head_cons, bne_eq_false_iff_eq] at stops
        rw [found, stops] at whole
        refine ⟨whole.symm, fun present => ?_, by omega⟩
        have passed := List.mem_takeWhile_imp present
        simp only [bne_self_eq_false, Bool.false_eq_true] at passed
  · intro ⟨same, absent, within⟩
    subst same
    have passes : ∀ byte ∈ data, (byte != separator) = true := by
      intro byte member
      exact bne_iff_ne.2 fun same => absent (same ▸ member)
    have stops : ¬ (separator != separator) = true := by rw [bne_self_eq_false]; decide
    rw [List.takeWhile_append_of_pos passes, List.dropWhile_append_of_pos passes,
      List.takeWhile_cons_of_neg (p := (· != separator)) stops,
      List.dropWhile_cons_of_neg (p := (· != separator)) stops, List.append_nil]
    dsimp only
    rw [if_neg (by omega)]

theorem everything_eq_ok {limit : Nat} :
    everything unread limit = .ok (data, rest) ↔
      unread = data ∧ rest = [] ∧ data.length ≤ limit := by
  unfold everything
  apply Iff.intro
  · intro split
    split at split
    next => cases split
    next within => cases split; exact ⟨rfl, rfl, by omega⟩
  · intro ⟨same, same', within⟩
    subst same same'
    rw [if_neg (by omega)]

theorem suffix_of_exactly {n : Nat} (found : exactly unread n = .ok (data, rest)) :
    rest <:+ unread := by
  obtain ⟨rfl, -⟩ := exactly_eq_ok.1 found
  exact List.suffix_append data rest

theorem suffix_of_upTo {separator : UInt8} {limit : Nat}
    (found : upTo unread separator limit = .ok (data, rest)) : rest <:+ unread := by
  obtain ⟨rfl, -, -⟩ := upTo_eq_ok.1 found
  exact (List.suffix_cons separator rest).trans (List.suffix_append data _)

theorem suffix_of_everything {limit : Nat} (found : everything unread limit = .ok (data, rest)) :
    rest <:+ unread := by
  obtain ⟨-, rfl, -⟩ := everything_eq_ok.1 found
  exact List.nil_suffix

end Unread

namespace Cursor

variable {split : Bytes → Except Fault (Bytes × Bytes)}

theorem advance_eq_ok {done unread data : Bytes} {after : Cursor} :
    advance split (between done unread) = .ok data after ↔ ∃ rest,
      split unread = .ok (data, rest) ∧
        after = ⟨done ++ unread, (done ++ unread).length - rest.length⟩ := by
  unfold advance
  rw [unread_between]
  apply Iff.intro
  · intro ran
    split at ran
    next front rest found => cases ran; exact ⟨rest, found, rfl⟩
    next => cases ran
  · intro ⟨rest, found, same⟩
    subst same
    simp only [found]
    rfl

theorem stop_eq (done front rest : Bytes) :
    (⟨done ++ (front ++ rest), (done ++ (front ++ rest)).length - rest.length⟩ : Cursor) =
      between (done ++ front) rest := by
  unfold between
  rw [← List.append_assoc, List.length_append, Nat.add_sub_cancel]

theorem takes_advance {front rest data : Bytes} (found : split (front ++ rest) = .ok (data, rest)) :
    Takes (advance split) front rest data := by
  intro done
  exact advance_eq_ok.2 ⟨rest, found, (stop_eq done front rest).symm⟩

theorem forward_advance
    (suffix : ∀ unread data rest, split unread = .ok (data, rest) → rest <:+ unread) :
    Forward (advance split) := by
  intro done unread data after ran
  obtain ⟨rest, found, rfl⟩ := advance_eq_ok.1 ran
  obtain ⟨front, rfl⟩ := suffix unread data rest found
  exact ⟨front, rest, rfl, stop_eq done front rest, takes_advance found⟩

theorem takes_advance_iff
    (suffix : ∀ unread data rest, split unread = .ok (data, rest) → rest <:+ unread)
    {front rest data : Bytes} :
    Takes (advance split) front rest data ↔ split (front ++ rest) = .ok (data, rest) := by
  apply Iff.intro
  · intro takes
    obtain ⟨left, found, same⟩ := advance_eq_ok.1 (takes [])
    obtain ⟨taken, whole⟩ := suffix _ _ _ found
    rw [← whole, stop_eq] at same
    obtain ⟨-, rfl⟩ := between_inj same
    exact found
  · exact takes_advance

section

variable {front rest data : Bytes}

theorem readFixed_eq (n : Nat) :
    (Span.readFixed n : Transfer Cursor Bytes) = Source.readExactly n := by
  funext cursor
  have short : cursor.unread.length = cursor.data.length - cursor.position := List.length_drop
  change (if cursor.data.length - cursor.position < n then
    throw (.insufficient n (cursor.data.length - cursor.position)) else Source.readExactly n :
    Transfer Cursor Bytes) cursor = advance (Unread.exactly · n) cursor
  split
  next few =>
    have refused : Unread.exactly cursor.unread n =
        .error (.insufficient n (cursor.data.length - cursor.position)) := by
      have taken : cursor.unread.take n = cursor.unread := List.take_of_length_le (by omega)
      unfold Unread.exactly
      simp only [taken, short]
      exact if_neg (by omega)
    unfold advance
    simp only [refused]
    rfl
  next => rfl

theorem forward_readFixed (n : Nat) : Forward (Span.readFixed n) := by
  rw [readFixed_eq]
  exact forward_advance fun _ _ _ => Unread.suffix_of_exactly

theorem takes_readFixed_iff {n : Nat} :
    Takes (Span.readFixed n) front rest data ↔ front = data ∧ data.length = n := by
  rw [readFixed_eq]
  refine (takes_advance_iff fun _ _ _ => Unread.suffix_of_exactly).trans ?_
  rw [Unread.exactly_eq_ok, List.append_left_inj]

theorem forward_readUntil (separator : UInt8) (limit : Nat) :
    Forward (Source.readUntil separator limit) :=
  forward_advance fun _ _ _ => Unread.suffix_of_upTo

theorem takes_readUntil_iff {separator : UInt8} {limit : Nat} :
    Takes (Source.readUntil separator limit) front rest data ↔
      front = data ++ [separator] ∧ separator ∉ data ∧ data.length ≤ limit := by
  refine (takes_advance_iff fun _ _ _ => Unread.suffix_of_upTo).trans ?_
  rw [Unread.upTo_eq_ok, List.append_cons, List.append_left_inj]

theorem forward_readRemaining (limit : Nat) : Forward (Source.readRemaining limit) :=
  forward_advance fun _ _ _ => Unread.suffix_of_everything

theorem takes_readRemaining_iff {limit : Nat} :
    Takes (Source.readRemaining limit) front rest data ↔
      front = data ∧ rest = [] ∧ data.length ≤ limit := by
  refine (takes_advance_iff fun _ _ _ => Unread.suffix_of_everything).trans ?_
  rw [Unread.everything_eq_ok]
  apply Iff.intro
  · intro ⟨whole, same, within⟩
    subst same
    exact ⟨by rw [← whole, List.append_nil], rfl, within⟩
  · intro ⟨same, same', within⟩
    subst same same'
    exact ⟨List.append_nil front, rfl, within⟩

end

end Cursor

namespace Span

open Cursor

theorem fixedLength_eq_ok {field : Descriptor} {n : Nat} :
    fixedLength field = .ok n ↔ field.length = some n := by
  unfold fixedLength
  cases field.length <;> simp

theorem checkCount_eq_ok {place : Place} {width : Nat} :
    checkCount place width = .ok () ↔ width ∈ LengthMode.countWidths := by
  unfold checkCount
  split <;> simp_all

theorem narrow_of_checkCount {place : Place} {width : Nat}
    (checked : checkCount place width = .ok ()) : width ≤ 8 := by
  have member := checkCount_eq_ok.1 checked
  simp only [LengthMode.countWidths, List.mem_cons, List.not_mem_nil, or_false] at member
  omega

theorem checkLimit_eq_ok {limit : Nat} {field : Descriptor} {data : Bytes} :
    checkLimit limit field data = .ok () ↔ data.length ≤ limit := by
  unfold checkLimit
  split
  next exceeds => simp; omega
  next fits => simp; omega

theorem forward_read (limit : Nat) (field : Descriptor) : Forward (read limit field) := by
  unfold read
  cases field.mode with
  | fixed => exact forward_bind (forward_ofExcept _) forward_readFixed
  | counted width =>
    refine forward_bind (forward_ofExcept _) fun _ => ?_
    refine forward_bind (forward_readFixed width) fun count => ?_
    dsimp only
    split
    · exact forward_throw _
    · exact forward_readFixed _
  | terminated separator => exact forward_readUntil separator limit
  | remaining => exact forward_readRemaining limit

/-- The bytes that the data of a span stands in. -/
def Framed (limit : Nat) (field : Descriptor) (data front : Bytes) : Prop :=
  match field.mode with
  | .fixed => front = data
  | .counted width =>
    checkCount (.field field.name) width = .ok () ∧ data.length ≤ limit ∧
      data.length < 256 ^ width ∧ front = BigEndian.toBytes width (UInt64.ofNat data.length) ++ data
  | .terminated separator => front = data ++ [separator] ∧ separator ∉ data ∧ data.length ≤ limit
  | .remaining => front = data ∧ data.length ≤ limit

/-- What must be known of a span besides: one of declared length has that length, and nothing
follows one that takes all there is. -/
def Stands (field : Descriptor) (data rest : Bytes) : Prop :=
  match field.mode with
  | .fixed => field.length = some data.length
  | .counted _ | .terminated _ => True
  | .remaining => rest = []

theorem map_flatten_frame_iff {limit : Nat} {field : Descriptor} {data front : Bytes} :
    (frame limit field data).map List.flatten = .ok front ↔ Framed limit field data front := by
  rw [Except.map_eq_ok]
  unfold frame Framed
  cases field.mode with
  | fixed => simp [eq_comm]
  | counted width =>
    apply Iff.intro
    · intro ⟨pieces, framed, same⟩
      subst same
      obtain ⟨_, checked, framed⟩ := Except.bind_eq_ok.1 framed
      split at framed
      next => cases framed
      next fits =>
        cases framed
        rw [not_or, Nat.pow_eq] at fits
        exact ⟨checked, by omega, by omega, by simp⟩
    · intro ⟨checked, within, spelled, same⟩
      subst same
      refine ⟨_, Except.bind_eq_ok.2 ⟨(), checked, if_neg ?_⟩, by simp⟩
      rw [not_or, Nat.pow_eq]
      omega
  | terminated separator =>
    apply Iff.intro
    · intro ⟨pieces, framed, same⟩
      subst same
      obtain ⟨_, checked, framed⟩ := Except.bind_eq_ok.1 framed
      split at framed
      next => cases framed
      next absent =>
        cases framed
        rw [List.contains_iff_mem] at absent
        exact ⟨by simp, absent, checkLimit_eq_ok.1 checked⟩
    · intro ⟨same, absent, within⟩
      subst same
      refine ⟨_, Except.bind_eq_ok.2 ⟨(), checkLimit_eq_ok.2 within, if_neg ?_⟩, by simp⟩
      rwa [List.contains_iff_mem]
  | remaining =>
    apply Iff.intro
    · intro ⟨pieces, framed, same⟩
      subst same
      obtain ⟨_, checked, framed⟩ := Except.bind_eq_ok.1 framed
      cases framed
      exact ⟨by simp, checkLimit_eq_ok.1 checked⟩
    · intro ⟨same, within⟩
      subst same
      exact ⟨_, Except.bind_eq_ok.2 ⟨(), checkLimit_eq_ok.2 within, rfl⟩, by simp⟩

section

variable {limit : Nat} {front rest data : Bytes}

theorem takes_throw_iff {fault : Fault} {α : Type} {a : α} :
    Takes (throw fault : Transfer Cursor α) front rest a ↔ False :=
  ⟨fun takes => (nomatch takes []), False.elim⟩

theorem toNat_count {n width : Nat} (narrow : width ≤ 8) (spelled : n < 256 ^ width) :
    (BigEndian.ofBytes (BigEndian.toBytes width (UInt64.ofNat n))).toNat = n := by
  have room := BigEndian.pow_le_word narrow
  have fits : n % 2 ^ 64 = n := Nat.mod_eq_of_lt (by omega)
  rw [BigEndian.toNat_ofBytes_toBytes, UInt64.toNat_ofNat', fits, Nat.mod_eq_of_lt spelled]

theorem takes_counted_iff {place : Place} {width : Nat} (fault : Nat → Fault) :
    Takes (do
        Transfer.ofExcept (checkCount place width)
        let length := (BigEndian.ofBytes (← readFixed width)).toNat
        if limit < length then throw (fault length) else readFixed length) front rest data ↔
      checkCount place width = .ok () ∧ data.length ≤ limit ∧ data.length < 256 ^ width ∧
        front = BigEndian.toBytes width (UInt64.ofNat data.length) ++ data := by
  have forward (count : Bytes) : Forward (
      let length := (BigEndian.ofBytes count).toNat
      if limit < length then throw (fault length) else readFixed length :
        Transfer Cursor Bytes) := by
    dsimp only
    split
    · exact forward_throw _
    · exact forward_readFixed _
  rw [takes_ofExcept_bind_iff]
  apply Iff.intro
  · intro ⟨_, checked, takes⟩
    have narrow := narrow_of_checkCount checked
    obtain ⟨count, first, second, rfl, counted, counting⟩ :=
      (takes_bind_iff (forward_readFixed width) forward).1 takes
    obtain ⟨rfl, rfl⟩ := takes_readFixed_iff.1 counted
    dsimp only at counting
    split at counting
    next => exact (takes_throw_iff.1 counting).elim
    next within =>
      obtain ⟨rfl, length⟩ := takes_readFixed_iff.1 counting
      have spelled := BigEndian.toNat_ofBytes_lt narrow
      refine ⟨checked, by omega, by omega, ?_⟩
      rw [length, UInt64.ofNat_toNat, BigEndian.toBytes_ofBytes narrow]
  · intro ⟨checked, within, spelled, same⟩
    subst same
    have narrow := narrow_of_checkCount checked
    refine ⟨(), checked, (takes_bind_iff (forward_readFixed width) forward).2 ?_⟩
    refine ⟨_, _, _, rfl, takes_readFixed_iff.2 ⟨rfl, BigEndian.length_toBytes _ _⟩, ?_⟩
    dsimp only
    rw [toNat_count narrow spelled, if_neg (by omega)]
    exact takes_readFixed_iff.2 ⟨rfl, rfl⟩

/-- A span is read off exactly the bytes that its data stands in. -/
theorem takes_read_iff {field : Descriptor} :
    Takes (read limit field) front rest data ↔
      Framed limit field data front ∧ Stands field data rest := by
  unfold read Framed Stands
  cases field.mode with
  | fixed =>
    simp only [takes_ofExcept_bind_iff, fixedLength_eq_ok, takes_readFixed_iff]
    apply Iff.intro
    · intro ⟨n, declared, same, same'⟩
      subst same same'
      exact ⟨rfl, declared⟩
    · intro ⟨same, declared⟩
      subst same
      exact ⟨front.length, declared, rfl, rfl⟩
  | counted width =>
    refine Iff.trans ?_ (Iff.of_eq (and_true _)).symm
    exact takes_counted_iff fun length => .length (.announced field.name length limit)
  | terminated separator =>
    refine Iff.trans ?_ (Iff.of_eq (and_true _)).symm
    exact takes_readUntil_iff
  | remaining =>
    rw [takes_readRemaining_iff]
    apply Iff.intro
    · intro ⟨whole, last, within⟩
      exact ⟨⟨whole, within⟩, last⟩
    · intro ⟨⟨whole, within⟩, last⟩
      exact ⟨whole, last, within⟩

end

end Span

end Wireform
