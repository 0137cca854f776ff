import Wireform.Proofs.Acceptance
import Wireform.Proofs.Canonical
import Wireform.Proofs.RoundTrip
import Wireform.Proofs.Settled
import Wireform.Proofs.Truncation

/-!
What the limit on spans decides. A span that has no declared length holds at most so many bytes,
whether it is written or read, and nothing else depends on the limit. So a record that passes under
one limit passes under every higher one and comes to the same, and under a lower one it passes just
if its longest such span does.
-/

namespace Wireform

open Cursor

/-- The same codecs, and a limit that is no lower. -/
structure Walk.Setting.Below (a b : Walk.Setting) : Prop where
  registry : a.registry = b.registry
  limit : a.settings.maxVariableLength ≤ b.settings.maxVariableLength

namespace Span

variable {limit raised : Nat} {field : Descriptor} {data : Bytes}

/-- The limit decides whether data is framed, and not what it is framed in. -/
theorem frame_eq_ok_iff (higher : limit ≤ raised) {pieces : List Bytes} :
    frame limit field data = .ok pieces ↔
      frame raised field data = .ok pieces ∧ (field.mode ≠ .fixed → data.length ≤ limit) := by
  unfold frame
  cases field.mode with
  | fixed => simp
  | counted width =>
    simp only [Except.check_bind_eq_ok, and_assoc]
    refine and_congr_right fun _ => ?_
    by_cases within : data.length ≤ limit
    · have low : ¬ limit < data.length := by omega
      have high : ¬ raised < data.length := by omega
      by_cases spelled : 256 ^ width ≤ data.length <;> simp [low, high, within, spelled]
    · have above : limit < data.length := by omega
      simp [above, within]
  | terminated separator =>
    simp only [Except.check_bind_eq_ok, checkLimit_eq_ok]
    grind
  | remaining =>
    simp only [Except.check_bind_eq_ok, checkLimit_eq_ok]
    grind

theorem framed_iff (higher : limit ≤ raised) {front : Bytes} :
    Framed limit field data front ↔
      Framed raised field data front ∧ (field.mode ≠ .fixed → data.length ≤ limit) := by
  unfold Framed
  cases field.mode with
  | fixed => simp
  | counted width => grind
  | terminated separator => grind
  | remaining => grind

theorem takes_read_raised_iff (higher : limit ≤ raised) {front rest : Bytes} :
    Takes (read limit field) front rest data ↔
      Takes (read raised field) front rest data ∧ (field.mode ≠ .fixed → data.length ≤ limit) := by
  rw [takes_read_iff, takes_read_iff, framed_iff higher, and_right_comm]

end Span

namespace Codec

def wordPayload (codec : Codec) (width : Nat) (field : Descriptor) (value : Value) :
    Except Fault Bytes := do
  codec.checkNatural width field
  match value with
  | .uint n => .ok (BigEndian.toBytes width n)
  | other => .error (.unsupported (.content codec other.kind field.name))

/-- The data that stands for a value in the span of its field. -/
def payload (codec : Codec) (field : Descriptor) (value : Value) : Except Fault Bytes :=
  match codec with
  | byte => byte.wordPayload 1 field value
  | word => word.wordPayload 2 field value
  | dword => dword.wordPayload 4 field value
  | bytes =>
    match value with
    | .bytes data =>
      if field.mode = .fixed then (Span.fixedLength field).map (fillRight · data) else .ok data
    | other => .error (.unsupported (.content bytes other.kind field.name))
  | bcd => do
    let digits ← digitsOf field value
    let packed ← Digits.pack digits
    if field.mode = .fixed then
      let declared ← Span.fixedLength field
      if declared < packed.length then
        .error (.length (.digits field.name packed.length digits.length declared))
      else .ok (fillLeft declared packed)
    else .ok packed
  | string =>
    match value.content? with
    | some content => field.charset.encode content
    | none => .error (.unsupported (.content string value.kind field.name))

theorem fixed_of_checkNatural {codec : Codec} {width : Nat} {field : Descriptor}
    (checked : codec.checkNatural width field = .ok ()) : field.mode = .fixed := by
  unfold checkNatural at checked
  split at checked
  next fixed => exact fixed
  next => cases checked

theorem frameWord_eq_payload (codec : Codec) (width limit : Nat) (field : Descriptor)
    (value : Value) :
    codec.frameWord width field value =
      codec.wordPayload width field value >>= Span.frame limit field := by
  unfold frameWord wordPayload
  cases checked : codec.checkNatural width field with
  | error fault => rfl
  | ok passed =>
    cases value with
    | uint n =>
      have whole : Span.frame limit field (BigEndian.toBytes width n) =
          .ok [BigEndian.toBytes width n] := by
        unfold Span.frame
        rw [fixed_of_checkNatural checked]
      exact whole.symm
    | bytes _ | text _ | digits _ => rfl

theorem frame_eq_payload (codec : Codec) (limit : Nat) (field : Descriptor) (value : Value) :
    codec.frame limit field value = codec.payload field value >>= Span.frame limit field := by
  cases codec with
  | byte | word | dword => exact frameWord_eq_payload _ _ limit field value
  | bytes =>
    cases value with
    | bytes data =>
      simp only [frame, frameBytes, payload]
      split
      · cases Span.fixedLength field <;> rfl
      · rfl
    | uint _ | text _ | digits _ => rfl
  | bcd =>
    simp only [frame, frameDigits, payload, bind_assoc]
    congr 1
    funext digits
    congr 1
    funext packed
    split
    · rw [bind_assoc]
      congr 1
      funext declared
      split <;> rfl
    · rfl
  | string =>
    simp only [frame, frameText, payload]
    cases value.content? <;> rfl

theorem frame_raised_iff {limit raised : Nat} (higher : limit ≤ raised) {codec : Codec}
    {field : Descriptor} {value : Value} {pieces : List Bytes} :
    codec.frame limit field value = .ok pieces ↔ codec.frame raised field value = .ok pieces ∧
      ∃ data, codec.payload field value = .ok data ∧
        (field.mode ≠ .fixed → data.length ≤ limit) := by
  simp only [frame_eq_payload, Except.bind_eq_ok, Span.frame_eq_ok_iff higher]
  apply Iff.intro
  · intro ⟨data, found, framed, within⟩
    exact ⟨⟨data, found, framed⟩, data, found, within⟩
  · rintro ⟨⟨data, found, framed⟩, other, same, within⟩
    cases found.symm.trans same
    exact ⟨data, found, framed, within⟩

theorem takes_readSpan_raised_iff {limit raised : Nat} (higher : limit ≤ raised) {codec : Codec}
    {field : Descriptor} {front rest span : Bytes} :
    Takes (codec.readSpan limit field) front rest span ↔
      Takes (codec.readSpan raised field) front rest span ∧
        (field.mode ≠ .fixed → span.length ≤ limit) := by
  have integer (codec : Codec) (width : Nat) :
      Takes (codec.readWord width field) front rest span ↔
        Takes (codec.readWord width field) front rest span ∧
          (field.mode ≠ .fixed → span.length ≤ limit) := by
    refine ⟨fun takes => ⟨takes, fun undeclared => ?_⟩, And.left⟩
    exact absurd (fixed_of_checkNatural (takes_readWord_iff.1 takes).1) undeclared
  cases codec with
  | byte | word | dword => exact integer _ _
  | bytes | bcd | string => exact Span.takes_read_raised_iff higher

end Codec

namespace Leaf

/-- The span of the leaf has no declared length. -/
def Variable {κ : Type} : Except Fault (Leaf κ) → Prop
  | .ok (scalar descriptor _) => descriptor.mode ≠ .fixed
  | _ => False

instance {κ : Type} (step : Except Fault (Leaf κ)) : Decidable (Variable step) :=
  match step with
  | .ok (scalar descriptor _) => inferInstanceAs (Decidable (descriptor.mode ≠ .fixed))
  | .ok (packed ..) | .error _ => isFalse not_false

/-- If its span has no declared length, the leaf has at most so many bytes there. -/
def Within {κ : Type} (limit : Nat) (step : Except Fault (Leaf κ)) (data : Bytes) : Prop :=
  Variable step → data.length ≤ limit

instance {κ : Type} (limit : Nat) (step : Except Fault (Leaf κ)) (data : Bytes) :
    Decidable (Within limit step data) :=
  inferInstanceAs (Decidable (Variable step → data.length ≤ limit))

/-- The data that a leaf is written for, without what stands around it. -/
def payload (registry : Registry) : Leaf Held → Except Fault Bytes
  | scalar descriptor held => do
    (← registry.lookup descriptor.wire).payload descriptor held.value
  | packed record length bits => do
    Container.pack length (← words record bits)

variable {a b : Walk.Setting}

theorem frame_raised_iff (below : a.Below b) {leaf : Leaf Held} {pieces : List Bytes} :
    leaf.frame a = .ok pieces ↔ leaf.frame b = .ok pieces ∧
      ∃ data, leaf.payload b.registry = .ok data ∧
        Within a.settings.maxVariableLength (.ok leaf) data := by
  cases leaf with
  | scalar descriptor held =>
    simp only [frame, payload, below.registry, Except.bind_eq_ok,
      Codec.frame_raised_iff below.limit]
    apply Iff.intro
    · rintro ⟨codec, known, framed, data, found, within⟩
      exact ⟨⟨codec, known, framed⟩, data, ⟨codec, known, found⟩, within⟩
    · rintro ⟨⟨codec, known, framed⟩, data, ⟨other, known', found⟩, within⟩
      cases known.symm.trans known'
      exact ⟨codec, known, framed, data, found, within⟩
  | packed record length bits =>
    refine ⟨fun framed => ⟨framed, ?_⟩, And.left⟩
    obtain ⟨entries, found, framed⟩ := Except.bind_eq_ok.1 framed
    obtain ⟨container, packed, -⟩ := Except.bind_eq_ok.1 framed
    exact ⟨container, Except.bind_eq_ok.2 ⟨entries, found, packed⟩, False.elim⟩

theorem encode_raised_iff {κ : Type} [Sink κ] (below : a.Below b) {leaf : Leaf Held}
    {sink after : κ} {n : Nat} :
    leaf.encode a sink = .ok n after ↔ leaf.encode b sink = .ok n after ∧
      ∃ data, leaf.payload b.registry = .ok data ∧
        Within a.settings.maxVariableLength (.ok leaf) data := by
  simp only [encode_eq_write, Transfer.bind_eq_ok, Transfer.ofExcept_eq_ok,
    frame_raised_iff below]
  apply Iff.intro
  · rintro ⟨pieces, mid, ⟨⟨framed, within⟩, start⟩, wrote⟩
    exact ⟨⟨pieces, mid, ⟨framed, start⟩, wrote⟩, within⟩
  · rintro ⟨⟨pieces, mid, ⟨framed, start⟩, wrote⟩, within⟩
    exact ⟨pieces, mid, ⟨⟨framed, within⟩, start⟩, wrote⟩

def payloads (registry : Registry) (steps : List (Except Fault (Leaf Held))) :
    Except Fault (List Bytes) :=
  steps.mapM (· >>= payload registry)

theorem payloads_cons_iff {registry : Registry} {step : Except Fault (Leaf Held)}
    {steps : List (Except Fault (Leaf Held))} {limit : Nat} :
    (∃ spans, payloads registry (step :: steps) = .ok spans ∧
        List.Forall₂ (Within limit) (step :: steps) spans) ↔
      (∃ data, (step >>= payload registry) = .ok data ∧ Within limit step data) ∧
        ∃ spans, payloads registry steps = .ok spans ∧ List.Forall₂ (Within limit) steps spans := by
  simp only [payloads, Except.mapM_eq_ok]
  apply Iff.intro
  · rintro ⟨_, _ | ⟨first, others⟩, _ | ⟨within, further⟩⟩
    exact ⟨⟨_, first, within⟩, _, others, further⟩
  · intro ⟨⟨data, first, within⟩, spans, others, further⟩
    exact ⟨data :: spans, .cons first others, .cons within further⟩

theorem encodeAll_raised_iff {κ : Type} [Sink κ] (below : a.Below b)
    {steps : List (Except Fault (Leaf Held))} {sink after : κ} {n : Nat} :
    encodeAll a steps sink = .ok n after ↔ encodeAll b steps sink = .ok n after ∧
      ∃ spans, payloads b.registry steps = .ok spans ∧
        List.Forall₂ (Within a.settings.maxVariableLength) steps spans := by
  induction steps generalizing sink after n with
  | nil => exact ⟨fun ran => ⟨ran, [], rfl, .nil⟩, And.left⟩
  | cons step steps ih =>
    rw [payloads_cons_iff]
    cases step with
    | error fault => exact ⟨nofun, fun ran => nomatch ran.1⟩
    | ok leaf =>
      simp only [encodeAll, Transfer.ofExcept_ok, pure_bind, Transfer.bind_eq_ok, ih,
        encode_raised_iff below]
      apply Iff.intro
      · rintro ⟨first, mid, ⟨wrote, within⟩, others, last, ⟨following, further⟩, total⟩
        exact ⟨⟨first, mid, wrote, others, last, following, total⟩, within, further⟩
      · rintro ⟨⟨first, mid, wrote, others, last, following, total⟩, within, further⟩
        exact ⟨first, mid, ⟨wrote, within⟩, others, last, ⟨following, further⟩, total⟩

theorem takes_readSpan_raised_iff (below : a.Below b) {leaf : Leaf FieldType}
    {front rest span : Bytes} :
    Takes (leaf.readSpan a) front rest span ↔ Takes (leaf.readSpan b) front rest span ∧
      Within a.settings.maxVariableLength (.ok leaf) span := by
  cases leaf with
  | scalar descriptor type =>
    simp only [readSpan, below.registry, takes_ofExcept_bind_iff,
      Codec.takes_readSpan_raised_iff below.limit]
    apply Iff.intro
    · rintro ⟨codec, known, takes, within⟩
      exact ⟨⟨codec, known, takes⟩, within⟩
    · rintro ⟨⟨codec, known, takes⟩, within⟩
      exact ⟨codec, known, takes, within⟩
  | packed record length bits => exact ⟨fun takes => ⟨takes, False.elim⟩, And.left⟩

/-- Leaves are read under a limit just if they are under a higher one and keep to it, and then the
same is read. -/
theorem takes_readAll_raised_iff (below : a.Below b)
    {steps : List (Except Fault (Leaf FieldType))} {front rest : Bytes} {spans : List Bytes} :
    Takes (readAll a steps) front rest spans ↔ Takes (readAll b steps) front rest spans ∧
      List.Forall₂ (Within a.settings.maxVariableLength) steps spans := by
  induction steps generalizing front spans with
  | nil =>
    refine ⟨fun takes => ⟨takes, ?_⟩, And.left⟩
    obtain ⟨-, rfl⟩ := takes_pure_iff.1 takes
    exact .nil
  | cons step steps ih =>
    simp only [takes_readAll_cons_iff, takes_read_iff, takes_readSpan_raised_iff below, ih,
      below.registry]
    apply Iff.intro
    · rintro ⟨leaf, rfl, span, first, second, split, ⟨⟨takes, within⟩, filled⟩, others,
        ⟨following, further⟩, rfl⟩
      exact ⟨⟨leaf, rfl, span, first, second, split, ⟨takes, filled⟩, others, following, rfl⟩,
        .cons within further⟩
    · rintro ⟨⟨leaf, rfl, span, first, second, split, ⟨takes, filled⟩, others, following, rfl⟩,
        _ | ⟨within, further⟩⟩
      exact ⟨leaf, rfl, span, first, second, split, ⟨⟨takes, within⟩, filled⟩, others,
        ⟨following, further⟩, rfl⟩

end Leaf

namespace Leaf

variable {setting : Walk.Setting} {wire rest : Bytes}

/-- The span of a leaf is read off what the leaf was written as. If the leaf is refused all the
same, then for what its fields can hold. -/
theorem span_of_alone {leaf : Leaf Held} (written : leaf.alone setting = .ok wire)
    (checked : Checked (.ok leaf)) (fills : Fills setting.registry (.ok leaf))
    (last : Open (.ok leaf) → rest = []) :
    ∃ span, Takes ((leaf.map Held.type).readSpan setting) wire rest span ∧
      Except.Raises ((leaf.map Held.type).fill setting.registry span) Fault.Unfit := by
  rw [alone_eq_frame] at written
  obtain ⟨pieces, framed, same⟩ := Except.map_eq_ok.1 written
  cases leaf with
  | scalar descriptor held =>
    obtain ⟨codec, known, framed⟩ := Except.bind_eq_ok.1 framed
    have found := Registry.lookup_eq_ok.1 known
    obtain ⟨span, takes, interpreted⟩ := Codec.span_of_frame
      (Except.map_eq_ok.2 ⟨pieces, framed, same⟩) (fun text => fills (text ▸ found)) last
    refine ⟨span, takes_ofExcept_bind_iff.2 ⟨codec, known, takes⟩, ?_⟩
    change Except.Raises ((scalar descriptor held.type).fill setting.registry span) _
    rw [fill_scalar setting.registry known, interpreted]
    exact ((FieldType.raises_ofValue _ _).map _).map _
  | packed record length bits =>
    obtain ⟨entries, -, framed⟩ := Except.bind_eq_ok.1 framed
    obtain ⟨container, packed, framed⟩ := Except.bind_eq_ok.1 framed
    cases framed
    obtain rfl : container = wire := by simpa using same
    have sized := Container.length_of_pack packed
    refine ⟨container, takes_readFixed_iff.2 ⟨rfl, sized⟩, ?_⟩
    have small : Container.check container.length = .ok () := by
      rw [sized]
      exact (Except.check_bind_eq_ok.1 packed).1
    have inside : ∀ field ∈ ((bits.map fun entry => (entry.1, entry.2.type)).map
        (·.1.descriptor)), Container.checkSpan container.length field = .ok () := by
      rw [sized, List.map_map]
      exact List.forall_mem_map.2 checked
    refine (Container.raises_unpack small inside).bind fun words _ => ?_
    refine ((raises_fillBits _ words).mono ?_).map _
    rintro fault ⟨entry, -, foreign⟩
    exact FieldType.raises_ofValue _ _ fault foreign

theorem raises_readAll_of_alone {steps : List (Except Fault (Leaf Held))} {written : List Bytes}
    {tail : Bytes} (each : steps.map (· >>= alone setting) = written.map .ok)
    (checked : ∀ step ∈ steps, Checked step) (aligned : Aligned setting.registry steps tail)
    (done : Bytes) {fault : Fault} {after : Cursor}
    (failed : readAll setting (steps.map types) (between done (written.flatten ++ tail)) =
      .error fault after) : fault.Unfit := by
  induction steps generalizing written done with
  | nil => cases failed
  | cons step steps ih =>
    obtain ⟨wire, others, rfl, first, remaining⟩ := List.map_eq_cons_iff.1 each.symm
    obtain ⟨leaf, rfl, alone⟩ := Except.bind_eq_ok.1 first.symm
    have ends : Open (.ok leaf) → others.flatten ++ tail = [] := by
      intro all
      obtain ⟨rfl, rfl⟩ := aligned.eq_nil_of_open all
      obtain rfl := List.map_eq_nil_iff.1 remaining
      rfl
    have here := List.mem_cons_self (a := Except.ok leaf) (l := steps)
    obtain ⟨span, takes, raises⟩ := span_of_alone alone (checked _ here) (aligned.fills _ here) ends
    have started := takes done
    rw [← List.append_assoc, ← List.flatten_cons] at started
    have known : types (.ok leaf) = .ok (leaf.map Held.type) := rfl
    simp only [List.map_cons, known, readAll, Transfer.ofExcept_ok, pure_bind] at failed
    rcases Transfer.bind_eq_error.1 failed with refused | ⟨data, mid, read, later⟩
    · rw [Leaf.read, Transfer.bind_of_ok started] at refused
      rcases Transfer.bind_eq_error.1 refused with unfilled | ⟨_, _, _, impossible⟩
      · exact raises fault (Transfer.ofExcept_eq_error.1 unfilled).1
      · cases impossible
    · rw [Leaf.read, Transfer.bind_of_ok started] at read
      obtain ⟨_, _, filled, answered⟩ := Transfer.bind_eq_ok.1 read
      obtain ⟨-, rfl⟩ := Transfer.ofExcept_eq_ok.1 filled
      cases answered
      rcases Transfer.bind_eq_error.1 later with unread | ⟨_, _, _, impossible⟩
      · exact ih remaining.symm (fun other member => checked other (List.mem_cons_of_mem _ member))
          aligned.of_cons _ unread
      · cases impossible

end Leaf

namespace Marshaller

/-- The marshaller with another limit on spans that have no declared length. -/
def limited (marshaller : Marshaller) (limit : Nat) : Marshaller :=
  { marshaller with settings := marshaller.settings.withMaxVariableLength limit }

theorem limited_below (marshaller : Marshaller) (version : Nat) {limit raised : Nat}
    (higher : limit ≤ raised) :
    ((marshaller.limited limit).setting version).Below
      ((marshaller.limited raised).setting version) :=
  ⟨rfl, higher⟩

variable {marshaller : Marshaller} {schema : Schema} {version limit raised : Nat}

theorem encode_limited_iff {κ : Type} [Sink κ] (higher : limit ≤ raised) {record : schema.Record}
    {sink after : κ} {n : Nat} :
    (∃ left, encode schema version record (marshaller.limited limit, sink) =
        .ok n (left, after)) ↔
      (∃ left, encode schema version record (marshaller.limited raised, sink) =
        .ok n (left, after)) ∧
      ∃ spans, Leaf.payloads marshaller.registry (schema.leaves version record) = .ok spans ∧
        List.Forall₂ (Leaf.Within limit) (schema.leaves version record) spans := by
  have written (bound : Nat) :
      (∃ left, encode schema version record (marshaller.limited bound, sink) =
          .ok n (left, after)) ↔
        Leaf.encodeAll ((marshaller.limited bound).setting version) (schema.leaves version record)
          sink = .ok n after := by
    obtain ⟨plans, ran⟩ := encode_eq (marshaller.limited bound) schema version record sink
    rw [ran]
    simp only [Transfer.within_eq_ok, Prod.mk.injEq]
    apply Iff.intro
    · rintro ⟨_, _, wrote, -, rfl⟩
      exact wrote
    · intro wrote
      exact ⟨_, after, wrote, rfl, rfl⟩
  rw [written, written]
  exact Leaf.encodeAll_raised_iff (marshaller.limited_below version higher)

theorem payloads_of_takes {front rest : Bytes} {spans : List Bytes}
    (takes : Takes (Leaf.readAll (marshaller.setting version) (schema.layout version)) front rest
      spans) : marshaller.payloads schema version (front ++ rest) = .ok spans := by
  have answered : Leaf.readAll (marshaller.setting version) (schema.layout version)
      (between [] (front ++ rest)) = _ := takes []
  unfold payloads Transfer.answer
  rw [show ofBytes (front ++ rest) = between [] (front ++ rest) from rfl, answered]

theorem decode_limited_iff (higher : limit ≤ raised) {initial : schema.Record} {data : Bytes}
    {decoded : Decoded schema} {cursor : Cursor} :
    (∃ left, decode schema version initial (marshaller.limited limit, ofBytes data) =
        .ok decoded (left, cursor)) ↔
      (∃ left, decode schema version initial (marshaller.limited raised, ofBytes data) =
        .ok decoded (left, cursor)) ∧
      ∃ spans, (marshaller.limited raised).payloads schema version data = .ok spans ∧
        List.Forall₂ (Leaf.Within limit) (schema.layout version) spans := by
  have below := marshaller.limited_below version higher
  apply Iff.intro
  · intro ⟨left, ran⟩
    have started : decode schema version initial (marshaller.limited limit, between [] data) = _ :=
      ran
    obtain ⟨front, rest, spans, rfl, rfl, takes, rfl⟩ := takes_of_decode started
    obtain ⟨takes, within⟩ := (Leaf.takes_readAll_raised_iff below).1 takes
    obtain ⟨after, ran⟩ := decode_of_takes takes initial []
    exact ⟨⟨_, ran⟩, spans, payloads_of_takes takes, within⟩
  · intro ⟨⟨left, ran⟩, spans, read, within⟩
    have started : decode schema version initial (marshaller.limited raised, between [] data) = _ :=
      ran
    obtain ⟨front, rest, found, rfl, rfl, takes, rfl⟩ := takes_of_decode started
    cases (payloads_of_takes takes).symm.trans read
    obtain ⟨after, ran⟩ :=
      decode_of_takes ((Leaf.takes_readAll_raised_iff below).2 ⟨takes, within⟩) initial []
    exact ⟨_, ran⟩

theorem unfit_of_decode {record initial : schema.Record} {n : Nat} {left : Marshaller}
    {plans : PlanCache}    {bytes tail : Bytes} {fault : Fault} {stopped : Marshaller × Cursor}
    (ran : encode schema version record (marshaller, ([] : Bytes)) = .ok n (left, bytes))
    (aligned : Leaf.Aligned marshaller.registry (schema.leaves version record) tail)
    (failed : decode schema version initial
      ({ marshaller with plans := plans }, ofBytes (bytes ++ tail)) = .error fault stopped) :
    fault.Unfit := by
  obtain ⟨written, each, -, rfl⟩ := pieces_of_encode ran
  have refused := readAll_error_of_decode failed
  rw [← schema.types_leaves version record] at refused
  exact Leaf.raises_readAll_of_alone each (fun step member => schema.checked_leaves record member)
    aligned [] refused

/-- The limit on spans that have no declared length is a threshold for each of them, and nothing
else: a record is encoded under a limit just if it is under a higher one and has at most so many
bytes in each such span, and comes to the same; and so for what is read when a record is decoded.
What was written under a limit is not refused for its length when it is read under the same one, as
long as every leaf is found where it was written. -/
theorem limit_exact (marshaller : Marshaller) (schema : Schema) (version : Nat)
    {limit raised : Nat} (higher : limit ≤ raised) :
    (∀ {κ : Type} [Sink κ] (record : schema.Record) (sink after : κ) (n : Nat),
      (∃ left, encode schema version record (marshaller.limited limit, sink) =
          .ok n (left, after)) ↔
        (∃ left, encode schema version record (marshaller.limited raised, sink) =
          .ok n (left, after)) ∧
        ∃ spans, Leaf.payloads marshaller.registry (schema.leaves version record) = .ok spans ∧
          List.Forall₂ (Leaf.Within limit) (schema.leaves version record) spans) ∧
    (∀ (initial : schema.Record) (data : Bytes) (decoded : Decoded schema) (cursor : Cursor),
      (∃ left, decode schema version initial (marshaller.limited limit, ofBytes data) =
          .ok decoded (left, cursor)) ↔
        (∃ left, decode schema version initial (marshaller.limited raised, ofBytes data) =
          .ok decoded (left, cursor)) ∧
        ∃ spans, (marshaller.limited raised).payloads schema version data = .ok spans ∧
          List.Forall₂ (Leaf.Within limit) (schema.layout version) spans) ∧
    (∀ (record initial : schema.Record) (n : Nat) (left : Marshaller) (bytes tail : Bytes),
      encode schema version record (marshaller.limited limit, ([] : Bytes)) =
        .ok n (left, bytes) →
      Leaf.Aligned marshaller.registry (schema.leaves version record) tail →
      ∀ plans fault stopped,
        decode schema version initial
            ({ marshaller.limited limit with plans := plans }, ofBytes (bytes ++ tail)) =
          .error fault stopped →
        ∀ cause, fault ≠ .length cause) := by
  refine ⟨fun record sink after n => encode_limited_iff higher,
    fun initial data decoded cursor => decode_limited_iff higher, ?_⟩
  intro record initial n left bytes tail ran aligned plans fault stopped failed cause long
  have unfit := unfit_of_decode ran aligned failed
  rw [long] at unfit
  exact unfit

/-- A letter with a body of two bytes, under a limit of two and of one. -/
theorem limit_exact_letter :
    let schema := Sample.letter (.counted 2)
    let record : schema.Record := ([7, 8], (3, 10, ()), "ab", ())
    let image : Bytes := [97, 98, 0, 0xa3, 0, 2, 7, 8]
    let initial := Sample.draft (.counted 2)
    (∃ left, encode schema 1 record (default.limited 2, ([] : Bytes)) = .ok 8 (left, image)) ∧
    (¬ ∃ left, encode schema 1 record (default.limited 1, ([] : Bytes)) = .ok 8 (left, image)) ∧
    (∃ decoded left cursor, decode schema 1 initial (default.limited 2, ofBytes (image ++ [9])) =
      .ok decoded (left, cursor)) ∧
    ∀ fault stopped,
      decode schema 1 initial (default.limited 2, ofBytes (image ++ [9])) = .error fault stopped →
        ∀ cause, fault ≠ .length cause := by
  intro schema record image initial
  have wrote : (encode schema 1 record : Transfer _ Nat) (default.limited 5, ([] : Bytes)) =
      .ok 8 _ := Transfer.eq_ok_of_answer (by decide +kernel)
  have written : encode schema 1 record (default.limited 5, ([] : Bytes)) = .ok 8 (_, image) :=
    wrote.trans (congrArg (EStateM.Result.ok 8) (Prod.ext rfl (by decide +kernel)))
  have read : decode schema 1 initial (default.limited 5, ofBytes (image ++ [9])) =
      .ok _ (_, ⟨image ++ [9], 8⟩) := rfl
  have sent : Leaf.payloads default.registry (schema.leaves 1 record) =
      .ok [[97, 98], [0xa3], [7, 8]] := by decide +kernel
  have found : (default.limited 5).payloads schema 1 (image ++ [9]) =
      .ok [[97, 98], [0xa3], [7, 8]] := by decide +kernel
  have aligned : Leaf.Aligned default.registry (schema.leaves 1 record) [9] :=
    ⟨by decide +kernel, by decide +kernel, by decide +kernel⟩
  obtain ⟨left, first⟩ := ((limit_exact default schema 1 (by decide : 2 ≤ 5)).1 record [] image 8).2
    ⟨⟨_, written⟩, _, sent, by decide +kernel⟩
  refine ⟨⟨left, first⟩, fun short => ?_, ?_, ?_⟩
  · obtain ⟨-, spans, same, within⟩ :=
      ((limit_exact default schema 1 (by decide : 1 ≤ 5)).1 record [] image 8).1 short
    cases sent.symm.trans same
    revert within
    decide +kernel
  · obtain ⟨left, second⟩ := ((limit_exact default schema 1 (by decide : 2 ≤ 5)).2.1 _ _ _ _).2
      ⟨⟨_, read⟩, _, found, by decide +kernel⟩
    exact ⟨_, left, _, second⟩
  · exact (limit_exact default schema 1 (by decide : 2 ≤ 5)).2.2 record initial 8 left image [9]
      first aligned _

end Marshaller

namespace Sample

/-- Two fields that each take all that is left. -/
def greedy : Schema :=
  .fields 5 "Greedy"
    [.scalar "first" .bytes [(Descriptor.ofWire .bytes).withMode .remaining],
      .scalar "second" .bytes [((Descriptor.ofWire .bytes).withMode .remaining).withOrder 1]]

/-- Text of one declared byte, and counted bytes behind it. -/
def marked : Schema :=
  .fields 6 "Marked"
    [.scalar "mark" .string [.sized .string 1],
      .scalar "body" .bytes [((Descriptor.ofWire .bytes).withMode (.counted 1)).withOrder 1]]

end Sample

namespace Marshaller

/-- Where leaves are not found where they were written, what was written under a limit may be
refused for its length, and be taken under a higher one: the first of two fields that take all that
is left finds the bytes of both, and the second byte of a text that should have one is taken for a
length. -/
theorem length_refused_of_misaligned :
    ((∃ left, encode Sample.greedy 1 ([1], [2], ()) (default.limited 1, ([] : Bytes)) =
        .ok 2 (left, [1, 2])) ∧
      (∃ left, decode Sample.greedy 1 ([], [], ()) (default.limited 1, ofBytes [1, 2]) =
        .error (.length (.remaining 2 1)) left) ∧
      ∃ left, decode Sample.greedy 1 ([], [], ()) (default.limited 2, ofBytes [1, 2]) =
        .ok ⟨([1, 2], [], ()), none⟩ left) ∧
    (∃ left, encode Sample.marked 1 ("A\x02", [5], ()) (default.limited 1, ([] : Bytes)) =
        .ok 4 (left, [65, 2, 1, 5])) ∧
      (∃ left, decode Sample.marked 1 ("", [], ()) (default.limited 1, ofBytes [65, 2, 1, 5]) =
        .error (.length (.announced "body" 2 1)) left) ∧
      ∃ left, decode Sample.marked 1 ("", [], ()) (default.limited 2, ofBytes [65, 2, 1, 5]) =
        .ok ⟨("A", [1, 5], ()), none⟩ left :=
  ⟨⟨⟨_, rfl⟩, ⟨_, rfl⟩, _, rfl⟩, ⟨_, rfl⟩, ⟨_, rfl⟩, _, rfl⟩

end Marshaller

end Wireform
