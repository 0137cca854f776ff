import Wireform.Proofs.Encoding
import Wireform.Proofs.Gathering

/-!
Which faults an action may end in. Some faults lie with a record type or with the settings, whatever
the record and its bytes; all others lie with a value, with the bytes or with the stream. Where the
span of a field can be told from its descriptor, reading and writing the field raise none of the
first kind, whatever codec carries it.
-/

namespace Wireform

namespace Fault

/-- The record type or the settings are at fault. -/
def Static : Fault → Prop
  | schema _ | ambiguous .. | zeroLimit => True
  | io _ | insufficient .. | length _ | unsupported _ | range _ | encoding _ => False

/-- A value, the bytes or the stream are at fault. -/
def Dynamic (fault : Fault) : Prop :=
  ¬ fault.Static

/-- The bytes asked for could not be had. -/
def Undelivered : Fault → Prop
  | io _ | insufficient .. => True
  | length _ | unsupported _ | range _ | encoding _ | schema _ | ambiguous .. | zeroLimit => False

/-- The stream underneath is at fault. -/
def Io : Fault → Prop
  | io _ => True
  | _ => False

/-- A value is at fault, for not being one that its field can hold. -/
def Unfit : Fault → Prop
  | unsupported _ | range _ | encoding _ => True
  | _ => False

theorem Unfit.dynamic {fault : Fault} (unfit : fault.Unfit) : fault.Dynamic := by
  cases fault with
  | unsupported _ | range _ | encoding _ => exact id
  | _ => cases unfit

theorem Undelivered.dynamic {fault : Fault} (undelivered : fault.Undelivered) : fault.Dynamic := by
  cases fault with
  | io _ | insufficient _ _ => exact id
  | _ => cases undelivered

theorem Io.undelivered {fault : Fault} (failed : fault.Io) : fault.Undelivered := by
  cases fault with
  | io _ => trivial
  | _ => cases failed

theorem Io.dynamic {fault : Fault} (failed : fault.Io) : fault.Dynamic :=
  failed.undelivered.dynamic

end Fault

namespace Except

variable {α β ι : Type} {allowed other : Fault → Prop} {answer : Except Fault α}

def Raises (answer : Except Fault α) (allowed : Fault → Prop) : Prop :=
  ∀ fault, answer = .error fault → allowed fault

theorem raises_ok (a : α) : Raises (.ok a) allowed :=
  nofun

theorem raises_error {fault : Fault} (fits : allowed fault) :
    Raises (.error fault : Except Fault α) allowed := by
  rintro _ ⟨⟩
  exact fits

theorem Raises.mono (raises : Raises answer allowed)
    (weaker : ∀ fault, allowed fault → other fault) : Raises answer other :=
  fun fault failed => weaker fault (raises fault failed)

theorem Raises.bind {next : α → Except Fault β} (first : Raises answer allowed)
    (second : ∀ a, answer = .ok a → Raises (next a) allowed) :
    Raises (answer >>= next) allowed := by
  cases answer with
  | error fault => exact raises_error (first fault rfl)
  | ok a => exact second a rfl

theorem Raises.map (raises : Raises answer allowed) (f : α → β) :
    Raises (answer.map f) allowed := by
  cases answer with
  | error fault => exact raises_error (raises fault rfl)
  | ok a => exact raises_ok (f a)

theorem raises_foldlM {step : β → ι → Except Fault β} {entries : List ι}
    (each : ∀ b, ∀ entry ∈ entries, Raises (step b entry) allowed) (b : β) :
    Raises (entries.foldlM step b) allowed := by
  induction entries generalizing b with
  | nil => exact raises_ok b
  | cons entry rest ih =>
    rw [List.foldlM_cons]
    exact (each b entry (List.mem_cons_self ..)).bind fun next _ =>
      ih (fun b other member => each b other (List.mem_cons_of_mem _ member)) next

theorem raises_mapM {f : ι → Except Fault α} {entries : List ι}
    (each : ∀ entry ∈ entries, Raises (f entry) allowed) : Raises (entries.mapM f) allowed := by
  induction entries with
  | nil => exact raises_ok []
  | cons entry rest ih =>
    rw [List.mapM_cons]
    refine (each entry (List.mem_cons_self ..)).bind fun a _ => ?_
    exact (ih fun other member => each other (List.mem_cons_of_mem _ member)).bind fun others _ =>
      raises_ok (a :: others)

end Except

namespace Transfer

variable {σ α β : Type} {allowed other : Fault → Prop} {act : Transfer σ α}

/-- If the action fails, from whatever state, then with a fault that is allowed. -/
def Raises (act : Transfer σ α) (allowed : Fault → Prop) : Prop :=
  ∀ state fault after, act state = .error fault after → allowed fault

theorem raises_pure (a : α) : Raises (pure a : Transfer σ α) allowed :=
  nofun

theorem raises_throw {fault : Fault} (fits : allowed fault) :
    Raises (throw fault : Transfer σ α) allowed := by
  rintro state _ _ ⟨⟩
  exact fits

theorem raises_ofExcept {answer : Except Fault α} (raises : Except.Raises answer allowed) :
    Raises (ofExcept answer : Transfer σ α) allowed := by
  cases answer with
  | error fault => exact raises_throw (raises fault rfl)
  | ok a => exact raises_pure a

theorem Raises.mono (raises : act.Raises allowed) (weaker : ∀ fault, allowed fault → other fault) :
    act.Raises other :=
  fun state fault after failed => weaker fault (raises state fault after failed)

/-- What follows matters only where the first action answers. -/
theorem Raises.bind {next : α → Transfer σ β} (first : act.Raises allowed)
    (second : ∀ state a mid, act state = .ok a mid → (next a).Raises allowed) :
    (act >>= next).Raises allowed := by
  intro state fault after failed
  rcases bind_eq_error.1 failed with failed | ⟨a, mid, ran, failed⟩
  · exact first state fault after failed
  · exact second state a mid ran mid fault after failed

theorem raises_ofExcept_bind {answer : Except Fault α} {next : α → Transfer σ β}
    (first : Except.Raises answer allowed)
    (second : ∀ a, answer = .ok a → (next a).Raises allowed) :
    (ofExcept answer >>= next).Raises allowed :=
  (raises_ofExcept first).bind fun _ a _ ran => second a (ofExcept_eq_ok.1 ran).1

end Transfer

/-- A source that fails as its stream does, or for what the stream holds. -/
class Source.Plain (σ : Type) [Source σ] : Prop where
  readExactly (n : Nat) : (Source.readExactly n : Transfer σ Bytes).Raises Fault.Undelivered
  readUntil (separator : UInt8) (limit : Nat) :
    (Source.readUntil separator limit : Transfer σ Bytes).Raises Fault.Dynamic
  readRemaining (limit : Nat) :
    (Source.readRemaining limit : Transfer σ Bytes).Raises Fault.Dynamic
  length_readExactly {n : Nat} {source after : σ} {data : Bytes} :
    Source.readExactly n source = .ok data after → data.length = n

/-- A sink that fails as its stream does. -/
class Sink.Plain (κ : Type) [Sink κ] : Prop where
  writeAll (data : Bytes) : (Sink.writeAll data : Transfer κ Unit).Raises Fault.Io

namespace Unread

variable (unread : Bytes)

theorem raises_exactly (n : Nat) : Except.Raises (exactly unread n) Fault.Undelivered := by
  unfold exactly
  dsimp only
  split
  · exact Except.raises_ok _
  · exact Except.raises_error trivial

theorem raises_upTo (separator : UInt8) (limit : Nat) :
    Except.Raises (upTo unread separator limit) Fault.Dynamic := by
  unfold upTo
  dsimp only
  split
  · exact Except.raises_error id
  · split
    · exact Except.raises_error id
    · exact Except.raises_ok _

theorem raises_everything (limit : Nat) :
    Except.Raises (everything unread limit) Fault.Dynamic := by
  unfold everything
  split
  · exact Except.raises_error id
  · exact Except.raises_ok _

end Unread

namespace Cursor

theorem raises_advance {split : Bytes → Except Fault (Bytes × Bytes)} {allowed : Fault → Prop}
    (raises : ∀ unread, Except.Raises (split unread) allowed) : (advance split).Raises allowed := by
  intro cursor fault after failed
  unfold advance at failed
  cases found : split cursor.unread with
  | ok parts => rw [found] at failed; cases failed
  | error cause => rw [found] at failed; cases failed; exact raises _ fault found

theorem split_of_advance {split : Bytes → Except Fault (Bytes × Bytes)} {cursor after : Cursor}
    {data : Bytes} (ran : advance split cursor = .ok data after) :
    ∃ rest, split cursor.unread = .ok (data, rest) ∧
      after = { cursor with position := cursor.data.length - rest.length } := by
  unfold advance at ran
  cases found : split cursor.unread with
  | ok parts => rw [found] at ran; cases ran; exact ⟨_, rfl, rfl⟩
  | error cause => rw [found] at ran; cases ran

instance : Source.Plain Cursor where
  readExactly n := raises_advance fun unread => Unread.raises_exactly unread n
  readUntil separator limit :=
    raises_advance fun unread => Unread.raises_upTo unread separator limit
  readRemaining limit := raises_advance fun unread => Unread.raises_everything unread limit
  length_readExactly ran := by
    obtain ⟨rest, split, -⟩ := split_of_advance ran
    exact (Unread.exactly_eq_ok.1 split).2

end Cursor

namespace Bytes

theorem raises_readFront {split : Bytes → Except Fault (Bytes × Bytes)} {allowed : Fault → Prop}
    (raises : ∀ unread, Except.Raises (split unread) allowed) :
    (readFront split).Raises allowed := by
  intro unread fault after failed
  unfold readFront at failed
  cases found : split unread with
  | ok parts => rw [found] at failed; cases failed
  | error cause => rw [found] at failed; cases failed; exact raises _ fault found

theorem split_of_readFront {split : Bytes → Except Fault (Bytes × Bytes)} {unread data rest : Bytes}
    (ran : readFront split unread = .ok data rest) : split unread = .ok (data, rest) := by
  unfold readFront at ran
  cases found : split unread with
  | ok parts => rw [found] at ran; cases ran; rfl
  | error cause => rw [found] at ran; cases ran

instance : Source.Plain Bytes where
  readExactly n := raises_readFront fun unread => Unread.raises_exactly unread n
  readUntil separator limit :=
    raises_readFront fun unread => Unread.raises_upTo unread separator limit
  readRemaining limit := raises_readFront fun unread => Unread.raises_everything unread limit
  length_readExactly ran := (Unread.exactly_eq_ok.1 (split_of_readFront ran)).2

instance : Sink.Plain Bytes where
  writeAll _ := nofun

end Bytes

instance : Sink.Plain ByteArray where
  writeAll _ := nofun

namespace Reader

theorem raises_take (wanted : Nat) : (take wanted).Raises Fault.Io := by
  intro reader fault after failed
  unfold take at failed
  dsimp only at failed
  split at failed
  next => cases failed; trivial
  next => cases failed

theorem raises_readExactly (n : Nat) : (readExactly n).Raises Fault.Undelivered := by
  refine ((raises_take n).mono fun fault failed => failed.undelivered).bind fun _ bytes _ _ => ?_
  split
  · exact Transfer.raises_throw trivial
  · exact Transfer.raises_pure bytes

theorem raises_readUntilFrom (separator : UInt8) (limit room : Nat) (seen : Bytes) :
    (readUntilFrom separator limit room seen).Raises Fault.Dynamic := by
  have one := (raises_readExactly 1).mono fun fault short => short.dynamic
  induction room generalizing seen with
  | zero =>
    unfold readUntilFrom
    refine one.bind fun _ bytes _ _ => ?_
    dsimp only
    split
    · exact Transfer.raises_pure _
    · exact Transfer.raises_throw id
  | succ room ih =>
    unfold readUntilFrom
    refine one.bind fun _ bytes _ _ => ?_
    dsimp only
    split
    · exact Transfer.raises_pure _
    · exact ih _

theorem raises_readRemaining (limit : Nat) : (readRemaining limit).Raises Fault.Dynamic := by
  refine ((raises_take (limit + 1)).mono fun fault failed => failed.dynamic).bind
    fun _ bytes _ _ => ?_
  split
  · exact Transfer.raises_throw id
  · exact Transfer.raises_pure bytes

instance : Source.Plain Reader where
  readExactly := raises_readExactly
  readUntil separator limit := raises_readUntilFrom separator limit limit []
  readRemaining := raises_readRemaining
  length_readExactly ran := (of_readExactly ran).2

end Reader

namespace Writer

theorem raises_writeAll (data : Bytes) : (writeAll data).Raises Fault.Io := by
  intro writer fault after failed
  unfold writeAll at failed
  dsimp only at failed
  split at failed
  next => cases failed; trivial
  next => cases failed

instance : Sink.Plain Writer where
  writeAll := raises_writeAll

end Writer

theorem Registry.raises_lookup (registry : Registry) (wire : WireType) :
    Except.Raises (registry.lookup wire) Fault.Dynamic := by
  unfold lookup
  cases registry.find? wire with
  | some codec => exact Except.raises_ok codec
  | none => exact Except.raises_error id

/-- How far the span of the field goes can be told from its descriptor. -/
structure Descriptor.Delimited (field : Descriptor) : Prop where
  sized : field.mode = .fixed → field.length ≠ none
  counted : ∀ width, field.mode = .counted width → width ∈ LengthMode.countWidths

/-- A source that is asked first whether it has the bytes gives them as it does unasked. -/
theorem Span.readExactly_of_readFixed {σ : Type} [Source σ] {n : Nat} {source after : σ}
    {data : Bytes} (ran : readFixed n source = .ok data after) :
    Source.readExactly n source = .ok data after := by
  obtain ⟨_, _, asked, ran⟩ := Transfer.bind_eq_ok.1 ran
  cases asked
  cases known : Source.available? source with
  | none =>
    simp only [known] at ran
    exact ran
  | some available =>
    simp only [known] at ran
    split at ran
    · cases ran
    · exact ran

section

variable {σ κ : Type} [Source σ] [Source.Plain σ] [Sink κ] [Sink.Plain κ] {allowed : Fault → Prop}

namespace Span

variable {field : Descriptor}

theorem raises_fixedLength (delimited : field.Delimited) (fixed : field.mode = .fixed) :
    Except.Raises (fixedLength field) allowed := by
  obtain ⟨length, known⟩ := Option.ne_none_iff_exists'.1 (delimited.sized fixed)
  rw [fixedLength_eq_ok.2 known]
  exact Except.raises_ok length

theorem raises_checkCount (delimited : field.Delimited) {width : Nat}
    (counted : field.mode = .counted width) (place : Place) :
    Except.Raises (checkCount place width) allowed := by
  rw [checkCount_eq_ok.2 (delimited.counted width counted)]
  exact Except.raises_ok ()

theorem raises_readFixed (n : Nat) : (readFixed n : Transfer σ Bytes).Raises Fault.Undelivered := by
  have asked : (get : Transfer σ σ).Raises Fault.Undelivered := nofun
  refine asked.bind fun _ source _ _ => ?_
  cases Source.available? source with
  | none => exact Source.Plain.readExactly n
  | some available =>
    dsimp only
    split
    · exact Transfer.raises_throw trivial
    · exact Source.Plain.readExactly n

theorem length_readFixed {n : Nat} {source after : σ} {data : Bytes}
    (ran : readFixed n source = .ok data after) : data.length = n :=
  Source.Plain.length_readExactly (readExactly_of_readFixed ran)

theorem raises_read (limit : Nat) (delimited : field.Delimited) :
    (read limit field : Transfer σ Bytes).Raises Fault.Dynamic := by
  have fixed (n : Nat) : (readFixed n : Transfer σ Bytes).Raises Fault.Dynamic :=
    (raises_readFixed n).mono fun fault short => short.dynamic
  unfold read
  cases mode : field.mode with
  | fixed =>
    exact Transfer.raises_ofExcept_bind (raises_fixedLength delimited mode) fun n _ => fixed n
  | counted width =>
    refine Transfer.raises_ofExcept_bind (raises_checkCount delimited mode _) fun _ _ => ?_
    refine (fixed width).bind fun _ count _ _ => ?_
    dsimp only
    split
    · exact Transfer.raises_throw id
    · exact fixed _
  | terminated separator => exact Source.Plain.readUntil separator limit
  | remaining => exact Source.Plain.readRemaining limit

theorem raises_checkLimit (limit : Nat) (field : Descriptor) (data : Bytes) :
    Except.Raises (checkLimit limit field data) Fault.Dynamic := by
  unfold checkLimit
  split
  · exact Except.raises_error id
  · exact Except.raises_ok ()

theorem raises_frame (limit : Nat) (delimited : field.Delimited) (data : Bytes) :
    Except.Raises (frame limit field data) Fault.Dynamic := by
  unfold frame
  cases mode : field.mode with
  | fixed => exact Except.raises_ok _
  | counted width =>
    refine (raises_checkCount delimited mode _).bind fun _ _ => ?_
    split
    · exact Except.raises_error id
    · exact Except.raises_ok _
  | terminated separator =>
    refine (raises_checkLimit limit field data).bind fun _ _ => ?_
    split
    · exact Except.raises_error id
    · exact Except.raises_ok _
  | remaining => exact (raises_checkLimit limit field data).bind fun _ _ => Except.raises_ok _

theorem raises_write (pieces : List Bytes) : (write pieces : Transfer κ Nat).Raises Fault.Io := by
  have all : (pieces.forM Sink.writeAll : Transfer κ Unit).Raises Fault.Io := by
    induction pieces with
    | nil => exact Transfer.raises_pure ()
    | cons piece rest ih => exact (Sink.Plain.writeAll piece).bind fun _ _ _ _ => ih
  exact all.bind fun _ _ _ _ => Transfer.raises_pure _

end Span

namespace Charset

theorem raises_encodeNarrow (charset : Charset) (bound : Nat) (text : List Char) :
    Except.Raises (encodeNarrow charset bound text) Fault.Dynamic := by
  refine Except.raises_mapM fun c _ => ?_
  split
  · exact Except.raises_ok _
  · exact Except.raises_error id

theorem raises_encode (charset : Charset) (text : String) :
    Except.Raises (charset.encode text) Fault.Dynamic := by
  cases charset with
  | utf8 => exact Except.raises_ok _
  | ascii | latin1 => exact raises_encodeNarrow _ _ _

theorem raises_decode (charset : Charset) (bytes : Bytes) :
    Except.Raises (charset.decode bytes) Fault.Dynamic := by
  unfold decode
  cases charset with
  | utf8 =>
    dsimp only
    split
    · exact Except.raises_ok _
    · exact Except.raises_error id
  | ascii =>
    dsimp only
    split
    · exact Except.raises_error id
    · exact Except.raises_ok _
  | latin1 => exact Except.raises_ok _

end Charset

theorem Digits.raises_pack (content : String) : Except.Raises (pack content) Fault.Dynamic := by
  refine (Except.raises_mapM fun c _ => ?_).bind fun _ _ => Except.raises_ok _
  split
  · exact Except.raises_ok _
  · exact Except.raises_error id

namespace Codec

variable {field : Descriptor}

theorem raises_checkNatural (codec : Codec) (width : Nat) (field : Descriptor) :
    Except.Raises (codec.checkNatural width field) Fault.Dynamic := by
  unfold checkNatural
  split
  · split
    · split
      · exact Except.raises_ok ()
      · exact Except.raises_error id
    · exact Except.raises_ok ()
  · exact Except.raises_error id

theorem raises_frameWord (codec : Codec) (width : Nat) (field : Descriptor) (value : Value) :
    Except.Raises (codec.frameWord width field value) Fault.Dynamic := by
  refine (raises_checkNatural codec width field).bind fun _ _ => ?_
  cases value with
  | uint n => exact Except.raises_ok _
  | bytes _ | text _ | digits _ => exact Except.raises_error id

theorem raises_frameBytes (limit : Nat) (delimited : field.Delimited) (value : Value) :
    Except.Raises (frameBytes limit field value) Fault.Dynamic := by
  cases value with
  | bytes data =>
    unfold frameBytes
    dsimp only
    split
    next fixed =>
      exact (Span.raises_fixedLength delimited fixed).bind fun _ _ =>
        Span.raises_frame limit delimited _
    next => exact Span.raises_frame limit delimited data
  | uint _ | text _ | digits _ => exact Except.raises_error id

theorem raises_frameDigits (limit : Nat) (delimited : field.Delimited) (value : Value) :
    Except.Raises (frameDigits limit field value) Fault.Dynamic := by
  have given : Except.Raises (digitsOf field value) Fault.Dynamic := by
    cases value with
    | bytes _ => exact Except.raises_error id
    | uint _ | text _ | digits _ => exact Except.raises_ok _
  refine given.bind fun digits _ => (Digits.raises_pack digits).bind fun packed _ => ?_
  split
  next fixed =>
    refine (Span.raises_fixedLength delimited fixed).bind fun declared _ => ?_
    split
    · exact Except.raises_error id
    · exact Span.raises_frame limit delimited _
  next => exact Span.raises_frame limit delimited packed

theorem raises_frameText (limit : Nat) (delimited : field.Delimited) (value : Value) :
    Except.Raises (frameText limit field value) Fault.Dynamic := by
  unfold frameText
  split
  · exact (field.charset.raises_encode _).bind fun _ _ => Span.raises_frame limit delimited _
  · exact Except.raises_error id

theorem raises_frame (codec : Codec) (limit : Nat) (delimited : field.Delimited) (value : Value) :
    Except.Raises (codec.frame limit field value) Fault.Dynamic := by
  cases codec with
  | byte | word | dword => exact raises_frameWord _ _ field value
  | bytes => exact raises_frameBytes limit delimited value
  | bcd => exact raises_frameDigits limit delimited value
  | string => exact raises_frameText limit delimited value

theorem raises_readSpan (codec : Codec) (limit : Nat) (delimited : field.Delimited) :
    (codec.readSpan limit field : Transfer σ Bytes).Raises Fault.Dynamic := by
  cases codec with
  | byte | word | dword =>
    exact Transfer.raises_ofExcept_bind (raises_checkNatural _ _ field) fun _ _ =>
      (Span.raises_readFixed _).mono fun fault short => short.dynamic
  | bytes | bcd | string => exact Span.raises_read limit delimited

theorem raises_interpret (codec : Codec) (field : Descriptor) (span : Bytes) :
    Except.Raises (codec.interpret field span) Fault.Dynamic := by
  cases codec with
  | byte | word | dword | bytes | bcd => exact Except.raises_ok _
  | string => exact (field.charset.raises_decode _).map Value.text

end Codec

namespace FieldType

theorem raises_wordOf (type : FieldType) (width : Nat) (value : Value) :
    Except.Raises (type.wordOf width value) Fault.Unfit := by
  cases value with
  | uint word => exact Except.raises_ok _
  | bytes _ | text _ => exact Except.raises_error trivial
  | digits content =>
    unfold wordOf wordOfDigits
    dsimp only
    split
    · exact Except.raises_error trivial
    · exact Except.raises_error trivial
    · split
      · exact Except.raises_ok _
      · exact Except.raises_error trivial

theorem raises_ofValue (type : FieldType) (value : Value) :
    Except.Raises (type.ofValue value) Fault.Unfit := by
  cases type with
  | uint8 | uint16 | uint32 => exact (raises_wordOf _ _ value).map _
  | uint64 => exact raises_wordOf _ _ value
  | int8 | int16 | int32 => exact ((raises_wordOf _ _ value).map _).map _
  | value => exact Except.raises_ok value
  | bool | bytes | string =>
    cases value <;> first | exact Except.raises_ok _ | exact Except.raises_error trivial

end FieldType

end

end Wireform
