import Wireform.Proofs.Encoding
import Wireform.Proofs.Filling
import Wireform.Proofs.Pairing
import Wireform.Proofs.Resolution

/-!
What a walk does not depend on. Two walks through the same record type read and write the same
stream alike when the same codecs serve both under the same limit, their versions lead to the same
plans, and the records written hold the same wherever something travels. Whether plans are kept or
trees are captured makes no difference to the stream.
-/

namespace Wireform

open Walk

/-- The same codecs, under the same limit. -/
structure Walk.Setting.Alike (a b : Setting) : Prop where
  registry : a.registry = b.registry
  limit : a.settings.maxVariableLength = b.settings.maxVariableLength

/-- The walks stand at the same place of the stream, whatever plans they keep. -/
def Walk.SameStream {σ : Type} (state other : State σ) : Prop :=
  state.stream = other.stream

/-- What was read is the same; if both keep a tree or neither does, so is that. -/
def Walk.SameRead {α β : Type} (capture capture' : Bool) (read other : α × β) : Prop :=
  read.1 = other.1 ∧ (capture = capture' → read.2 = other.2)

/-- A record type, those nested in its fields, and so on. -/
inductive Schema.Nests : Schema → Schema → Prop where
  | self (schema : Schema) : Nests schema schema
  | inside {tag : Nat} {name : String} {declared : List Field} {field : Field}
    {inner target : Schema} (declares : field ∈ declared) (nests : field.inner? = some inner)
    (further : Nests inner target) : Nests (.fields tag name declared) target

/-- At both versions the record type has a plan of the same fields, or it has none at either. -/
def Schema.Corresponds (faults : Fault → Fault → Prop) (version other : Nat) (schema : Schema) :
    Prop :=
  Except.Pairs (fun plan plan' : Plan => plan.fields = plan'.fields ∧ plan.bits = plan'.bits) faults
    (schema.resolve version) (schema.resolve other)

mutual

/-- The records hold the same wherever something travels. -/
def Schema.Agree (version : Nat) : (schema : Schema) → schema.Record → schema.Record → Prop
  | .fields tag name declared, record, other =>
    ∀ plan, (Schema.fields tag name declared).resolve version = .ok plan →
      ∀ planned ∈ plan.fields, Field.AgreeAt version declared record other planned.position
  | .packed tag name length declared, record, other =>
    ∀ plan, (Schema.packed tag name length declared).resolve version = .ok plan →
      ∀ bit ∈ plan.bits, BitField.heldAt declared record bit.position =
        BitField.heldAt declared other bit.position

def Field.Agree (version : Nat) : (field : Field) → field.Content → field.Content → Prop
  | .scalar .., content, other => content = other
  | .nested _ schema _, content, other => schema.Agree version content other

def Field.AgreeAt (version : Nat) :
    (fields : List Field) → Field.Contents fields → Field.Contents fields → Nat → Prop
  | [], _, _, _ => True
  | field :: _, contents, other, 0 => field.Agree version contents.1 other.1
  | _ :: rest, contents, other, position + 1 =>
    Field.AgreeAt version rest contents.2 other.2 position

end

mutual

theorem Schema.Agree.refl (version : Nat) : (schema : Schema) → (record : schema.Record) →
    schema.Agree version record record
  | .fields _ _ declared, record =>
    fun _ _ planned _ => Field.AgreeAt.refl version declared record planned.position
  | .packed .., _ => fun _ _ _ _ => rfl

theorem Field.Agree.refl (version : Nat) : (field : Field) → (content : field.Content) →
    field.Agree version content content
  | .scalar .., _ => rfl
  | .nested _ schema _, content => Schema.Agree.refl version schema content

theorem Field.AgreeAt.refl (version : Nat) : (fields : List Field) →
    (contents : Field.Contents fields) → (position : Nat) →
    Field.AgreeAt version fields contents contents position
  | [], _, _ => trivial
  | field :: _, contents, 0 => Field.Agree.refl version field contents.1
  | _ :: rest, contents, position + 1 => Field.AgreeAt.refl version rest contents.2 position

end

namespace Walk

variable {σ α β : Type} {a b : Setting} {faults : Fault → Fault → Prop}

theorem pairs_onStream {answers : α → β → Prop} {act : Transfer σ α} {act' : Transfer σ β}
    (pairs : Transfer.Pairs Eq answers faults act act') :
    Transfer.Pairs SameStream answers faults (onStream act) (onStream act') := by
  intro ⟨plans, stream⟩ ⟨plans', stream'⟩ same
  obtain rfl : stream = stream' := same
  have ends := pairs stream stream rfl
  simp only [onStream, Transfer.focus]
  generalize act stream = result, act' stream = result' at ends
  cases ends with
  | ok given left => exact .ok given left
  | error failed left => exact .error failed left

theorem pairs_plan {schema : Schema} (corresponds : schema.Corresponds faults a.version b.version) :
    Transfer.Pairs (SameStream (σ := σ))
      (fun plan plan' => schema.resolve a.version = .ok plan ∧
        plan.fields = plan'.fields ∧ plan.bits = plan'.bits) faults
      (onPlans (a.settings.plan schema a.version))
      (onPlans (b.settings.plan schema b.version)) := by
  intro ⟨plans, stream⟩ ⟨plans', stream'⟩ same
  obtain rfl : stream = stream' := same
  obtain ⟨after, first⟩ := Follows.plan a.settings schema a.version plans stream
  obtain ⟨after', second⟩ := Follows.plan b.settings schema b.version plans' stream
  rw [first, second]
  unfold Schema.Corresponds at corresponds
  generalize schema.resolve a.version = answer, schema.resolve b.version = answer' at corresponds ⊢
  cases corresponds with
  | ok given => exact .ok ⟨rfl, given⟩ rfl
  | error failed => exact .error failed rfl

end Walk

theorem BitField.words_congr (record : String) {fields : List BitField}
    {contents other : Contents fields} {planned : List (Planned BitDescriptor)}
    (same : ∀ bit ∈ planned, heldAt fields contents bit.position =
      heldAt fields other bit.position) :
    words record fields contents planned = words record fields other planned := by
  rw [words_heldAt, words_heldAt]
  congr 1
  refine List.map_congr_left fun bit travels => ?_
  rw [same bit travels]

theorem Value.encode_congr {κ : Type} [Sink κ] {a b : Setting} (alike : a.Alike b)
    (field : Descriptor) (value : Value) :
    (value.encode a field : Transfer κ Nat) = value.encode b field := by
  unfold Value.encode
  rw [alike.registry, alike.limit]

theorem Value.decode_congr {σ : Type} [Source σ] {a b : Setting} (alike : a.Alike b)
    (field : Descriptor) : (Value.decode a field : Transfer σ Value) = Value.decode b field := by
  unfold Value.decode
  rw [alike.registry, alike.limit]

section

variable {κ : Type} [Sink κ] {a b : Setting} {faults : Fault → Fault → Prop}

mutual

theorem Schema.pairs_encode (alike : a.Alike b) (reflexive : ∀ fault, faults fault fault) :
    (schema : Schema) → (record other : schema.Record) →
    (∀ inner, schema.Nests inner → inner.Corresponds faults a.version b.version) →
    schema.Agree a.version record other →
    Transfer.Pairs SameStream Eq faults (schema.encode a record : Walk κ Nat)
      (schema.encode b other)
  | .fields tag name declared, record, other, corresponds, agree => by
    simp only [Schema.encode]
    refine (pairs_plan (corresponds _ (.self _))).bind fun plan plan' ⟨resolved, same, _⟩ => ?_
    rw [← same]
    refine Transfer.pairs_foldlM (fun planned travels written written' grown => ?_) rfl
    subst grown
    have one := Field.pairs_encodeAt alike reflexive declared record other planned.position
      planned.descriptor
      (fun field declares inner nests target further =>
        corresponds target (.inside declares nests further))
      (agree plan resolved planned travels)
    exact one.bind fun n m equal => equal ▸ Transfer.pairs_pure rfl
  | .packed tag name length declared, record, other, corresponds, agree => by
    simp only [Schema.encode]
    refine (pairs_plan (corresponds _ (.self _))).bind fun plan plan' ⟨resolved, _, same⟩ => ?_
    rw [← same, BitField.words_congr name (agree plan resolved)]
    exact pairs_onStream (Transfer.pairs_refl reflexive _)

theorem Field.pairs_encode (alike : a.Alike b) (reflexive : ∀ fault, faults fault fault) :
    (field : Field) → (content other : field.Content) → (descriptor : Descriptor) →
    (∀ inner, field.inner? = some inner → ∀ target, inner.Nests target →
      target.Corresponds faults a.version b.version) →
    field.Agree a.version content other →
    Transfer.Pairs SameStream Eq faults (field.encode a content descriptor : Walk κ Nat)
      (field.encode b other descriptor)
  | .scalar _ type _, content, other, descriptor, _, agree => by
    obtain rfl : content = other := agree
    simp only [Field.encode]
    rw [Value.encode_congr alike]
    exact pairs_onStream (Transfer.pairs_refl reflexive _)
  | .nested _ schema _, content, other, _, corresponds, agree => by
    simp only [Field.encode]
    exact schema.pairs_encode alike reflexive content other (corresponds schema rfl) agree

theorem Field.pairs_encodeAt (alike : a.Alike b) (reflexive : ∀ fault, faults fault fault) :
    (fields : List Field) → (contents other : Field.Contents fields) → (position : Nat) →
    (descriptor : Descriptor) →
    (∀ field ∈ fields, ∀ inner, field.inner? = some inner → ∀ target, inner.Nests target →
      target.Corresponds faults a.version b.version) →
    Field.AgreeAt a.version fields contents other position →
    Transfer.Pairs SameStream Eq faults
      (Field.encodeAt a fields contents position descriptor : Walk κ Nat)
      (Field.encodeAt b fields other position descriptor)
  | [], _, _, _, _, _, _ => Transfer.pairs_pure rfl
  | field :: _, contents, other, 0, descriptor, corresponds, agree =>
    field.pairs_encode alike reflexive contents.1 other.1 descriptor
      (corresponds field (List.mem_cons_self ..)) agree
  | _ :: rest, contents, other, position + 1, descriptor, corresponds, agree =>
    Field.pairs_encodeAt alike reflexive rest contents.2 other.2 position descriptor
      (fun field declares => corresponds field (List.mem_cons_of_mem _ declares)) agree

end

end

section

variable {σ : Type} [Source σ] {a b : Setting} {faults : Fault → Fault → Prop}
  {capture capture' : Bool}

omit [Source σ] in
theorem BitField.pairs_assign (reflexive : ∀ fault, faults fault fault) (fields : List BitField)
    (contents : Contents fields) (planned : List (Planned BitDescriptor)) (words : List UInt64) :
    Transfer.Pairs Eq (SameRead capture capture') faults
      (Transfer.ofExcept (assign fields contents (Children.start capture) planned words) :
        Transfer σ (Contents fields × Option Children))
      (Transfer.ofExcept (assign fields contents (Children.start capture') planned words)) := by
  simp only [assign, Transfer.ofExcept_foldlM]
  refine Transfer.pairs_foldlM (fun entry _ read other same => ?_) ⟨rfl, congrArg Children.start⟩
  obtain ⟨bit, word⟩ := entry
  obtain ⟨contents, tree⟩ := read
  obtain ⟨contents', tree'⟩ := other
  obtain ⟨rfl, trees⟩ : contents = contents' ∧ (capture = capture' → tree = tree') := same
  simp only [Transfer.ofExcept_bind]
  refine (Transfer.pairs_ofExcept (Except.pairs_refl reflexive _)).bind fun after _ equal => ?_
  subst equal
  exact Transfer.pairs_pure ⟨rfl, fun both => by rw [trees both]⟩

mutual

/-- Records are read alike; whether a tree is kept makes no difference to anything else. -/
theorem Schema.pairs_decode (alike : a.Alike b) (reflexive : ∀ fault, faults fault fault) :
    (schema : Schema) → (record : schema.Record) →
    (∀ inner, schema.Nests inner → inner.Corresponds faults a.version b.version) →
    Transfer.Pairs SameStream (SameRead capture capture') faults
      (schema.decode a capture record : Walk σ (schema.Record × Option Children))
      (schema.decode b capture' record)
  | .fields tag name declared, record, corresponds => by
    simp only [Schema.decode]
    refine (pairs_plan (corresponds _ (.self _))).bind fun plan plan' ⟨_, same, _⟩ => ?_
    rw [← same]
    refine Transfer.pairs_foldlM (fun planned _ read other before => ?_)
      ⟨rfl, congrArg Children.start⟩
    obtain ⟨contents, tree⟩ := read
    obtain ⟨contents', tree'⟩ := other
    obtain ⟨rfl, trees⟩ : contents = contents' ∧ (capture = capture' → tree = tree') := before
    have one := Field.pairs_decodeAt alike reflexive declared contents planned.position
      planned.descriptor fun field declares inner nests target further =>
        corresponds target (.inside declares nests further)
    refine one.bind fun (after, node) (after', node') ⟨equal, nodes⟩ => ?_
    exact Transfer.pairs_pure ⟨equal, fun both => by
      rw [trees both, show node = node' from nodes both]⟩
  | .packed tag name length declared, record, corresponds => by
    simp only [Schema.decode]
    refine (pairs_plan (corresponds _ (.self _))).bind fun plan plan' ⟨_, _, same⟩ => ?_
    rw [← same]
    refine pairs_onStream ((Transfer.pairs_refl reflexive _).bind fun words _ equal => ?_)
    subst equal
    exact BitField.pairs_assign reflexive declared record plan.bits words

theorem Field.pairs_decode (alike : a.Alike b) (reflexive : ∀ fault, faults fault fault) :
    (field : Field) → (content : field.Content) → (descriptor : Descriptor) →
    (∀ inner, field.inner? = some inner → ∀ target, inner.Nests target →
      target.Corresponds faults a.version b.version) →
    Transfer.Pairs SameStream (SameRead capture capture') faults
      (field.decode a capture content descriptor : Walk σ (field.Content × Option Node))
      (field.decode b capture' content descriptor)
  | .scalar _ type _, content, descriptor, _ => by
    simp only [Field.decode, Value.decode_congr alike]
    refine pairs_onStream ((Transfer.pairs_refl reflexive _).bind fun value _ equal => ?_)
    subst equal
    refine (Transfer.pairs_refl reflexive _).bind fun content _ equal => ?_
    subst equal
    exact Transfer.pairs_pure ⟨rfl, fun both => by rw [both]⟩
  | .nested _ schema _, content, _, corresponds => by
    simp only [Field.decode]
    refine (schema.pairs_decode alike reflexive content (corresponds schema rfl)).bind
      fun (content, tree) (content', tree') ⟨equal, trees⟩ => ?_
    exact Transfer.pairs_pure ⟨equal, fun both => by rw [show tree = tree' from trees both]⟩

theorem Field.pairs_decodeAt (alike : a.Alike b) (reflexive : ∀ fault, faults fault fault) :
    (fields : List Field) → (contents : Field.Contents fields) → (position : Nat) →
    (descriptor : Descriptor) →
    (∀ field ∈ fields, ∀ inner, field.inner? = some inner → ∀ target, inner.Nests target →
      target.Corresponds faults a.version b.version) →
    Transfer.Pairs SameStream (SameRead capture capture') faults
      (Field.decodeAt a capture fields contents position descriptor :
        Walk σ (Field.Contents fields × Option Node))
      (Field.decodeAt b capture' fields contents position descriptor)
  | [], _, _, _, _ => Transfer.pairs_pure ⟨rfl, fun _ => rfl⟩
  | field :: _, contents, 0, descriptor, corresponds => by
    simp only [Field.decodeAt]
    refine (field.pairs_decode alike reflexive contents.1 descriptor
      (corresponds field (List.mem_cons_self ..))).bind fun read other same => ?_
    exact Transfer.pairs_pure ⟨congrArg (·, contents.2) same.1, same.2⟩
  | _ :: rest, contents, position + 1, descriptor, corresponds => by
    simp only [Field.decodeAt]
    refine (Field.pairs_decodeAt alike reflexive rest contents.2 position descriptor
      fun field declares => corresponds field (List.mem_cons_of_mem _ declares)).bind
        fun read other same => ?_
    exact Transfer.pairs_pure ⟨congrArg (contents.1, ·) same.1, same.2⟩

end

end

namespace Marshaller

/-- The marshallers carry the same codecs under the same limit, and the streams are the same. What
plans and trees are kept is up to each. -/
structure Peers {σ : Type} (state other : Marshaller × σ) : Prop where
  registry : state.1.registry = other.1.registry
  limit : state.1.settings.maxVariableLength = other.1.settings.maxVariableLength
  stream : state.2 = other.2

section

variable {σ κ α β : Type} {faults : Fault → Fault → Prop} {first second : Nat} {schema : Schema}

/-- Peers that part where they met leave the same stream. -/
theorem Peers.ends {answers : α → β → Prop} {act : Transfer (Marshaller × σ) α}
    {act' : Transfer (Marshaller × σ) β} {state other : Marshaller × σ} (peers : Peers state other)
    (pairs : Transfer.Pairs Peers answers faults act act') :
    Transfer.Ends (fun left left' => left.2 = left'.2) answers faults (act state) (act' other) :=
  (pairs state other peers).mono (fun _ _ left => left.stream) (fun _ _ => id) fun _ _ => id

theorem pairs_walk {answers : α → β → Prop} {act : Setting → Walk σ α} {act' : Setting → Walk σ β}
    (pairs : ∀ a b : Setting, a.Alike b → a.version = first → b.version = second →
      Transfer.Pairs SameStream answers faults (act a) (act' b)) :
    Transfer.Pairs Peers answers faults (walk first act) (walk second act') := by
  intro (marshaller, stream) (other, stream') peers
  have ends := pairs (marshaller.setting first) (other.setting second)
    ⟨peers.registry, peers.limit⟩ rfl rfl ⟨marshaller.plans, stream⟩ ⟨other.plans, stream'⟩
    peers.stream
  simp only [walk, setting] at ends ⊢
  generalize act _ _ = result, act' _ _ = result' at ends ⊢
  cases ends with
  | ok given left => exact .ok given ⟨peers.registry, peers.limit, left⟩
  | error failed left => exact .error failed ⟨peers.registry, peers.limit, left⟩

theorem pairs_encode [Sink κ] (reflexive : ∀ fault, faults fault fault)
    (corresponds : ∀ inner, schema.Nests inner → inner.Corresponds faults first second)
    {record other : schema.Record} (agree : schema.Agree first record other) :
    Transfer.Pairs Peers Eq faults
      (encode schema first record : Transfer (Marshaller × κ) Nat)
      (encode schema second other) :=
  pairs_walk fun a b alike here there => by
    subst here there
    exact schema.pairs_encode alike reflexive record other corresponds agree

/-- What was decoded is the same; if both keep a tree or neither does, so is that. -/
def SameDecoded (capture capture' : Bool) (decoded other : Decoded schema) : Prop :=
  decoded.record = other.record ∧ (capture = capture' → decoded.tree = other.tree)

theorem SameDecoded.eq {capture capture' : Bool} {decoded other : Decoded schema}
    (same : SameDecoded capture capture' decoded other) (both : capture = capture') :
    decoded = other := by
  obtain ⟨record, tree⟩ := decoded
  obtain ⟨rfl, trees⟩ : record = other.record ∧ (capture = capture' → tree = other.tree) := same
  rw [trees both]

theorem pairs_decodeCapturing [Source σ] (reflexive : ∀ fault, faults fault fault)
    (corresponds : ∀ inner, schema.Nests inner → inner.Corresponds faults first second)
    (capture capture' : Bool) (initial : schema.Record) :
    Transfer.Pairs Peers (SameDecoded capture capture') faults
      (decodeCapturing capture schema first initial :
        Transfer (Marshaller × σ) (Decoded schema))
      (decodeCapturing capture' schema second initial) := by
  refine pairs_walk fun a b alike here there => ?_
  subst here there
  refine (schema.pairs_decode alike reflexive initial corresponds).bind
    fun (record, tree) (record', tree') ⟨same, trees⟩ => ?_
  exact Transfer.pairs_pure ⟨same, fun both => by rw [show tree = tree' from trees both]⟩

theorem ends_decode [Source σ] (reflexive : ∀ fault, faults fault fault)
    (corresponds : ∀ inner, schema.Nests inner → inner.Corresponds faults first second)
    (initial : schema.Record) {state other : Marshaller × σ} (peers : Peers state other) :
    Transfer.Ends Peers
      (SameDecoded state.1.settings.captureTree other.1.settings.captureTree) faults
      (decode schema first initial state) (decode schema second initial other) :=
  pairs_decodeCapturing reflexive corresponds _ _ initial state other peers

end

end Marshaller

theorem Schema.corresponds_refl (version : Nat) (schema : Schema) :
    schema.Corresponds Eq version version :=
  (Except.pairs_refl (fun _ => rfl) _).mono fun _ _ same => same ▸ ⟨rfl, rfl⟩

end Wireform
