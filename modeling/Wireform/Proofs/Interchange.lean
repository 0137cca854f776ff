import Wireform.Proofs.Decoding
import Wireform.Proofs.Indifference
import Wireform.Proofs.Reordering

/-!
Declaring the fields of a record type in another order. Records that hold the same under the same
names come to the same bytes, and the same bytes are read into such records. Fields travel in the
sequence of their orders, so all else is the same as well, faults and trees included; bit-fields
that share an offset may be packed in another sequence, but what they gather does not depend on it.
-/

namespace Wireform

open Walk

namespace Schema

variable {tag tag' version length : Nat} {name : String} {plan plan' : Plan}

theorem leaves_of_resolve_packed {declared : List BitField}
    (resolved : (Schema.packed tag name length declared).resolve version = .ok plan)
    (record : (Schema.packed tag name length declared).Record) :
    (Schema.packed tag name length declared).leaves version record =
      [.ok (.packed name length (plan.bits.map fun bit =>
        (bit, BitField.heldAt declared record bit.position)))] := by
  simp only [leaves, resolved, Leaf.ofPlan]

theorem layout_of_resolve_packed {declared : List BitField}
    (resolved : (Schema.packed tag name length declared).resolve version = .ok plan) :
    (Schema.packed tag name length declared).layout version =
      [.ok (.packed name length (BitField.typed declared plan.bits))] := by
  simp only [layout, resolved, Leaf.ofPlan, BitField.typed]

theorem twins_of_resolve_packed {declared declared' : List BitField}
    (reordered : Reordered BitField.Redeclares declared declared')
    (resolved : (Schema.packed tag name length declared).resolve version = .ok plan)
    (resolved' : (Schema.packed tag' name length declared').resolve version = .ok plan') :
    Reordered (BitField.Twin declared declared') plan.bits plan'.bits := by
  obtain ⟨-, -, lists, -⟩ := plannedBy_of_resolve resolved
  obtain ⟨-, -, lists', -⟩ := plannedBy_of_resolve resolved'
  have rules := (Reorders.packed tag tag' name length reordered).sameRules resolved resolved'
  exact lists.reordered_twin lists' rules.bits

section

variable {declared declared' : List Field}
  (reordered : Reordered Field.Redeclares declared declared')
  (resolved : (Schema.fields tag name declared).resolve version = .ok plan)
  (resolved' : (Schema.fields tag' name declared').resolve version = .ok plan')

include reordered resolved resolved'

theorem twins_of_resolve_fields :
    List.Forall₂ (Field.Twin declared declared') plan.fields plan'.fields := by
  obtain ⟨-, -, lists, -⟩ := plannedBy_of_resolve resolved
  obtain ⟨-, -, lists', -⟩ := plannedBy_of_resolve resolved'
  have rules := (Reorders.fields tag tag' name reordered).sameRules resolved resolved'
  exact lists.forall₂_twin lists' rules.fields

theorem leaves_eq_of_sameEntries {record : (Schema.fields tag name declared).Record}
    {record' : (Schema.fields tag' name declared').Record} (same : SameEntries record record') :
    (Schema.fields tag name declared).leaves version record =
      (Schema.fields tag' name declared').leaves version record' := by
  simp only [leaves, resolved, resolved', Leaf.ofPlan]
  exact Field.flatMap_leavesAt_eq same (nodup_of_resolve resolved)
    (twins_of_resolve_fields reordered resolved resolved')

theorem layout_eq_of_reordered :
    (Schema.fields tag name declared).layout version =
      (Schema.fields tag' name declared').layout version := by
  obtain ⟨record, same⟩ := (Reorders.fields tag tag' name reordered).exists_sameEntries
    (Schema.fields tag name declared).blank
  have leaves := leaves_eq_of_sameEntries reordered resolved resolved' same
  rw [← types_leaves, leaves, types_leaves]

end

/-- Before there is a plan the two fail each in their own way; packed records may be found at fault
for any of their bit-fields first. All other faults are the same. -/
def SameFaults (schema other : Schema) (version : Nat) (fault fault' : Fault) : Prop :=
  schema.packedLength? = none →
    fault = fault' ∨ schema.resolve version = .error fault ∧ other.resolve version = .error fault'

theorem SameFaults.refl {schema other : Schema} (fault : Fault) :
    schema.SameFaults other version fault fault :=
  fun _ => .inl rfl

end Schema

/-- What was decoded holds the same; fields that travel one by one have grown the same tree. -/
structure Decoded.Like {schema other : Schema} (decoded : Decoded schema)
    (decoded' : Decoded other) : Prop where
  record : Schema.SameEntries decoded.record decoded'.record
  tree : schema.packedLength? = none → decoded.tree = decoded'.tree

namespace Leaf

section

variable {κ : Type} [Sink κ] {a b : Setting}

theorem encode_congr (alike : a.Alike b) (leaf : Leaf Held) :
    (leaf.encode a : Transfer κ Nat) = leaf.encode b := by
  cases leaf with
  | scalar descriptor held => exact held.value.encode_congr alike descriptor
  | packed record length bits => rfl

theorem encodeAll_congr (alike : a.Alike b) (steps : List (Except Fault (Leaf Held))) :
    (encodeAll a steps : Transfer κ Nat) = encodeAll b steps := by
  induction steps with
  | nil => rfl
  | cons step rest ih => simp only [encodeAll, encode_congr alike, ih]

end

section

variable {σ : Type} [Source σ] {a b : Setting}

theorem read_congr (alike : a.Alike b) (leaf : Leaf FieldType) :
    (leaf.read a : Transfer σ Bytes) = leaf.read b := by
  unfold read
  rw [alike.registry]
  congr 1
  cases leaf with
  | scalar descriptor type => simp only [readSpan, alike.registry, alike.limit]
  | packed record length bits => rfl

theorem readAll_congr (alike : a.Alike b) (steps : List (Except Fault (Leaf FieldType))) :
    (readAll a steps : Transfer σ (List Bytes)) = readAll b steps := by
  induction steps with
  | nil => rfl
  | cons step rest ih => simp only [readAll, read_congr alike, ih]

end

theorem pairs_encodeAll_of_fault {κ : Type} [Sink κ] {setting : Setting} {fault fault' : Fault}
    {faults : Fault → Fault → Prop} (failed : faults fault fault') :
    Transfer.Pairs Eq Eq faults (encodeAll setting [.error fault] : Transfer κ Nat)
      (encodeAll setting [.error fault']) := by
  rintro state _ rfl
  exact .error failed rfl

end Leaf

namespace Marshaller

variable {κ σ : Type} {schema other : Schema} {version : Nat} {faults : Fault → Fault → Prop}

theorem pairs_encode_of_leaves [Sink κ] {record : schema.Record} {record' : other.Record}
    (pairs : ∀ marshaller : Marshaller, Transfer.Pairs Eq Eq faults
      (Leaf.encodeAll (marshaller.setting version) (schema.leaves version record) : Transfer κ Nat)
      (Leaf.encodeAll (marshaller.setting version) (other.leaves version record'))) :
    Transfer.Pairs Peers Eq faults
      (encode schema version record : Transfer (Marshaller × κ) Nat)
      (encode other version record') := by
  rintro ⟨marshaller, sink⟩ ⟨marshaller', sink'⟩ ⟨registry, limit, stream⟩
  obtain rfl : sink = sink' := stream
  obtain ⟨after, ran⟩ := encode_eq marshaller schema version record sink
  obtain ⟨after', ran'⟩ := encode_eq marshaller' other version record' sink
  have alike : (marshaller.setting version).Alike (marshaller'.setting version) := ⟨registry, limit⟩
  rw [ran, ran', Leaf.encodeAll_congr alike]
  exact (pairs marshaller' sink sink rfl).within fun _ _ left => ⟨registry, limit, left⟩

theorem pairs_decode_of_layouts [Source σ] {answers : Decoded schema → Decoded other → Prop}
    {capture : Bool} {initial : schema.Record} {initial' : other.Record}
    (pairs : ∀ marshaller : Marshaller, Transfer.Pairs Eq answers faults
      (marshaller.assemble capture schema version initial <$>
        Leaf.readAll (marshaller.setting version) (schema.layout version) : Transfer σ _)
      (marshaller.assemble capture other version initial' <$>
        Leaf.readAll (marshaller.setting version) (other.layout version))) :
    Transfer.Pairs Peers answers faults
      (decodeCapturing capture schema version initial : Transfer (Marshaller × σ) (Decoded schema))
      (decodeCapturing capture other version initial') := by
  rintro ⟨marshaller, stream⟩ ⟨marshaller', stream'⟩ ⟨registry, limit, same⟩
  obtain rfl : stream = stream' := same
  obtain ⟨after, ran⟩ := decodeCapturing_eq marshaller capture schema version initial stream
  obtain ⟨after', ran'⟩ := decodeCapturing_eq marshaller' capture other version initial' stream
  have alike : (marshaller.setting version).Alike (marshaller'.setting version) := ⟨registry, limit⟩
  have built : marshaller.assemble capture schema version initial =
      marshaller'.assemble capture schema version initial := by
    unfold assemble
    rw [show marshaller.registry = marshaller'.registry from registry]
  rw [ran, ran', built, Leaf.readAll_congr alike]
  exact (pairs marshaller' stream stream rfl).within fun _ _ left => ⟨registry, limit, left⟩

section

variable {tag tag' length : Nat} {name : String} {plan plan' : Plan} (capture : Bool)

theorem like_of_fields {declared declared' : List Field}
    (reordered : Reordered Field.Redeclares declared declared')
    (resolved : (Schema.fields tag name declared).resolve version = .ok plan)
    (resolved' : (Schema.fields tag' name declared').resolve version = .ok plan')
    {initial : (Schema.fields tag name declared).Record}
    {initial' : (Schema.fields tag' name declared').Record}
    (same : Schema.SameEntries initial initial') (marshaller : Marshaller) (spans : List Bytes) :
    (marshaller.assemble capture (.fields tag name declared) version initial spans).Like
      (marshaller.assemble capture (.fields tag' name declared') version initial' spans) := by
  obtain ⟨record, tree⟩ := Field.buildAll_of_twins marshaller.registry capture reordered
    (Schema.nodup_of_resolve resolved)
    (Schema.twins_of_resolve_fields reordered resolved resolved')
    same (Children.start capture) spans
  unfold assemble
  rw [Schema.build_fields resolved, Schema.build_fields resolved']
  exact ⟨record, fun _ => congrArg (Option.map Node.object) tree⟩

variable {declared declared' : List BitField}
  (reordered : Reordered BitField.Redeclares declared declared')
  (resolved : (Schema.packed tag name length declared).resolve version = .ok plan)
  (resolved' : (Schema.packed tag' name length declared').resolve version = .ok plan')
  (failed : ∀ fault fault', faults fault fault')

include reordered resolved resolved' failed

/-- Containers are written alike, whatever the order in which their bit-fields are gathered. -/
theorem pairs_encode_packed [Sink κ] {record : (Schema.packed tag name length declared).Record}
    {record' : (Schema.packed tag' name length declared').Record}
    (same : Schema.SameEntries record record') (setting : Setting) :
    Transfer.Pairs Eq Eq faults
      (Leaf.encodeAll setting ((Schema.packed tag name length declared).leaves version record) :
        Transfer κ Nat)
      (Leaf.encodeAll setting
        ((Schema.packed tag' name length declared').leaves version record')) := by
  have twins := Schema.twins_of_resolve_packed reordered resolved resolved'
  have twins' := twins.symm.mono fun _ _ _ _ twin => twin.symm
  rw [Schema.leaves_of_resolve_packed resolved, Schema.leaves_of_resolve_packed resolved',
    Leaf.encodeAll_singleton, Leaf.encodeAll_singleton, Leaf.encode_eq_write, Leaf.encode_eq_write]
  refine (Transfer.pairs_ofExcept (Except.pairs_of_eq_ok_iff (fun pieces => ⟨?_, ?_⟩) failed)).bind
    fun pieces _ equal => equal ▸ Transfer.pairs_refl (fun fault => failed fault fault) _
  · exact BitField.frame_of_reordered setting same (Schema.nodup_of_resolve resolved) twins
  · exact BitField.frame_of_reordered setting same.symm (Schema.nodup_of_resolve resolved') twins'

theorem pairs_decode_packed [Source σ]
    {initial : (Schema.packed tag name length declared).Record}
    {initial' : (Schema.packed tag' name length declared').Record}
    (same : Schema.SameEntries initial initial') (marshaller : Marshaller) :
    Transfer.Pairs Eq Decoded.Like faults
      (marshaller.assemble capture (.packed tag name length declared) version initial <$>
        Leaf.readAll (marshaller.setting version)
          ((Schema.packed tag name length declared).layout version) : Transfer σ _)
      (marshaller.assemble capture (.packed tag' name length declared') version initial' <$>
        Leaf.readAll (marshaller.setting version)
          ((Schema.packed tag' name length declared').layout version)) := by
  have twins := Schema.twins_of_resolve_packed reordered resolved resolved'
  have twins' := twins.symm.mono fun _ _ _ _ twin => twin.symm
  have reordered' := reordered.symm.mono fun _ _ _ _ again => again.symm
  have distinct := Schema.nodup_of_resolve resolved
  have distinct' := Schema.nodup_of_resolve resolved'
  rw [Schema.layout_of_resolve_packed resolved, Schema.layout_of_resolve_packed resolved',
    Leaf.map_readAll_singleton, Leaf.map_readAll_singleton]
  refine (Transfer.pairs_refl (fun fault => failed fault fault) _).bind fun span _ equal => ?_
  subst equal
  refine (Transfer.pairs_ofExcept (Except.pairs_of_isOk_iff ⟨?_, ?_⟩ failed)).bind
    fun leaf leaf' ⟨filled, filled'⟩ => ?_
  · exact fun ⟨_, filled⟩ => BitField.fill_of_reordered _ reordered distinct twins filled
  · exact fun ⟨_, filled⟩ => BitField.fill_of_reordered _ reordered' distinct' twins' filled
  refine Transfer.pairs_pure ⟨?_, nofun⟩
  obtain ⟨-, -, lists, -⟩ := Schema.plannedBy_of_resolve resolved
  obtain ⟨-, -, lists', -⟩ := Schema.plannedBy_of_resolve resolved'
  have rules := (Schema.Reorders.packed tag tag' name length reordered).sameRules resolved resolved'
  simp only [assemble, Schema.build_packed resolved, Schema.build_packed resolved', List.headD_cons]
  exact BitField.perm_entries_build capture reordered lists lists' rules.bits distinct distinct'
    same filled filled'

end

theorem pairs_encode_of_reorders [Sink κ] (reorders : schema.Reorders other)
    {record : schema.Record} {record' : other.Record} (same : Schema.SameEntries record record') :
    Transfer.Pairs Peers Eq (schema.SameFaults other version)
      (encode schema version record : Transfer (Marshaller × κ) Nat)
      (encode other version record') := by
  refine pairs_encode_of_leaves fun marshaller => ?_
  rcases Except.cases_of_isOk_iff (reorders.resolve_iff version) with
    ⟨plan, plan', resolved, resolved'⟩ | ⟨fault, fault', unplanned, unplanned'⟩
  · cases reorders with
    | fields _ _ _ reordered =>
      rw [Schema.leaves_eq_of_sameEntries reordered resolved resolved' same]
      exact Transfer.pairs_refl Schema.SameFaults.refl _
    | packed _ _ _ _ reordered =>
      exact pairs_encode_packed reordered resolved resolved' (fun _ _ => nofun) same _
  · rw [Schema.leaves_of_unplanned unplanned, Schema.leaves_of_unplanned unplanned']
    exact Leaf.pairs_encodeAll_of_fault fun _ => .inr ⟨unplanned, unplanned'⟩

theorem pairs_decode_of_reorders [Source σ] (reorders : schema.Reorders other) (capture : Bool)
    {initial : schema.Record} {initial' : other.Record}
    (same : Schema.SameEntries initial initial') :
    Transfer.Pairs Peers Decoded.Like (schema.SameFaults other version)
      (decodeCapturing capture schema version initial : Transfer (Marshaller × σ) (Decoded schema))
      (decodeCapturing capture other version initial') := by
  refine pairs_decode_of_layouts fun marshaller => ?_
  rcases Except.cases_of_isOk_iff (reorders.resolve_iff version) with
    ⟨plan, plan', resolved, resolved'⟩ | ⟨fault, fault', unplanned, unplanned'⟩
  · cases reorders with
    | fields _ _ _ reordered =>
      rw [Schema.layout_eq_of_reordered reordered resolved resolved']
      refine (Transfer.pairs_refl Schema.SameFaults.refl _).bind fun spans _ equal => ?_
      subst equal
      exact Transfer.pairs_pure
        (like_of_fields capture reordered resolved resolved' same marshaller spans)
    | packed _ _ _ _ reordered =>
      exact pairs_decode_packed capture reordered resolved resolved' (fun _ _ => nofun) same
        marshaller
  · rw [Schema.layout_of_unplanned unplanned, Schema.layout_of_unplanned unplanned']
    rintro stream _ rfl
    exact .error (fun _ => .inr ⟨unplanned, unplanned'⟩) rfl

/-- The order in which a record type declares its fields, and the descriptors of each, makes no
difference. Both types resolve at a version or neither does, and their plans go by the same rules:
fields in one sequence, bit-fields in whatever sequence. Each record has its like of the other type,
which holds the same under the same names. From peers, records that are alike are encoded alike,
and one source that is read into records that are alike leaves them alike: both runs succeed with
that or both fail, and they leave the same stream. For fields that travel one by one the faults are the same too, once
there is a plan, and so are the trees. -/
theorem declaration_order_irrelevant {schema other : Schema} (reorders : schema.Reorders other)
    (version : Nat) :
    ((∃ plan, schema.resolve version = .ok plan) ↔ ∃ plan, other.resolve version = .ok plan) ∧
    (∀ plan plan', schema.resolve version = .ok plan → other.resolve version = .ok plan' →
      plan.SameRules plan') ∧
    (∀ record : schema.Record, ∃ record' : other.Record, Schema.SameEntries record record') ∧
    (∀ (κ : Type) [Sink κ] (record : schema.Record) (record' : other.Record),
      Schema.SameEntries record record' →
      Transfer.Pairs Peers Eq (schema.SameFaults other version)
        (encode schema version record : Transfer (Marshaller × κ) Nat)
        (encode other version record')) ∧
    ∀ (σ : Type) [Source σ] (capture : Bool) (initial : schema.Record) (initial' : other.Record),
      Schema.SameEntries initial initial' →
      Transfer.Pairs Peers Decoded.Like (schema.SameFaults other version)
        (decodeCapturing capture schema version initial :
          Transfer (Marshaller × σ) (Decoded schema))
        (decodeCapturing capture other version initial') :=
  ⟨reorders.resolve_iff version, fun _ _ => reorders.sameRules, reorders.exists_sameEntries,
    fun _ _ _ _ => pairs_encode_of_reorders reorders,
    fun _ _ capture _ _ => pairs_decode_of_reorders reorders capture⟩

end Marshaller

namespace Sample

/-- Two bit-fields that start alike. The second version widens one of them. -/
def overlaid : Schema :=
  .packed 7 "Overlaid" 1
    [⟨"mode", .uint8,
        [(BitDescriptor.ofSpan 0 4).withVersions [1], (BitDescriptor.ofSpan 0 5).withVersions [2]]⟩,
      ⟨"odd", .bool, [.ofSpan 0 1]⟩]

/-- The same bit-fields, declared the other way round. -/
def overlaidAgain : Schema :=
  .packed 8 "Overlaid" 1
    [⟨"odd", .bool, [.ofSpan 0 1]⟩,
      ⟨"mode", .uint8,
        [(BitDescriptor.ofSpan 0 5).withVersions [2], (BitDescriptor.ofSpan 0 4).withVersions [1]]⟩]

def overlay (mode : UInt8) (odd : Bool) : overlaid.Record :=
  (mode, odd, ())

def overlayAgain (mode : UInt8) (odd : Bool) : overlaidAgain.Record :=
  (odd, mode, ())

theorem reorders_overlaid : overlaid.Reorders overlaidAgain := by
  refine .packed 7 8 "Overlaid" 1 ⟨_, ?_, List.Perm.swap _ _ _⟩
  exact .cons (.intro (List.Perm.swap _ _ _)) (.cons (.intro (List.Perm.refl _)) .nil)

end Sample

namespace Marshaller

/-- The two are planned in another sequence, and their containers are the same. -/
theorem declaration_order_irrelevant_overlaid :
    Sample.overlaid.Reorders Sample.overlaidAgain ∧
    (∃ plan plan', Sample.overlaid.resolve 1 = .ok plan ∧
      Sample.overlaidAgain.resolve 1 = .ok plan' ∧ plan.SameRules plan' ∧
      plan.fieldNames = ["mode", "odd"] ∧ plan'.fieldNames = ["odd", "mode"]) ∧
    let call : Transfer (Marshaller × Bytes) Nat :=
      encode Sample.overlaidAgain 1 (Sample.overlayAgain 6 true)
    (call.left (default, [])).2 = [7] := by
  have resolved : Sample.overlaid.resolve 1 = .ok _ := rfl
  have resolved' : Sample.overlaidAgain.resolve 1 = .ok _ := rfl
  obtain ⟨-, rules, -, encodes, -⟩ := declaration_order_irrelevant Sample.reorders_overlaid 1
  refine ⟨Sample.reorders_overlaid, ⟨_, _, resolved, resolved', rules _ _ resolved resolved',
    by decide +kernel, by decide +kernel⟩, ?_⟩
  have same : Schema.SameEntries (Sample.overlay 6 true) (Sample.overlayAgain 6 true) :=
    List.Perm.swap _ _ _
  have ends := encodes Bytes _ _ same (default, []) (default, []) ⟨rfl, rfl, rfl⟩
  have written : ((encode Sample.overlaid 1 (Sample.overlay 6 true) :
      Transfer (Marshaller × Bytes) Nat).left (default, [])).2 = [7] := by
    decide +kernel
  exact ends.left_matches.stream.symm.trans written

end Marshaller

end Wireform
