import Wireform.Proofs.Container
import Wireform.Proofs.Layout
import Wireform.Proofs.Plan
import Wireform.Proofs.Reading

/-!
Which record types have a plan, and which plan it is. A record type is sound at a version when its
names are distinct, no field has two descriptors for the version, each descriptor that covers it
suits its field, and the descriptors together leave one order. Just the sound record types resolve,
and the plan lists just the fields that have a descriptor for the version, each with that one.
-/

namespace Wireform

namespace Plan

def covering {δ : Type} [Versioned δ] (version : Nat) (descriptors : List δ) : List δ :=
  descriptors.filter fun descriptor => (Versioned.versions descriptor).covers version

/-- No field has two descriptors for the version, and where it has one, that fits the field. -/
def Decides {φ δ : Type} [Versioned δ] (version : Nat) (descriptors : φ → List δ)
    (fits : φ → δ → Prop) (declared : List φ) : Prop :=
  ∀ field ∈ declared, (covering version (descriptors field)).length ≤ 1 ∧
    ∀ descriptor ∈ covering version (descriptors field), fits field descriptor

/-- The planned fields are those of the declaration that have one descriptor for the version, each
of them once. -/
structure Lists {φ δ : Type} [Versioned δ] (version : Nat) (name : φ → String)
    (descriptors : φ → List δ) (declared : List φ) (planned : List (Planned δ)) : Prop where
  once : (planned.map Planned.position).Nodup
  mem_iff : ∀ entry, entry ∈ planned ↔ ∃ field, declared[entry.position]? = some field ∧
    entry.name = name field ∧ covering version (descriptors field) = [entry.descriptor]

end Plan

namespace Field

def inner? : Field → Option Schema
  | scalar .. => none
  | nested _ schema _ => some schema

/-- The descriptor fits what the field holds, and tells the extent of its span. -/
structure Suits (field : Field) (descriptor : Descriptor) : Prop where
  shape : descriptor.wire = .object ↔ field.inner?.isSome
  container : ∀ inner ∈ field.inner?, ∀ length ∈ inner.packedLength?,
    ∀ declared ∈ descriptor.length, declared = length
  sized : descriptor.mode = .fixed → descriptor.wire ≠ .object → descriptor.length ≠ none
  counted : ∀ width, descriptor.mode = .counted width → width ∈ [1, 2, 4]

end Field

namespace Schema

open Plan

/-- Nothing about the record type is left open or contradicts itself at the version. -/
def Sound (version : Nat) (schema : Schema) : Prop :=
  schema.fieldNames.Nodup ∧
    match schema with
    | .fields _ _ declared =>
      Decides version Field.descriptors Field.Suits declared ∧
      ((declared.flatMap fun field => covering version field.descriptors).map
        Descriptor.order).Nodup
    | .packed _ _ length declared =>
      (1 ≤ length ∧ length ≤ 4) ∧
      Decides version BitField.descriptors (fun _ => BitDescriptor.Inside length) declared

/-- The plan says which fields travel, by which rule and in which order. -/
def PlannedBy (version : Nat) (schema : Schema) (plan : Plan) : Prop :=
  plan.record = schema.name ∧ plan.version = version ∧
    match schema with
    | .fields _ _ declared =>
      Lists version Field.name Field.descriptors declared plan.fields ∧ plan.bits = [] ∧
      plan.fields.Pairwise fun a b => a.descriptor.order < b.descriptor.order
    | .packed _ _ _ declared =>
      Lists version BitField.name BitField.descriptors declared plan.bits ∧ plan.fields = [] ∧
      plan.bits.Pairwise fun a b => a.descriptor.offset < b.descriptor.offset ∨
        a.descriptor.offset = b.descriptor.offset ∧ a.position < b.position

end Schema

namespace Plan

theorem firstRepeat?_eq_none {seen names : List String} :
    firstRepeat? seen names = none ↔ names.Nodup ∧ ∀ name ∈ names, name ∉ seen := by
  induction names generalizing seen with
  | nil => exact ⟨fun _ => ⟨.nil, nofun⟩, fun _ => rfl⟩
  | cons name rest ih =>
    unfold firstRepeat?
    by_cases met : name ∈ seen
    · rw [if_pos (List.contains_iff_mem.2 met)]
      exact ⟨nofun, fun ⟨_, fresh⟩ => absurd met (fresh name (List.mem_cons_self ..))⟩
    · rw [if_neg (mt List.contains_iff_mem.1 met), ih, List.nodup_cons]
      simp only [List.mem_cons, not_or, forall_eq_or_imp]
      apply Iff.intro
      · intro ⟨distinct, fresh⟩
        exact ⟨⟨fun again => (fresh name again).1 rfl, distinct⟩, met,
          fun other member => (fresh other member).2⟩
      · intro ⟨⟨single, distinct⟩, _, fresh⟩
        refine ⟨distinct, fun other member => ⟨?_, fresh other member⟩⟩
        rintro rfl
        exact single member

theorem checkNames_eq_ok {schema : Schema} :
    checkNames schema = .ok () ↔ schema.fieldNames.Nodup := by
  have repeats := @firstRepeat?_eq_none [] schema.fieldNames
  unfold checkNames
  cases found : firstRepeat? [] schema.fieldNames with
  | none => exact ⟨fun _ => (repeats.1 found).1, fun _ => rfl⟩
  | some name =>
    refine ⟨nofun, fun distinct => ?_⟩
    have none := repeats.2 ⟨distinct, fun _ _ => List.not_mem_nil⟩
    cases found.symm.trans none

theorem checkShape_eq_ok {record : String} {field : Field} {descriptor : Descriptor} :
    checkShape record field descriptor = .ok () ↔
      (descriptor.wire = .object ↔ field.inner?.isSome) ∧
      ∀ inner ∈ field.inner?, ∀ length ∈ inner.packedLength?, ∀ declared ∈ descriptor.length,
        declared = length := by
  cases field with
  | scalar name type declared =>
    by_cases nests : descriptor.wire = .object <;> simp [checkShape, Field.inner?, nests]
  | nested name schema declared =>
    by_cases nests : descriptor.wire = .object
    · cases packed : schema.packedLength? with
      | none => simp [checkShape, Field.inner?, nests, packed]
      | some length =>
        cases known : descriptor.length with
        | none => simp [checkShape, Field.inner?, nests, packed, known]
        | some declared => simp [checkShape, Field.inner?, nests, packed, known, eq_comm]
    · simp [checkShape, Field.inner?, nests]

theorem checkSpan_eq_ok {record field : String} {descriptor : Descriptor} :
    checkSpan record field descriptor = .ok () ↔
      (descriptor.mode = .fixed → descriptor.wire ≠ .object → descriptor.length ≠ none) ∧
      ∀ width, descriptor.mode = .counted width → width ∈ [1, 2, 4] := by
  unfold checkSpan
  cases mode : descriptor.mode with
  | fixed =>
    by_cases known : descriptor.length = none <;> by_cases nests : descriptor.wire = .object <;>
      simp [known, nests]
  | counted width =>
    dsimp only
    rw [Span.checkCount_eq_ok]
    simp [LengthMode.countWidths]
  | terminated separator => simp
  | remaining => simp

theorem checkField_eq_ok {record : String} {field : Field} {descriptor : Descriptor} :
    checkField record field descriptor = .ok () ↔ field.Suits descriptor := by
  unfold checkField
  rw [Except.check_bind_eq_ok, checkShape_eq_ok, checkSpan_eq_ok]
  apply Iff.intro
  · intro ⟨⟨shape, container⟩, sized, counted⟩
    exact ⟨shape, container, sized, counted⟩
  · intro ⟨shape, container, sized, counted⟩
    exact ⟨⟨shape, container⟩, sized, counted⟩

end Plan

namespace Plan

section

variable {φ δ : Type} [Versioned δ] {record field : String} {version : Nat} {name : φ → String}
  {descriptors : φ → List δ} {check : φ → δ → Except Fault Unit}

theorem select_eq_ok {declared : List δ} {selected : Option δ} :
    select record field declared version = .ok selected ↔
      covering version declared = selected.toList := by
  unfold select covering
  rcases declared.filter fun descriptor => (Versioned.versions descriptor).covers version with
    _ | ⟨descriptor, _ | ⟨other, rest⟩⟩ <;> cases selected <;> simp

/-- The entries that a declaration has for a version, in the order of declaration from `position`
on. -/
def matched (version : Nat) (name : φ → String) (descriptors : φ → List δ) (position : Nat)
    (declared : List φ) : List (Planned δ) :=
  (declared.zipIdx position).flatMap fun (field, position) =>
    (covering version (descriptors field)).map (⟨position, name field, ·⟩)

theorem matched_cons (position : Nat) (field : φ) (rest : List φ) :
    matched version name descriptors position (field :: rest) =
      (covering version (descriptors field)).map (⟨position, name field, ·⟩) ++
        matched version name descriptors (position + 1) rest := by
  simp only [matched, List.zipIdx_cons, List.flatMap_cons]

theorem map_descriptor_matched (position : Nat) (declared : List φ) :
    (matched version name descriptors position declared).map Planned.descriptor =
      declared.flatMap fun field => covering version (descriptors field) := by
  induction declared generalizing position with
  | nil => rfl
  | cons field rest ih =>
    rw [matched_cons, List.map_append, ih, List.flatMap_cons, List.map_map]
    congr 1
    exact List.map_id _

theorem mem_matched {declared : List φ} {entry : Planned δ} :
    entry ∈ matched version name descriptors 0 declared ↔ ∃ field,
      declared[entry.position]? = some field ∧ entry.name = name field ∧
        entry.descriptor ∈ covering version (descriptors field) := by
  simp only [matched, List.mem_flatMap, List.mem_map, Prod.exists, List.mk_mem_zipIdx_iff_getElem?]
  apply Iff.intro
  · rintro ⟨field, position, declared, descriptor, covers, rfl⟩
    exact ⟨field, declared, rfl, covers⟩
  · intro ⟨field, declared, named, covers⟩
    exact ⟨field, entry.position, declared, entry.descriptor, covers, by rw [← named]⟩

theorem collect_eq_ok {fits : φ → δ → Prop}
    (checks : ∀ field descriptor, check field descriptor = .ok () ↔ fits field descriptor)
    {position : Nat} {declared : List φ} {found : List (Planned δ)} :
    collect record version name descriptors check position declared = .ok found ↔
      Decides version descriptors fits declared ∧
        found = matched version name descriptors position declared := by
  induction declared generalizing position found with
  | nil =>
    refine ⟨fun collected => ?_, fun ⟨_, same⟩ => same ▸ rfl⟩
    cases collected
    exact ⟨nofun, rfl⟩
  | cons field rest ih =>
    unfold collect
    simp only [Except.bind_eq_ok, select_eq_ok, matched_cons, Decides, List.forall_mem_cons]
    apply Iff.intro
    · rintro ⟨_ | descriptor, single, further⟩
      · obtain ⟨each, rfl⟩ := ih.1 further
        rw [single]
        exact ⟨⟨⟨Nat.zero_le _, nofun⟩, each⟩, rfl⟩
      · obtain ⟨passed, following⟩ := Except.check_bind_eq_ok.1 further
        obtain ⟨others, later, same⟩ := Except.bind_eq_ok.1 following
        obtain ⟨each, rfl⟩ := ih.1 later
        cases same
        rw [single]
        have fitting := (checks field descriptor).1 passed
        exact ⟨⟨⟨Nat.le_refl 1, by simpa using fitting⟩, each⟩, rfl⟩
    · rintro ⟨⟨⟨single, fitting⟩, each⟩, rfl⟩
      have later := (@ih (position + 1) _).2 ⟨each, rfl⟩
      rcases covers : covering version (descriptors field) with _ | ⟨descriptor, _ | ⟨other, more⟩⟩
      · exact ⟨none, rfl, later⟩
      · rw [covers] at fitting
        have checked :=
          (checks field descriptor).2 (fitting descriptor (List.mem_singleton_self descriptor))
        refine ⟨some descriptor, rfl, Except.check_bind_eq_ok.2 ⟨checked, ?_⟩⟩
        exact Except.bind_eq_ok.2 ⟨_, later, rfl⟩
      · rw [covers] at single
        simp at single

/-- However it is sorted, what is collected lists the fields that travel. -/
theorem lists_of_collect {declared : List φ} {found planned : List (Planned δ)}
    (collected : collect record version name descriptors check 0 declared = .ok found)
    (sorted : planned.Perm found) : Lists version name descriptors declared planned where
  once := (sorted.map _).nodup_iff.2 (nodup_of_collect collected)
  mem_iff entry := by
    obtain ⟨decided, rfl⟩ := (collect_eq_ok fun _ _ => .rfl).1 collected
    rw [sorted.mem_iff, mem_matched]
    refine exists_congr fun field => and_congr_right fun declares => and_congr_right fun _ => ?_
    have few := (decided field (List.mem_of_getElem? declares)).1
    apply Iff.intro
    · intro covers
      obtain ⟨descriptor, single⟩ :=
        List.length_eq_one_iff.1 (Nat.le_antisymm few (List.length_pos_of_mem covers))
      rw [single] at covers ⊢
      rw [List.mem_singleton.1 covers]
    · intro single
      rw [single]
      exact List.mem_singleton_self _

theorem Lists.name_at {declared : List φ} {planned : List (Planned δ)}
    (lists : Lists version name descriptors declared planned) {entry : Planned δ}
    (member : entry ∈ planned) : (declared.map name)[entry.position]? = some entry.name := by
  obtain ⟨field, here, named, -⟩ := (lists.mem_iff entry).1 member
  rw [List.getElem?_map, here, named]
  rfl

theorem Lists.nodup_names {declared : List φ} {planned : List (Planned δ)}
    (lists : Lists version name descriptors declared planned)
    (distinct : (declared.map name).Nodup) : (planned.map Planned.name).Nodup := by
  have once := lists.once
  rw [List.nodup_iff_pairwise_ne, List.pairwise_map] at once ⊢
  refine once.imp_of_mem fun {a b} first second apart same => apart ?_
  have here := lists.name_at first
  have there := lists.name_at second
  obtain ⟨inside, -⟩ := List.getElem?_eq_some_iff.1 here
  exact (List.getElem?_inj inside distinct).1 (here.trans (same ▸ there.symm))

end

theorem untied_of_nodup {planned : List (Planned Descriptor)}
    (distinct : (planned.map fun entry => entry.descriptor.order).Nodup) :
    firstTie? planned = none := by
  induction planned with
  | nil => rfl
  | cons first rest ih =>
    obtain ⟨single, others⟩ := List.nodup_cons.1 distinct
    cases rest with
    | nil => rfl
    | cons second rest =>
      unfold firstTie?
      split
      next tied =>
        refine absurd ?_ single
        simp [tied]
      next => exact ih others

theorem checkOrder_of_untied (record : String) (version : Nat) {planned : List (Planned Descriptor)}
    (untied : firstTie? planned = none) : checkOrder record version planned = .ok () := by
  unfold checkOrder
  rw [untied]

theorem orders_of_collect {record : String} {version : Nat} {declared : List Field}
    {found planned : List (Planned Descriptor)}
    (collected : collect record version Field.name Field.descriptors (checkField record) 0
      declared = .ok found) (sorted : planned.Perm found) :
    (planned.map fun entry => entry.descriptor.order).Nodup ↔
      ((declared.flatMap fun field => covering version field.descriptors).map
        Descriptor.order).Nodup := by
  obtain ⟨-, rfl⟩ := (collect_eq_ok fun _ _ => .rfl).1 collected
  rw [(sorted.map _).nodup_iff, ← map_descriptor_matched 0 declared, List.map_map]
  rfl

theorem ofFields_isOk_iff (record : String) {version : Nat} {declared : List Field} :
    (∃ planned, ofFields record version declared = .ok planned) ↔
      Decides version Field.descriptors Field.Suits declared ∧
      ((declared.flatMap fun field => covering version field.descriptors).map
        Descriptor.order).Nodup := by
  apply Iff.intro
  · intro ⟨planned, resolved⟩
    have ascending := (of_ofFields resolved).2
    obtain ⟨found, collected, following⟩ := Except.bind_eq_ok.1 resolved
    obtain ⟨-, same⟩ := Except.check_bind_eq_ok.1 following
    cases same
    refine ⟨((collect_eq_ok fun _ _ => checkField_eq_ok).1 collected).1, ?_⟩
    apply (orders_of_collect collected (Ordered.perm_sort _ found)).1
    rw [List.nodup_iff_pairwise_ne, List.pairwise_map]
    exact ascending.imp fun below => Int.ne_of_lt below
  · intro ⟨decided, distinct⟩
    have collected : collect record version Field.name Field.descriptors (checkField record) 0
        declared = .ok _ := (collect_eq_ok fun _ _ => checkField_eq_ok).2 ⟨decided, rfl⟩
    have sorted := Ordered.perm_sort
      (fun a b : Planned Descriptor => decide (a.descriptor.order ≤ b.descriptor.order))
      (matched version Field.name Field.descriptors 0 declared)
    have ordered := (orders_of_collect collected sorted).2 distinct
    have checked := checkOrder_of_untied record version (untied_of_nodup ordered)
    exact ⟨_, Except.bind_eq_ok.2 ⟨_, collected, Except.check_bind_eq_ok.2 ⟨checked, rfl⟩⟩⟩

theorem ofBits_isOk_iff (record : String) {version length : Nat} {declared : List BitField} :
    (∃ planned, ofBits record version length declared = .ok planned) ↔
      (1 ≤ length ∧ length ≤ 4) ∧
      Decides version BitField.descriptors (fun _ => BitDescriptor.Inside length) declared := by
  rw [← Container.check_eq_ok]
  have inside (checked : Container.check length = .ok ()) (_ : BitField) (bit : BitDescriptor) :
      Container.checkSpan length bit = .ok () ↔ bit.Inside length :=
    Container.checkSpan_eq_ok checked
  apply Iff.intro
  · intro ⟨planned, resolved⟩
    obtain ⟨checked, following⟩ := Except.check_bind_eq_ok.1 resolved
    obtain ⟨found, collected, -⟩ := Except.bind_eq_ok.1 following
    exact ⟨checked, ((collect_eq_ok (inside checked)).1 collected).1⟩
  · intro ⟨checked, decided⟩
    have collected : collect record version BitField.name BitField.descriptors
        (fun _ => Container.checkSpan length) 0 declared = .ok _ :=
      (collect_eq_ok (inside checked)).2 ⟨decided, rfl⟩
    exact ⟨_, Except.check_bind_eq_ok.2 ⟨checked, Except.bind_eq_ok.2 ⟨_, collected, rfl⟩⟩⟩

end Plan

namespace Schema

open Plan

variable {tag version : Nat} {name : String} {plan : Plan}

theorem resolve_fields_eq_ok {declared : List Field} :
    (Schema.fields tag name declared).resolve version = .ok plan ↔
      (Schema.fields tag name declared).fieldNames.Nodup ∧
      ∃ fields, ofFields name version declared = .ok fields ∧
        ⟨name, version, fields, []⟩ = plan := by
  rw [resolve, Except.check_bind_eq_ok, checkNames_eq_ok, Except.map_eq_ok]

theorem resolve_packed_eq_ok {length : Nat} {declared : List BitField} :
    (Schema.packed tag name length declared).resolve version = .ok plan ↔
      (Schema.packed tag name length declared).fieldNames.Nodup ∧
      ∃ bits, ofBits name version length declared = .ok bits ∧
        ⟨name, version, [], bits⟩ = plan := by
  rw [resolve, Except.check_bind_eq_ok, checkNames_eq_ok, Except.map_eq_ok]

theorem nodup_of_resolve {schema : Schema} (resolved : schema.resolve version = .ok plan) :
    schema.fieldNames.Nodup :=
  checkNames_eq_ok.1 (Except.check_bind_eq_ok.1 resolved).1

theorem resolve_isOk_iff {schema : Schema} :
    (∃ plan, schema.resolve version = .ok plan) ↔ schema.Sound version := by
  cases schema with
  | fields tag name declared =>
    simp only [resolve_fields_eq_ok, exists_and_left, Sound]
    refine and_congr_right fun _ => Iff.trans ⟨?_, ?_⟩ (ofFields_isOk_iff name)
    · rintro ⟨_, found, planned, -⟩
      exact ⟨found, planned⟩
    · rintro ⟨found, planned⟩
      exact ⟨_, found, planned, rfl⟩
  | packed tag name length declared =>
    simp only [resolve_packed_eq_ok, exists_and_left, Sound]
    refine and_congr_right fun _ => Iff.trans ⟨?_, ?_⟩ (ofBits_isOk_iff name)
    · rintro ⟨_, found, planned, -⟩
      exact ⟨found, planned⟩
    · rintro ⟨found, planned⟩
      exact ⟨_, found, planned, rfl⟩

theorem plannedBy_of_resolve {schema : Schema} (resolved : schema.resolve version = .ok plan) :
    schema.PlannedBy version plan := by
  cases schema with
  | fields tag name declared =>
    obtain ⟨-, fields, planned, rfl⟩ := resolve_fields_eq_ok.1 resolved
    have ascending := (of_ofFields planned).2
    obtain ⟨found, collected, following⟩ := Except.bind_eq_ok.1 planned
    obtain ⟨-, same⟩ := Except.check_bind_eq_ok.1 following
    cases same
    exact ⟨rfl, rfl, lists_of_collect collected (Ordered.perm_sort _ found), rfl, ascending⟩
  | packed tag name length declared =>
    obtain ⟨-, bits, planned, rfl⟩ := resolve_packed_eq_ok.1 resolved
    obtain ⟨-, following⟩ := Except.check_bind_eq_ok.1 planned
    obtain ⟨found, collected, same⟩ := Except.bind_eq_ok.1 following
    cases same
    refine ⟨rfl, rfl, lists_of_collect collected (Ordered.perm_sort _ found), rfl, ?_⟩
    exact Ordered.pairwise_sort_key (fun bit => bit.descriptor.offset) (of_collect collected).1

/-- A record type resolves at a version just where it is sound: its names are distinct, each field
has at most one descriptor for the version, and that suits it; the orders of these descriptors are
distinct, or their spans lie inside a container of one to four bytes. The plan then lists just the
fields that have such a descriptor, each once and with that one, in strictly ascending order;
bit-fields go by where they start, and where two start alike, as they were declared. -/
theorem resolve_exact (schema : Schema) (version : Nat) :
    ((∃ plan, schema.resolve version = .ok plan) ↔ schema.Sound version) ∧
      ∀ plan, schema.resolve version = .ok plan → schema.PlannedBy version plan :=
  ⟨resolve_isOk_iff, fun _ resolved => plannedBy_of_resolve resolved⟩

end Schema

namespace Sample

/-- A field that the second version drops, one that it widens, one that it adds, and one that gets
in the way of another in the third. -/
def revised : Schema :=
  .fields 3 "Revised"
    [.scalar "dropped" .uint8 [(Descriptor.ofWire .byte).withVersions [1]],
      .scalar "widened" .uint16
        [((Descriptor.ofWire .byte).withVersions [1]).withOrder 1,
          ((Descriptor.ofWire .word).withVersions [2, 3]).withOrder 2],
      .nested "added" flags [((Descriptor.ofWire .object).withLength 1).withVersions [2]],
      .scalar "clashing" .uint8 [((Descriptor.ofWire .byte).withVersions [3]).withOrder 2]]

end Sample

namespace Schema

theorem resolve_exact_revised :
    Sample.revised.Sound 2 ∧ ¬ Sample.revised.Sound 3 ∧
      ∃ plan, Sample.revised.resolve 2 = .ok plan ∧ Sample.revised.PlannedBy 2 plan ∧
        plan.fields.map Planned.position = [2, 1] := by
  have resolved : Sample.revised.resolve 2 = .ok _ := rfl
  have refused : Sample.revised.resolve 3 = .error _ := rfl
  refine ⟨(resolve_exact Sample.revised 2).1.1 ⟨_, resolved⟩, fun sound => ?_,
    _, resolved, (resolve_exact Sample.revised 2).2 _ resolved, by decide +kernel⟩
  obtain ⟨plan, planned⟩ := (resolve_exact Sample.revised 3).1.2 sound
  cases refused.symm.trans planned

end Schema

end Wireform
