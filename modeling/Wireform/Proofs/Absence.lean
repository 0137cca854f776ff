import Wireform.Proofs.Mirror

/-!
Fields that do not travel at a version. They are not seen in what is written, they are left alone by
what is read, and nothing else tells one version from another: versions that the same descriptors
cover differ at most in the number that a fault quotes.
-/

namespace Wireform

/-- The second fault is the first one, but for the version that it quotes. -/
inductive Fault.Restates (version other : Nat) : Fault → Fault → Prop where
  | same (fault : Fault) : Restates version other fault fault
  | ambiguous (record field : String) :
    Restates version other (.ambiguous record field version) (.ambiguous record field other)
  | sharedOrder (record first second : String) (order : Int) :
    Restates version other (.schema (.sharedOrder record first second order version))
      (.schema (.sharedOrder record first second order other))

/-- Of a list of descriptors, the same ones cover both versions. -/
def Versioned.SameCover {δ : Type} [Versioned δ] (version other : Nat) (descriptors : List δ) :
    Prop :=
  ∀ descriptor ∈ descriptors,
    (versions descriptor).covers version = (versions descriptor).covers other

def Schema.SameCover (version other : Nat) : Schema → Prop
  | .fields _ _ declared =>
    ∀ field ∈ declared, Versioned.SameCover version other field.descriptors
  | .packed _ _ _ declared =>
    ∀ field ∈ declared, Versioned.SameCover version other field.descriptors

instance {δ : Type} [Versioned δ] (version other : Nat) (descriptors : List δ) :
    Decidable (Versioned.SameCover version other descriptors) :=
  inferInstanceAs (Decidable (∀ descriptor ∈ descriptors, _ = _))

instance (version other : Nat) : (schema : Schema) → Decidable (schema.SameCover version other)
  | .fields _ _ declared => inferInstanceAs (Decidable (∀ field ∈ declared, _))
  | .packed _ _ _ declared => inferInstanceAs (Decidable (∀ field ∈ declared, _))

namespace Plan

variable {version other : Nat} {δ φ : Type} [Versioned δ]

theorem pairs_select (record field : String) {descriptors : List δ}
    (same : Versioned.SameCover version other descriptors) :
    Except.Pairs Eq (Fault.Restates version other) (select record field descriptors version)
      (select record field descriptors other) := by
  have covering := List.filter_congr same
  unfold select
  rw [covering]
  split
  · exact .ok rfl
  · exact .ok rfl
  · exact .error (.ambiguous record field)

theorem pairs_collect (record : String) {name : φ → String} {descriptors : φ → List δ}
    {check : φ → δ → Except Fault Unit} {declared : List φ}
    (same : ∀ field ∈ declared, Versioned.SameCover version other (descriptors field))
    (position : Nat) :
    Except.Pairs Eq (Fault.Restates version other)
      (collect record version name descriptors check position declared)
      (collect record other name descriptors check position declared) := by
  induction declared generalizing position with
  | nil => exact .ok rfl
  | cons field rest ih =>
    have further := ih fun later member => same later (List.mem_cons_of_mem _ member)
    unfold collect
    refine (pairs_select record (name field) (same field (List.mem_cons_self ..))).bind ?_
    rintro (_ | descriptor) _ rfl
    · exact further (position + 1)
    · refine (Except.pairs_refl .same (check field descriptor)).bind fun _ _ _ => ?_
      refine (further (position + 1)).bind ?_
      rintro others _ rfl
      exact .ok rfl

theorem pairs_checkOrder (record : String) (planned : List (Planned Descriptor)) :
    Except.Pairs Eq (Fault.Restates version other) (checkOrder record version planned)
      (checkOrder record other planned) := by
  unfold checkOrder
  split
  · exact .error (.sharedOrder ..)
  · exact .ok rfl

theorem pairs_ofFields (record : String) {declared : List Field}
    (same : ∀ field ∈ declared, Versioned.SameCover version other field.descriptors) :
    Except.Pairs Eq (Fault.Restates version other) (ofFields record version declared)
      (ofFields record other declared) := by
  refine (pairs_collect record same 0).bind ?_
  rintro found _ rfl
  exact (pairs_checkOrder record _).bind fun _ _ _ => .ok rfl

theorem pairs_ofBits (record : String) (length : Nat) {declared : List BitField}
    (same : ∀ field ∈ declared, Versioned.SameCover version other field.descriptors) :
    Except.Pairs Eq (Fault.Restates version other) (ofBits record version length declared)
      (ofBits record other length declared) := by
  refine (Except.pairs_refl .same (Container.check length)).bind fun _ _ _ => ?_
  refine (pairs_collect record same 0).bind ?_
  rintro found _ rfl
  exact .ok rfl

end Plan

theorem Schema.SameCover.corresponds {version other : Nat} {schema : Schema}
    (same : schema.SameCover version other) :
    schema.Corresponds (Fault.Restates version other) version other := by
  unfold Corresponds resolve
  refine (Except.pairs_refl .same (Plan.checkNames schema)).bind fun _ _ _ => ?_
  cases schema with
  | fields tag name declared =>
    exact (Plan.pairs_ofFields name same).map fun fields _ equal => ⟨equal, rfl⟩
  | packed tag name length declared =>
    exact (Plan.pairs_ofBits name length same).map fun bits _ equal => ⟨rfl, equal⟩

namespace Marshaller

/-- What does not travel at a version makes no difference. Records that agree on the rest are
encoded alike; whatever record is read into keeps, at every depth, what it holds in the fields that
do not travel; and versions that the same descriptors cover, of the record type and of all those
nested in it, are encoded and decoded alike, but for the version that a fault quotes. -/
theorem absent_fields_indifferent (schema : Schema) :
    (∀ version (record other : schema.Record), schema.Agree version record other →
      ∀ (κ : Type) [Sink κ] (marshaller : Marshaller) (plans : PlanCache) (sink : κ),
        Transfer.Ends (fun state state' => state.2 = state'.2) Eq Eq
          (encode schema version record (marshaller, sink))
          (encode schema version other ({ marshaller with plans := plans }, sink))) ∧
    (∀ version (initial : schema.Record) (σ : Type) [Source σ] (marshaller : Marshaller)
        (source : σ) decoded left,
      decode schema version initial (marshaller, source) = .ok decoded left →
        schema.Kept version initial decoded.record) ∧
    ∀ version other, (∀ inner, schema.Nests inner → inner.SameCover version other) →
      (∀ (κ : Type) [Sink κ] (marshaller : Marshaller) (plans : PlanCache) (sink : κ)
          (record : schema.Record),
        Transfer.Ends (fun state state' => state.2 = state'.2) Eq (Fault.Restates version other)
          (encode schema version record (marshaller, sink))
          (encode schema other record ({ marshaller with plans := plans }, sink))) ∧
      ∀ (σ : Type) [Source σ] (marshaller : Marshaller) (plans : PlanCache) (source : σ)
          (initial : schema.Record),
        Transfer.Ends (fun state state' => state.2 = state'.2) Eq (Fault.Restates version other)
          (decode schema version initial (marshaller, source))
          (decode schema other initial ({ marshaller with plans := plans }, source)) := by
  refine ⟨fun version record other agree κ _ marshaller plans sink => ?_,
    fun version initial σ _ marshaller source decoded left ran =>
      (yields_decodeCapturing _ schema version initial _ decoded left ran).kept,
    fun version other covered => ⟨fun κ _ marshaller plans sink record => ?_,
      fun σ _ marshaller plans source initial => ?_⟩⟩
  · exact Peers.ends ⟨rfl, rfl, rfl⟩ (pairs_encode (fun _ => rfl)
      (fun inner _ => inner.corresponds_refl version) agree)
  · exact Peers.ends ⟨rfl, rfl, rfl⟩ (pairs_encode Fault.Restates.same
      (fun inner nests => (covered inner nests).corresponds) (.refl version schema record))
  · have pairs := pairs_decodeCapturing (σ := σ) Fault.Restates.same
      (fun inner nests => (covered inner nests).corresponds) marshaller.settings.captureTree
      marshaller.settings.captureTree initial
    have peers : Peers (marshaller, source) ({ marshaller with plans := plans }, source) :=
      ⟨rfl, rfl, rfl⟩
    have ends := peers.ends (pairs.mono (fun _ _ same => same.eq rfl) fun _ _ => id)
    exact ends

end Marshaller

namespace Sample

def early (dropped : UInt8) (widened : UInt16) (low high clashing : UInt8) : revised.Record :=
  (dropped, widened, (low, high, ()), clashing, ())

theorem agree_early (dropped : UInt8) (widened : UInt16)
    (low high clashing low' high' clashing' : UInt8) :
    revised.Agree 1 (early dropped widened low high clashing)
      (early dropped widened low' high' clashing') := by
  have resolved : revised.resolve 1 = .ok _ := rfl
  intro plan found
  cases resolved.symm.trans found
  intro planned travels
  rcases List.mem_cons.1 travels with rfl | travels
  · rfl
  · rcases List.mem_cons.1 travels with rfl | travels
    · rfl
    · cases travels

theorem sameCover_of_nests (inner : Schema) (nests : schema.Nests inner) : inner.SameCover 1 9 := by
  cases nests with
  | self => decide
  | inside declares found further =>
    simp only [List.mem_cons, List.not_mem_nil, or_false] at declares
    rcases declares with rfl | rfl | rfl
    · cases found
    · cases found
      cases further
      decide
    · cases found

/-- A field that the second version adds, and a record that was revised. -/
def extended : Schema :=
  .fields 10 "Extended"
    [.scalar "later" .uint8 [(Descriptor.ofWire .byte).withVersions [2]],
      .nested "revised" revised [.ofWire .object]]

def extend (later : UInt8) (inner : revised.Record) : extended.Record :=
  (later, inner, ())

end Sample

namespace Marshaller

/-- The first version reads two fields of the nested record, and nothing else is changed. -/
theorem absent_fields_indifferent_revised :
    Transfer.Ends (fun state state' => state.2 = state'.2) Eq Eq
      (encode Sample.revised 1 (Sample.early 5 6 1 2 3) (default, ([] : Bytes)))
      (encode Sample.revised 1 (Sample.early 5 6 7 8 9) (default, ([] : Bytes))) ∧
    (∃ left, decode Sample.extended 1 (Sample.extend 7 (Sample.early 1 2 3 4 9))
        (default, Cursor.ofBytes [5, 6]) =
      .ok ⟨Sample.extend 7 (Sample.early 5 6 3 4 9), none⟩ left) ∧
    Sample.extended.Kept 1 (Sample.extend 7 (Sample.early 1 2 3 4 9))
      (Sample.extend 7 (Sample.early 5 6 3 4 9)) ∧
    Transfer.Ends (fun state state' => state.2 = state'.2) Eq (Fault.Restates 1 9)
      (decode Sample.schema 1 Sample.initial (default, Cursor.ofBytes [1, 2, 0xa3, 0x12]))
      (decode Sample.schema 9 Sample.initial (default, Cursor.ofBytes [1, 2, 0xa3, 0x12])) := by
  obtain ⟨agreeing, -, -⟩ := absent_fields_indifferent Sample.revised
  obtain ⟨-, reading, -⟩ := absent_fields_indifferent Sample.extended
  obtain ⟨-, -, versions⟩ := absent_fields_indifferent Sample.schema
  have read : (decode Sample.extended 1 (Sample.extend 7 (Sample.early 1 2 3 4 9))).answer
      (default, Cursor.ofBytes [5, 6]) =
    .ok ⟨Sample.extend 7 (Sample.early 5 6 3 4 9), none⟩ := rfl
  have ran := Transfer.eq_ok_of_answer read
  exact ⟨agreeing 1 _ _ (Sample.agree_early 5 6 1 2 3 7 8 9) Bytes default .empty [], ⟨_, ran⟩,
    reading 1 _ Cursor default _ _ _ ran,
    (versions 1 9 Sample.sameCover_of_nests).2 Cursor default .empty _ _⟩

end Marshaller

end Wireform
