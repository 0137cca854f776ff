import Wireform.Container
import Wireform.Ordered
import Wireform.Schema
import Wireform.Span

/-!
The plan of a record type for one version: the fields that travel, each with the one descriptor
that covers the version, in the order in which they travel. A record type that leaves any of this
open, or contradicts itself, has no plan.
-/

namespace Wireform

/-- A field that travels: its place in the declaration, its name, and its wire rules. -/
structure Planned (δ : Type) where
  position : Nat
  name : String
  descriptor : δ
  deriving DecidableEq

/-- A packed record plans bit-fields, any other record fields. -/
structure Plan where
  record : String
  version : Nat
  fields : List (Planned Descriptor)
  bits : List (Planned BitDescriptor)
  deriving DecidableEq

namespace Plan

def fieldNames (plan : Plan) : List String :=
  plan.fields.map Planned.name ++ plan.bits.map Planned.name

def size (plan : Plan) : Nat :=
  plan.fieldNames.length

def isEmpty (plan : Plan) : Bool :=
  plan.fieldNames.isEmpty

def describe (plan : Plan) : String :=
  "ResolvedFieldPlan \x7b record: " ++ Text.quoted plan.record ++ ", version: " ++
    toString plan.version ++ ", fields: " ++ Text.quotedList plan.fieldNames ++ " \x7d"

/-- The one descriptor that covers a version, if there is any. -/
def select {δ : Type} [Versioned δ] (record field : String) (descriptors : List δ)
    (version : Nat) : Except Fault (Option δ) :=
  match descriptors.filter fun descriptor => (Versioned.versions descriptor).covers version with
  | [] => .ok none
  | [descriptor] => .ok (some descriptor)
  | _ => .error (.ambiguous record field version)

/-- The first name that was there before. -/
def firstRepeat? (seen : List String) : List String → Option String
  | [] => none
  | name :: rest => if seen.contains name then some name else firstRepeat? (name :: seen) rest

def checkNames (schema : Schema) : Except Fault Unit :=
  match firstRepeat? [] schema.fieldNames with
  | some name => .error (.schema (.repeated schema.name name))
  | none => .ok ()

def checkShape (record : String) (field : Field) (descriptor : Descriptor) : Except Fault Unit :=
  match field with
  | .scalar name .. =>
    if descriptor.wire = .object then .error (.schema (.scalarObject record name)) else .ok ()
  | .nested name schema _ =>
    if descriptor.wire = .object then
      match schema.packedLength?, descriptor.length with
      | some length, some declared =>
        if length = declared then .ok ()
        else .error (.length (.packed record name declared schema.name length))
      | _, _ => .ok ()
    else .error (.schema (.nestedScalar record name descriptor.wire))

/-- The span of a field can be told from its descriptor. -/
def checkSpan (record field : String) (descriptor : Descriptor) : Except Fault Unit :=
  match descriptor.mode with
  | .fixed =>
    if descriptor.length = none ∧ descriptor.wire ≠ .object then
      .error (.schema (.noLength (.member record field)))
    else .ok ()
  | .counted width => Span.checkCount (.member record field) width
  | .terminated _ | .remaining => .ok ()

def checkField (record : String) (field : Field) (descriptor : Descriptor) : Except Fault Unit := do
  checkShape record field descriptor
  checkSpan record field.name descriptor

def collect {φ δ : Type} [Versioned δ] (record : String) (version : Nat) (name : φ → String)
    (descriptors : φ → List δ) (check : φ → δ → Except Fault Unit) :
    Nat → List φ → Except Fault (List (Planned δ))
  | _, [] => .ok []
  | position, field :: rest => do
    match ← select record (name field) (descriptors field) version with
    | none => collect record version name descriptors check (position + 1) rest
    | some descriptor =>
      check field descriptor
      let others ← collect record version name descriptors check (position + 1) rest
      .ok (⟨position, name field, descriptor⟩ :: others)

def firstTie? : List (Planned Descriptor) → Option (Planned Descriptor × Planned Descriptor)
  | first :: second :: rest =>
    if first.descriptor.order = second.descriptor.order then some (first, second)
    else firstTie? (second :: rest)
  | _ => none

def checkOrder (record : String) (version : Nat) (planned : List (Planned Descriptor)) :
    Except Fault Unit :=
  match firstTie? planned with
  | some (first, second) =>
    .error (.schema (.sharedOrder record first.name second.name first.descriptor.order version))
  | none => .ok ()

def ofFields (record : String) (version : Nat) (declared : List Field) :
    Except Fault (List (Planned Descriptor)) := do
  let found ← collect record version Field.name Field.descriptors (checkField record) 0 declared
  let planned := Ordered.sort (fun a b => decide (a.descriptor.order ≤ b.descriptor.order)) found
  checkOrder record version planned
  .ok planned

def ofBits (record : String) (version length : Nat) (declared : List BitField) :
    Except Fault (List (Planned BitDescriptor)) := do
  Container.check length
  let found ← collect record version BitField.name BitField.descriptors
    (fun _ => Container.checkSpan length) 0 declared
  .ok (Ordered.sort (fun a b => decide (a.descriptor.offset ≤ b.descriptor.offset)) found)

end Plan

def Schema.resolve (schema : Schema) (version : Nat) : Except Fault Plan := do
  Plan.checkNames schema
  match schema with
  | .fields _ name declared =>
    (Plan.ofFields name version declared).map fun fields => ⟨name, version, fields, []⟩
  | .packed _ name length declared =>
    (Plan.ofBits name version length declared).map fun bits => ⟨name, version, [], bits⟩

end Wireform
