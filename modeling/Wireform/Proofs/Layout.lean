import Mathlib.Data.List.Forall2
import Wireform.Marshaller

/-!
A record laid flat. A plan names the fields that travel; where one of them is a nested record, the
plan of that record at the same version takes its place, down to the leaves: scalar fields, and the
containers of packed records. A record type that has no plan cuts the list short with its fault.
-/

namespace Wireform

/-- A piece that travels on its own, with what is known of the fields in it. -/
inductive Leaf (κ : Type) where
  | scalar (descriptor : Descriptor) (known : κ)
  | packed (record : String) (length : Nat) (bits : List (Planned BitDescriptor × κ))

/-- A field type together with what a field of that type holds. -/
structure Held where
  type : FieldType
  content : type.Carrier

namespace Held

def value (held : Held) : Value :=
  held.type.toValue held.content

def ofValue (type : FieldType) (value : Value) : Except Fault Held :=
  (type.ofValue value).map (Held.mk type)

end Held

namespace Leaf

def map {κ μ : Type} (f : κ → μ) : Leaf κ → Leaf μ
  | scalar descriptor known => scalar descriptor (f known)
  | packed record length bits => packed record length (bits.map fun (bit, known) => (bit, f known))

/-- The leaves of a plan, or the fault that stands for them. -/
def ofPlan {κ : Type} (answer : Except Fault Plan) (leaves : Plan → List (Except Fault (Leaf κ))) :
    List (Except Fault (Leaf κ)) :=
  match answer with
  | .ok plan => leaves plan
  | .error fault => [.error fault]

end Leaf

namespace BitField

def heldAt : (fields : List BitField) → Contents fields → Nat → Held
  | [], _, _ => ⟨.value, .uint 0⟩
  | field :: _, contents, 0 => ⟨field.type, contents.1⟩
  | _ :: rest, contents, position + 1 => heldAt rest contents.2 position

def typeAt (fields : List BitField) (position : Nat) : FieldType :=
  (fields[position]?.map BitField.type).getD .value

theorem value_heldAt (fields : List BitField) (contents : Contents fields) (position : Nat) :
    (heldAt fields contents position).value = valueAt fields contents position := by
  induction fields generalizing position with
  | nil => rfl
  | cons field rest ih =>
    cases position with
    | zero => rfl
    | succ position => exact ih contents.2 position

theorem type_heldAt (fields : List BitField) (contents : Contents fields) (position : Nat) :
    (heldAt fields contents position).type = typeAt fields position := by
  induction fields generalizing position with
  | nil => rfl
  | cons field rest ih =>
    cases position with
    | zero => rfl
    | succ position =>
      rw [heldAt, ih]
      rfl

end BitField

mutual

/-- The leaves of a record, with what they hold. -/
def Schema.leaves (version : Nat) :
    (schema : Schema) → schema.Record → List (Except Fault (Leaf Held))
  | .fields tag name declared, record =>
    Leaf.ofPlan ((Schema.fields tag name declared).resolve version) fun plan =>
      plan.fields.flatMap fun planned =>
        Field.leavesAt version declared record planned.position planned.descriptor
  | .packed tag name length declared, record =>
    Leaf.ofPlan ((Schema.packed tag name length declared).resolve version) fun plan =>
      [.ok (.packed name length
        (plan.bits.map fun bit => (bit, BitField.heldAt declared record bit.position)))]

def Field.leaves (version : Nat) :
    (field : Field) → field.Content → Descriptor → List (Except Fault (Leaf Held))
  | .scalar _ type _, content, descriptor => [.ok (.scalar descriptor ⟨type, content⟩)]
  | .nested _ schema _, content, _ => schema.leaves version content

def Field.leavesAt (version : Nat) :
    (fields : List Field) → Field.Contents fields → Nat → Descriptor →
      List (Except Fault (Leaf Held))
  | [], _, _, _ => []
  | field :: _, contents, 0, descriptor => field.leaves version contents.1 descriptor
  | _ :: rest, contents, position + 1, descriptor =>
    Field.leavesAt version rest contents.2 position descriptor

end

mutual

/-- The leaves of any record of a type, with the types of their fields. -/
def Schema.layout (version : Nat) : Schema → List (Except Fault (Leaf FieldType))
  | .fields tag name declared =>
    Leaf.ofPlan ((Schema.fields tag name declared).resolve version) fun plan =>
      plan.fields.flatMap fun planned =>
        Field.layoutAt version declared planned.position planned.descriptor
  | .packed tag name length declared =>
    Leaf.ofPlan ((Schema.packed tag name length declared).resolve version) fun plan =>
      [.ok (.packed name length
        (plan.bits.map fun bit => (bit, BitField.typeAt declared bit.position)))]

def Field.layout (version : Nat) : Field → Descriptor → List (Except Fault (Leaf FieldType))
  | .scalar _ type _, descriptor => [.ok (.scalar descriptor type)]
  | .nested _ schema _, _ => schema.layout version

def Field.layoutAt (version : Nat) :
    List Field → Nat → Descriptor → List (Except Fault (Leaf FieldType))
  | [], _, _ => []
  | field :: _, 0, descriptor => field.layout version descriptor
  | _ :: rest, position + 1, descriptor => Field.layoutAt version rest position descriptor

end

def Leaf.types (step : Except Fault (Leaf Held)) : Except Fault (Leaf FieldType) :=
  step.map (Leaf.map Held.type)

mutual

theorem Schema.types_leaves (version : Nat) : (schema : Schema) → (record : schema.Record) →
    (schema.leaves version record).map Leaf.types = schema.layout version
  | .fields tag name declared, record => by
    simp only [Schema.leaves, Schema.layout]
    cases (Schema.fields tag name declared).resolve version with
    | error fault => rfl
    | ok plan =>
      simp only [Leaf.ofPlan, List.map_flatMap]
      congr 1
      funext planned
      exact Field.types_leavesAt version declared record planned.position planned.descriptor
  | .packed tag name length declared, record => by
    simp only [Schema.leaves, Schema.layout]
    cases (Schema.packed tag name length declared).resolve version with
    | error fault => rfl
    | ok plan =>
      have same (position : Nat) := BitField.type_heldAt declared record position
      simp only [Leaf.ofPlan, List.map_cons, List.map_nil, Leaf.types, Except.map, Leaf.map,
        List.map_map, Function.comp_def, same]

theorem Field.types_leaves (version : Nat) : (field : Field) → (content : field.Content) →
    (descriptor : Descriptor) →
    (field.leaves version content descriptor).map Leaf.types = field.layout version descriptor
  | .scalar .., _, _ => rfl
  | .nested _ schema _, content, _ => schema.types_leaves version content

theorem Field.types_leavesAt (version : Nat) : (fields : List Field) →
    (contents : Field.Contents fields) → (position : Nat) → (descriptor : Descriptor) →
    (Field.leavesAt version fields contents position descriptor).map Leaf.types =
      Field.layoutAt version fields position descriptor
  | [], _, _, _ => rfl
  | field :: _, contents, 0, descriptor => field.types_leaves version contents.1 descriptor
  | _ :: rest, contents, position + 1, descriptor =>
    Field.types_leavesAt version rest contents.2 position descriptor

end

namespace Schema

variable {version : Nat} {schema : Schema} {fault : Fault}

theorem leaves_of_unplanned (unplanned : schema.resolve version = .error fault)
    (record : schema.Record) : schema.leaves version record = [.error fault] := by
  cases schema with
  | fields tag name declared => simp only [leaves, unplanned, Leaf.ofPlan]
  | packed tag name length declared => simp only [leaves, unplanned, Leaf.ofPlan]

theorem layout_of_unplanned (unplanned : schema.resolve version = .error fault) :
    schema.layout version = [.error fault] := by
  rw [← schema.types_leaves version schema.blank, leaves_of_unplanned unplanned]
  rfl

end Schema

namespace Sample

def flags : Schema :=
  .packed 1 "Flags" 1
    [⟨"low", .uint8, [.ofSpan 0 4]⟩, ⟨"high", .uint8, [.ofSpan 4 4]⟩]

/-- A small record type with a leaf of each shape, declared in the reverse of its wire order. -/
def schema : Schema :=
  .fields 0 "Sample"
    [.scalar "digits" .string [(Descriptor.sized .bcd 1).withOrder 2],
      .nested "flags" flags [(Descriptor.ofWire .object).withOrder 1],
      .scalar "id" .uint16 [.ofWire .word]]

def record (digits : String) (low high : UInt8) (id : UInt16) : schema.Record :=
  (digits, (low, high, ()), id, ())

def initial : schema.Record :=
  record "9" 1 2 3

end Sample

end Wireform
