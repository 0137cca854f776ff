import Wireform.Descriptor
import Wireform.FieldType
import Wireform.Text.Quoted

/-!
Record types: what fields a record has, and under which wire rules each of them travels. A record
either travels field by field or as one packed container of bit-fields. A field may carry several
descriptors, for different versions; each goes by the name of its field.
-/

namespace Wireform

/-- A bit-field of a packed record. -/
structure BitField where
  name : String
  type : FieldType
  declared : List BitDescriptor
  deriving DecidableEq

mutual

/-- A record type. Types declared alike are told apart by their tag. -/
inductive Schema where
  | fields (tag : Nat) (name : String) (declared : List Field)
  | packed (tag : Nat) (name : String) (length : Nat) (declared : List BitField)

inductive Field where
  | scalar (name : String) (type : FieldType) (declared : List Descriptor)
  | nested (name : String) (schema : Schema) (declared : List Descriptor)

end

namespace BitField

def descriptors (field : BitField) : List BitDescriptor :=
  field.declared.map (·.named field.name)

end BitField

namespace Field

def name : Field → String
  | scalar name .. => name
  | nested name .. => name

def descriptors : Field → List Descriptor
  | scalar name _ declared => declared.map (·.named name)
  | nested name _ declared => declared.map (·.named name)

end Field

namespace Schema

def name : Schema → String
  | fields _ name _ => name
  | packed _ name .. => name

/-- Container length of a packed record. -/
def packedLength? : Schema → Option Nat
  | fields .. => none
  | packed _ _ length _ => some length

def fieldNames : Schema → List String
  | fields _ _ declared => declared.map Field.name
  | packed _ _ _ declared => declared.map BitField.name

def describe (schema : Schema) : String :=
  let length :=
    match schema.packedLength? with
    | some length => "Some(" ++ toString length ++ ")"
    | none => "None"
  "RecordSchema \x7b name: " ++ Text.quoted schema.name ++ ", packed_length: " ++ length ++
    ", fields: " ++ Text.quotedList schema.fieldNames ++ " \x7d"

end Schema

mutual

def Schema.decEq : (a b : Schema) → Decidable (a = b)
  | .fields tag name declared, .fields tag' name' declared' =>
    if head : tag = tag' ∧ name = name' then
      match Field.decEqList declared declared' with
      | isTrue same => isTrue (by rw [head.1, head.2, same])
      | isFalse different => isFalse fun same => different (Schema.fields.inj same).2.2
    else isFalse fun same => head ⟨(Schema.fields.inj same).1, (Schema.fields.inj same).2.1⟩
  | .packed tag name length declared, .packed tag' name' length' declared' =>
    if same : tag = tag' ∧ name = name' ∧ length = length' ∧ declared = declared' then
      isTrue (by obtain ⟨rfl, rfl, rfl, rfl⟩ := same; rfl)
    else isFalse fun equal => same (Schema.packed.inj equal)
  | .fields .., .packed .. => isFalse nofun
  | .packed .., .fields .. => isFalse nofun

def Field.decEq : (a b : Field) → Decidable (a = b)
  | .scalar name type declared, .scalar name' type' declared' =>
    if same : name = name' ∧ type = type' ∧ declared = declared' then
      isTrue (by obtain ⟨rfl, rfl, rfl⟩ := same; rfl)
    else isFalse fun equal => same (Field.scalar.inj equal)
  | .nested name schema declared, .nested name' schema' declared' =>
    if head : name = name' ∧ declared = declared' then
      match Schema.decEq schema schema' with
      | isTrue same => isTrue (by rw [head.1, head.2, same])
      | isFalse different => isFalse fun same => different (Field.nested.inj same).2.1
    else isFalse fun same => head ⟨(Field.nested.inj same).1, (Field.nested.inj same).2.2⟩
  | .scalar .., .nested .. => isFalse nofun
  | .nested .., .scalar .. => isFalse nofun

def Field.decEqList : (as bs : List Field) → Decidable (as = bs)
  | [], [] => isTrue rfl
  | a :: as, b :: bs =>
    match Field.decEq a b with
    | isTrue same =>
      match Field.decEqList as bs with
      | isTrue rest => isTrue (by rw [same, rest])
      | isFalse different => isFalse fun equal => different (List.cons.inj equal).2
    | isFalse different => isFalse fun equal => different (List.cons.inj equal).1
  | [], _ :: _ => isFalse nofun
  | _ :: _, [] => isFalse nofun

end

instance : DecidableEq Schema :=
  Schema.decEq

instance : DecidableEq Field :=
  Field.decEq

end Wireform
