import Wireform.Codec.Frame
import Wireform.Container.Transfer
import Wireform.Record
import Wireform.Walk

/-!
Writing a record. Each answer is the number of bytes written.
-/

namespace Wireform

open Walk

def BitField.words (record : String) (fields : List BitField) (contents : Contents fields)
    (planned : List (Planned BitDescriptor)) : Except Fault (List (BitDescriptor × UInt64)) :=
  planned.mapM fun bit =>
    match valueAt fields contents bit.position with
    | .uint word => .ok (bit.descriptor, word)
    | other => .error (.unsupported (.bits record bit.name other.kind))

def Value.encode {κ : Type} [Sink κ] (setting : Setting) (field : Descriptor) (value : Value) :
    Transfer κ Nat := do
  let codec ← Transfer.ofExcept (setting.registry.lookup field.wire)
  codec.encode setting.settings.maxVariableLength field value

mutual

def Schema.encode {κ : Type} [Sink κ] (setting : Setting) :
    (schema : Schema) → schema.Record → Walk κ Nat
  | .fields tag name declared, contents => do
    let plan ← onPlans (setting.settings.plan (.fields tag name declared) setting.version)
    plan.fields.foldlM
      (fun written planned => do
        return written +
          (← Field.encodeAt setting declared contents planned.position planned.descriptor))
      0
  | .packed tag name length declared, contents => do
    let plan ← onPlans (setting.settings.plan (.packed tag name length declared) setting.version)
    onStream do
      Container.encode length
        (← Transfer.ofExcept (BitField.words name declared contents plan.bits))

def Field.encode {κ : Type} [Sink κ] (setting : Setting) :
    (field : Field) → field.Content → Descriptor → Walk κ Nat
  | .scalar _ type _, content, descriptor =>
    onStream ((type.toValue content).encode setting descriptor)
  | .nested _ schema _, content, _ => schema.encode setting content

/-- Writes the field at a position; past the last one, nothing. -/
def Field.encodeAt {κ : Type} [Sink κ] (setting : Setting) :
    (fields : List Field) → Field.Contents fields → Nat → Descriptor → Walk κ Nat
  | [], _, _, _ => return 0
  | field :: _, contents, 0, descriptor => field.encode setting contents.1 descriptor
  | _ :: rest, contents, position + 1, descriptor =>
    Field.encodeAt setting rest contents.2 position descriptor

end

end Wireform
