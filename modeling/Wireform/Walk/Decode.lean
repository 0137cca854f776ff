import Wireform.Codec.Decode
import Wireform.Container.Transfer
import Wireform.Record
import Wireform.Tree
import Wireform.Walk

/-!
Reading a record into what is there already. Fields that do not travel keep what they hold. Where a
tree is kept, it gets a child for every field read, under the name of the field.
-/

namespace Wireform

open Walk

/-- Puts what was read into the tree, where there is one. -/
def Children.graft (name : String) (node : Option Node) (tree : Option Children) :
    Option Children :=
  match tree, node with
  | some children, some node => some (children.insert name node)
  | tree, _ => tree

/-- Starts a tree, if one is to be kept. -/
def Children.start (capture : Bool) : Option Children :=
  if capture then some .nil else none

def BitField.assign (fields : List BitField) (contents : Contents fields) (tree : Option Children)
    (planned : List (Planned BitDescriptor)) (words : List UInt64) :
    Except Fault (Contents fields × Option Children) :=
  (planned.zip words).foldlM
    (fun (contents, tree) (bit, word) => do
      let contents ← assignAt fields contents bit.position (.uint word)
      .ok (contents, Children.graft bit.name (some (.value (.uint word))) tree))
    (contents, tree)

def Value.decode {σ : Type} [Source σ] (setting : Setting) (field : Descriptor) :
    Transfer σ Value := do
  let codec ← Transfer.ofExcept (setting.registry.lookup field.wire)
  codec.decode setting.settings.maxVariableLength field

mutual

def Schema.decode {σ : Type} [Source σ] (setting : Setting) (capture : Bool) :
    (schema : Schema) → schema.Record → Walk σ (schema.Record × Option Children)
  | .fields tag name declared, contents => do
    let plan ← onPlans (setting.settings.plan (.fields tag name declared) setting.version)
    plan.fields.foldlM
      (fun (contents, tree) planned => do
        let (contents, node) ← Field.decodeAt setting capture declared contents planned.position
          planned.descriptor
        return (contents, Children.graft planned.name node tree))
      (contents, Children.start capture)
  | .packed tag name length declared, contents => do
    let plan ← onPlans (setting.settings.plan (.packed tag name length declared) setting.version)
    onStream do
      let words ← Container.decode length (plan.bits.map Planned.descriptor)
      Transfer.ofExcept (BitField.assign declared contents (Children.start capture) plan.bits words)

def Field.decode {σ : Type} [Source σ] (setting : Setting) (capture : Bool) :
    (field : Field) → field.Content → Descriptor → Walk σ (field.Content × Option Node)
  | .scalar _ type _, _, descriptor => onStream do
    let value ← Value.decode setting descriptor
    let content ← Transfer.ofExcept (type.ofValue value)
    return (content, if capture then some (.value value) else none)
  | .nested _ schema _, content, _ => do
    let (content, tree) ← schema.decode setting capture content
    return (content, tree.map Node.object)

/-- Reads the field at a position; past the last one, nothing. -/
def Field.decodeAt {σ : Type} [Source σ] (setting : Setting) (capture : Bool) :
    (fields : List Field) → Field.Contents fields → Nat → Descriptor →
      Walk σ (Field.Contents fields × Option Node)
  | [], contents, _, _ => return (contents, none)
  | field :: _, contents, 0, descriptor => do
    let (content, node) ← field.decode setting capture contents.1 descriptor
    return ((content, contents.2), node)
  | _ :: rest, contents, position + 1, descriptor => do
    let (after, node) ← Field.decodeAt setting capture rest contents.2 position descriptor
    return ((contents.1, after), node)

end

end Wireform
