import Wireform.Assignment
import Wireform.Schema

/-!
Records of a record type: one entry for each declared field, in the order of declaration.
-/

namespace Wireform

/-- The bit-fields of a packed record. -/
def BitField.Contents : List BitField → Type
  | [] => Unit
  | field :: rest => field.type.Carrier × BitField.Contents rest

mutual

def Schema.Record : Schema → Type
  | .fields _ _ declared => Field.Contents declared
  | .packed _ _ _ declared => BitField.Contents declared

def Field.Content : Field → Type
  | .scalar _ type _ => type.Carrier
  | .nested _ schema _ => schema.Record

def Field.Contents : List Field → Type
  | [] => Unit
  | field :: rest => field.Content × Field.Contents rest

end

namespace BitField

def blanks : (fields : List BitField) → Contents fields
  | [] => ()
  | field :: rest => (field.type.blank, blanks rest)

/-- Value of the bit-field at a position; past the last one, zero. -/
def valueAt : (fields : List BitField) → Contents fields → Nat → Value
  | [], _, _ => .uint 0
  | field :: _, contents, 0 => field.type.toValue contents.1
  | _ :: rest, contents, position + 1 => valueAt rest contents.2 position

def assignAt : (fields : List BitField) → Contents fields → Nat → Value →
    Except Fault (Contents fields)
  | [], contents, _, _ => .ok contents
  | field :: _, contents, 0, value =>
    (field.type.ofValue value).map fun content => (content, contents.2)
  | _ :: rest, contents, position + 1, value =>
    (assignAt rest contents.2 position value).map fun after => (contents.1, after)

end BitField

mutual

/-- A record of zeros and of nothing, for types that start from no other. -/
def Schema.blank : (schema : Schema) → schema.Record
  | .fields _ _ declared => Field.blanks declared
  | .packed _ _ _ declared => BitField.blanks declared

def Field.blank : (field : Field) → field.Content
  | .scalar _ type _ => type.blank
  | .nested _ schema _ => schema.blank

def Field.blanks : (fields : List Field) → Field.Contents fields
  | [] => ()
  | field :: rest => (field.blank, Field.blanks rest)

end

end Wireform
