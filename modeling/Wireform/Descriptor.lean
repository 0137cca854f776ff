import Wireform.VersionSet
import Wireform.WireType

/-!
Wire rules of one field, and of one bit-field inside a packed container.
-/

namespace Wireform

structure Descriptor where
  name : String
  wire : WireType
  /-- Declared length in bytes, where there is one. -/
  length : Option Nat
  mode : LengthMode
  /-- Place among the fields that travel with it; lower goes first. -/
  order : Int
  /-- Matters to text alone. -/
  charset : Charset
  versions : VersionSet
  deriving DecidableEq

namespace Descriptor

/-- A field of its natural width, in every version. -/
def ofWire (wire : WireType) : Descriptor where
  name := ""
  wire := wire
  length := wire.width?
  mode := .fixed
  order := 0
  charset := .utf8
  versions := .all

def withLength (field : Descriptor) (length : Nat) : Descriptor :=
  { field with length := some length }

def sized (wire : WireType) (length : Nat) : Descriptor :=
  (ofWire wire).withLength length

/-- Delimits the span in another way; a span that is not fixed has no declared length. -/
def withMode (field : Descriptor) (mode : LengthMode) : Descriptor :=
  { field with
    mode := mode
    length := if mode = .fixed then field.length else none }

def withOrder (field : Descriptor) (order : Int) : Descriptor :=
  { field with order := order }

def withCharset (field : Descriptor) (charset : Charset) : Descriptor :=
  { field with charset := charset }

def withVersions (field : Descriptor) (versions : List Nat) : Descriptor :=
  { field with versions := .ofList versions }

def named (field : Descriptor) (name : String) : Descriptor :=
  { field with name := name }

end Descriptor

instance : Versioned Descriptor where
  versions := Descriptor.versions

/-- A span of bits, counted from the least significant bit of the container. -/
structure BitDescriptor where
  name : String
  offset : Nat
  length : Nat
  versions : VersionSet
  deriving DecidableEq

namespace BitDescriptor

def ofSpan (offset length : Nat) : BitDescriptor where
  name := ""
  offset := offset
  length := length
  versions := .all

def withVersions (field : BitDescriptor) (versions : List Nat) : BitDescriptor :=
  { field with versions := .ofList versions }

def named (field : BitDescriptor) (name : String) : BitDescriptor :=
  { field with name := name }

end BitDescriptor

instance : Versioned BitDescriptor where
  versions := BitDescriptor.versions

end Wireform
