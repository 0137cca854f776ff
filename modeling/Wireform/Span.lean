import Wireform.BigEndian
import Wireform.Descriptor
import Wireform.Stream.Transfer

/-!
The span of a field on the wire: how its length is known, and what stands around its data. A span
that is not fixed holds at most `limit` bytes.
-/

namespace Wireform.Span

def fixedLength (field : Descriptor) : Except Fault Nat :=
  match field.length with
  | some length => .ok length
  | none => .error (.schema (.noLength (.field field.name)))

def checkCount (place : Place) (width : Nat) : Except Fault Unit :=
  if LengthMode.countWidths.contains width then .ok ()
  else .error (.schema (.countWidth place width))

/-- Reads `n` bytes; a source that knows it has fewer is not asked for them. -/
def readFixed {σ : Type} [Source σ] (n : Nat) : Transfer σ Bytes := do
  match Source.available? (← get) with
  | some available =>
    if available < n then throw (.insufficient n available) else Source.readExactly n
  | none => Source.readExactly n

def read {σ : Type} [Source σ] (limit : Nat) (field : Descriptor) : Transfer σ Bytes :=
  match field.mode with
  | .fixed => do readFixed (← Transfer.ofExcept (fixedLength field))
  | .counted width => do
    Transfer.ofExcept (checkCount (.field field.name) width)
    let length := (BigEndian.ofBytes (← readFixed width)).toNat
    if limit < length then throw (.length (.announced field.name length limit))
    else readFixed length
  | .terminated separator => Source.readUntil separator limit
  | .remaining => Source.readRemaining limit

def checkLimit (limit : Nat) (field : Descriptor) (data : Bytes) : Except Fault Unit :=
  if limit < data.length then .error (.length (.overLimit field.name data.length limit)) else .ok ()

/-- The pieces to write for `data`, in order. Data of a fixed span stands as it is. -/
def frame (limit : Nat) (field : Descriptor) (data : Bytes) : Except Fault (List Bytes) :=
  match field.mode with
  | .fixed => .ok [data]
  | .counted width => do
    checkCount (.field field.name) width
    if limit < data.length ∨ Nat.pow 256 width ≤ data.length then
      .error (.length (.uncountable field.name data.length width limit))
    else .ok [BigEndian.toBytes width (UInt64.ofNat data.length), data]
  | .terminated separator => do
    checkLimit limit field data
    if data.contains separator then .error (.encoding (.separator field.name separator))
    else .ok [data, [separator]]
  | .remaining => do
    checkLimit limit field data
    .ok [data]

def write {κ : Type} [Sink κ] (pieces : List Bytes) : Transfer κ Nat := do
  pieces.forM Sink.writeAll
  return pieces.flatten.length

def send {κ : Type} [Sink κ] (limit : Nat) (field : Descriptor) (data : Bytes) :
    Transfer κ Nat := do
  write (← Transfer.ofExcept (frame limit field data))

end Wireform.Span
