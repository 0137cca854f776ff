import Wireform.Fault
import Wireform.Ordered

/-!
Which codec carries a wire type. A codec once registered stays, and records have none.
-/

namespace Wireform

/-- What carries each wire type, which may be codecs of an application's own. -/
structure Registry (κ : Type := Codec) where
  /-- Latest registration first. -/
  entries : List (WireType × κ)
  deriving DecidableEq, Repr

namespace Registry

variable {κ : Type}

def empty : Registry κ :=
  ⟨[]⟩

def builtin : Registry :=
  ⟨[(.byte, .byte), (.word, .word), (.dword, .dword), (.bytes, .bytes), (.bcd, .bcd),
    (.string, .string)]⟩

def find? (registry : Registry κ) (wire : WireType) : Option κ :=
  registry.entries.lookup wire

def contains (registry : Registry κ) (wire : WireType) : Bool :=
  (registry.find? wire).isSome

def lookup (registry : Registry κ) (wire : WireType) : Except Fault κ :=
  match registry.find? wire with
  | some codec => .ok codec
  | none => .error (.unsupported (.unregistered wire))

theorem lookup_eq_ok {registry : Registry κ} {wire : WireType} {codec : κ} :
    registry.lookup wire = .ok codec ↔ registry.find? wire = some codec := by
  unfold lookup
  cases registry.find? wire <;> simp

def register (registry : Registry κ) (wire : WireType) (codec : κ) : Except Fault (Registry κ) :=
  if wire = .object then .error (.unsupported .object)
  else if registry.contains wire then .error (.unsupported (.registered wire))
  else .ok ⟨(wire, codec) :: registry.entries⟩

def size (registry : Registry κ) : Nat :=
  registry.entries.length

def isEmpty (registry : Registry κ) : Bool :=
  registry.entries.isEmpty

theorem find?_register {registry grown : Registry κ} {wire : WireType} {codec : κ}
    (accepted : registry.register wire codec = .ok grown) (other : WireType) :
    grown.find? other = if other = wire then some codec else registry.find? other := by
  unfold register at accepted
  split at accepted
  · cases accepted
  · split at accepted
    · cases accepted
    · cases accepted
      by_cases same : other = wire
      · simp [find?, same]
      · simp [find?, List.lookup_cons, beq_false_of_ne same, same]

/-- Names of the wire types carried, in ascending order. -/
def names (registry : Registry κ) : List String :=
  Ordered.sort (fun a b => decide (a ≤ b)) (registry.entries.map (·.1.name))

def describe (registry : Registry κ) : String :=
  "CodecRegistry \x7b codecs: " ++ Text.quotedList registry.names ++ " \x7d"

end Registry

end Wireform
