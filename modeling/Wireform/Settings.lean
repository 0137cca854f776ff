import Wireform.Fault

/-!
What a marshaller may be told, and what it does when told nothing.
-/

namespace Wireform

/-- Version of this library. -/
def version : String :=
  "0.1.0"

structure Settings where
  /-- Keep a tree of the values of every record read. -/
  captureTree : Bool
  /-- Bytes that a span which is not fixed may hold. -/
  maxVariableLength : Nat
  /-- Keep plans once they are resolved. -/
  cachePlans : Bool
  deriving DecidableEq, Repr

namespace Settings

/-- No tree, spans of up to 64 KiB, plans kept. -/
def default : Settings where
  captureTree := false
  maxVariableLength := 64 * 1024
  cachePlans := true

def withCaptureTree (settings : Settings) (enabled : Bool) : Settings :=
  { settings with captureTree := enabled }

def withMaxVariableLength (settings : Settings) (bytes : Nat) : Settings :=
  { settings with maxVariableLength := bytes }

def withCachePlans (settings : Settings) (enabled : Bool) : Settings :=
  { settings with cachePlans := enabled }

def checked (settings : Settings) : Except Fault Settings :=
  if settings.maxVariableLength = 0 then .error .zeroLimit else .ok settings

end Settings

end Wireform
