import Wireform.Fault

/-!
Actions on a stream. An action either answers or fails, and in both cases says where it left the
stream.
-/

namespace Wireform

abbrev Transfer (σ α : Type) := EStateM Fault σ α

/-- Where the bytes of a record come from. -/
class Source (σ : Type) where
  /-- Bytes at hand, where the source can tell; a read checks for itself. -/
  available? : σ → Option Nat
  /-- Reads exactly so many bytes. -/
  readExactly : Nat → Transfer σ Bytes
  /-- Reads past the next separator, with at most `limit` bytes in front of it. -/
  readUntil : UInt8 → Nat → Transfer σ Bytes
  /-- Reads all that is left, at most `limit` bytes. -/
  readRemaining : Nat → Transfer σ Bytes

/-- Where the bytes of a record go. -/
class Sink (κ : Type) where
  writeAll : Bytes → Transfer κ Unit

namespace Transfer

/-- What an action answers, from a given state. -/
def answer {σ α : Type} (act : Transfer σ α) (state : σ) : Except Fault α :=
  match act state with
  | .ok a _ => .ok a
  | .error fault _ => .error fault

/-- The state that an action leaves, whether it answers or fails. -/
def left {σ α : Type} (act : Transfer σ α) (state : σ) : σ :=
  match act state with
  | .ok _ rest => rest
  | .error _ rest => rest

/-- The answer of a computation that touches no stream. -/
def ofExcept {σ α : Type} (answer : Except Fault α) : Transfer σ α :=
  match answer with
  | .ok a => pure a
  | .error fault => throw fault

/-- Runs an action on a part of a larger state. -/
def focus {σ τ α : Type} (part : τ → σ) (put : σ → τ → τ) (act : Transfer σ α) :
    Transfer τ α :=
  fun whole =>
    match act (part whole) with
    | .ok a rest => .ok a (put rest whole)
    | .error fault rest => .error fault (put rest whole)

/-- Runs an action on a state, and wraps up the state it leaves. -/
def within {σ τ α : Type} (act : Transfer σ α) (wrap : σ → τ) (state : σ) :
    EStateM.Result Fault τ α :=
  match act state with
  | .ok a rest => .ok a (wrap rest)
  | .error fault rest => .error fault (wrap rest)

end Transfer

end Wireform
