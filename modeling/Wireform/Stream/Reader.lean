import Wireform.Stream.Transfer

/-!
A source that hands its bytes out in chunks, as they come, and may be interrupted, end or fail in
between. What it will do is a script of events. A reader never takes more than it was asked for,
and counts the bytes it took.
-/

namespace Wireform

namespace Reader

inductive Event where
  | chunk (data : Bytes)
  /-- The end is reported once; a later read goes on. -/
  | endOfData
  /-- Nothing happens, and the read is tried again. -/
  | interrupt
  | failure (message : String)
  deriving DecidableEq, Repr

inductive Outcome where
  | complete
  | ended
  | failed (message : String)
  deriving DecidableEq, Repr

structure Gathered where
  bytes : Bytes
  outcome : Outcome
  held : Bytes
  script : List Event
  deriving DecidableEq, Repr

def Gathered.before (front : Bytes) (gathered : Gathered) : Gathered :=
  { gathered with bytes := front ++ gathered.bytes }

/-- Takes `wanted` bytes, first of those at hand, then of the events to come. -/
def gather (wanted : Nat) (held : Bytes) (script : List Event) : Gathered :=
  let front := held.take wanted
  if front.length = wanted then ⟨front, .complete, held.drop wanted, script⟩
  else
    match script with
    | [] => ⟨held, .ended, [], []⟩
    | .chunk data :: rest => (gather (wanted - front.length) data rest).before held
    | .endOfData :: rest => ⟨held, .ended, [], rest⟩
    | .interrupt :: rest => (gather (wanted - front.length) [] rest).before held
    | .failure message :: rest => ⟨held, .failed message, [], rest⟩

end Reader

structure Reader where
  /-- Bytes of the last chunk that have not been taken. -/
  held : Bytes
  script : List Reader.Event
  consumed : Nat
  deriving DecidableEq, Repr

namespace Reader

def ofScript (script : List Event) : Reader :=
  ⟨[], script, 0⟩

def unread (reader : Reader) : Bytes :=
  reader.held ++ reader.script.flatMap fun
    | .chunk data => data
    | _ => []

/-- Takes up to `wanted` bytes. A failure drops those that came before it, uncounted. -/
def take (wanted : Nat) : Transfer Reader Bytes := fun reader =>
  let gathered := gather wanted reader.held reader.script
  match gathered.outcome with
  | .failed message => .error (.io message) ⟨gathered.held, gathered.script, reader.consumed⟩
  | _ =>
    .ok gathered.bytes
      ⟨gathered.held, gathered.script, reader.consumed + gathered.bytes.length⟩

def readExactly (n : Nat) : Transfer Reader Bytes := do
  let bytes ← take n
  if bytes.length < n then throw (.insufficient n bytes.length) else return bytes

/-- Takes bytes one at a time until a separator comes; `room` more may come before it, `seen` holds
those that did, last one first. -/
def readUntilFrom (separator : UInt8) (limit : Nat) : Nat → Bytes → Transfer Reader Bytes
  | room, seen => do
    let byte := (← readExactly 1).headD separator
    if byte = separator then return seen.reverse
    match room with
    | 0 => throw (.length (.noSeparator limit))
    | room + 1 => readUntilFrom separator limit room (byte :: seen)

def readRemaining (limit : Nat) : Transfer Reader Bytes := do
  let bytes ← take (limit + 1)
  if limit < bytes.length then throw (.length (.remaining bytes.length limit)) else return bytes

end Reader

instance : Source Reader where
  available? _ := none
  readExactly := Reader.readExactly
  readUntil separator limit := Reader.readUntilFrom separator limit limit []
  readRemaining := Reader.readRemaining

end Wireform
