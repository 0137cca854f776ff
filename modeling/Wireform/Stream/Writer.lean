import Wireform.Stream.Transfer

/-!
Sinks. Bytes in memory take everything; a writer takes what it likes of each piece offered, as its
script says, and may be interrupted or fail.
-/

namespace Wireform

instance : Sink Bytes where
  writeAll data := modify (· ++ data)

instance : Sink ByteArray where
  writeAll data := modify fun written => data.foldl ByteArray.push written

namespace Writer

inductive Event where
  /-- Takes at most so many bytes of what is offered. -/
  | accept (limit : Nat)
  | interrupt
  | failure (message : String)
  deriving DecidableEq, Repr

structure Delivered where
  taken : Bytes
  failure : Option String
  script : List Event
  deriving DecidableEq, Repr

def Delivered.after (front : Bytes) (delivered : Delivered) : Delivered :=
  { delivered with taken := front ++ delivered.taken }

/-- Offers `data` until all of it is taken; a writer that takes none of it has failed. Past the end
of the script everything is taken. -/
def deliver (data : Bytes) (script : List Event) : Delivered :=
  if data.isEmpty then ⟨[], none, script⟩
  else
    match script with
    | [] => ⟨data, none, []⟩
    | .accept 0 :: rest => ⟨[], some "failed to write whole buffer", rest⟩
    | .accept limit :: rest => (deliver (data.drop limit) rest).after (data.take limit)
    | .interrupt :: rest => deliver data rest
    | .failure message :: rest => ⟨[], some message, rest⟩

end Writer

structure Writer where
  script : List Writer.Event
  /-- All that was taken, also in writes that failed. -/
  received : Bytes
  /-- Bytes of the writes that went through. -/
  counted : Nat
  /-- What flushing fails with, if it does. -/
  flushFailure : Option String
  deriving DecidableEq, Repr

namespace Writer

def ofScript (script : List Event) (flushFailure : Option String) : Writer :=
  ⟨script, [], 0, flushFailure⟩

def writeAll (data : Bytes) : Transfer Writer Unit := fun writer =>
  let delivered := deliver data writer.script
  let received := writer.received ++ delivered.taken
  match delivered.failure with
  | some message =>
    .error (.io message) { writer with script := delivered.script, received := received }
  | none =>
    .ok () { writer with
      script := delivered.script
      received := received
      counted := writer.counted + data.length }

def flush : Transfer Writer Unit := fun writer =>
  match writer.flushFailure with
  | some message => .error (.io message) writer
  | none => .ok () writer

end Writer

instance : Sink Writer where
  writeAll := Writer.writeAll

end Wireform
