import Wireform.Stream.Cursor
import Wireform.Stream.Reader
import Wireform.Stream.Writer

/-!
A source or a sink of which the kind is known only when it is used.
-/

namespace Wireform

inductive SomeSource where
  | cursor (cursor : Cursor)
  | bytes (unread : Bytes)
  | reader (reader : Reader)
  deriving DecidableEq, Repr

def SomeSource.run {α : Type} (act : (σ : Type) → [Source σ] → Transfer σ α) :
    Transfer SomeSource α
  | cursor inner => (act Cursor).within cursor inner
  | bytes inner => (act Bytes).within bytes inner
  | reader inner => (act Reader).within reader inner

instance : Source SomeSource where
  available?
    | .cursor inner => Source.available? inner
    | .bytes inner => Source.available? inner
    | .reader inner => Source.available? inner
  readExactly n := SomeSource.run fun _ => Source.readExactly n
  readUntil separator limit := SomeSource.run fun _ => Source.readUntil separator limit
  readRemaining limit := SomeSource.run fun _ => Source.readRemaining limit

inductive SomeSink where
  | bytes (written : Bytes)
  | array (written : ByteArray)
  | writer (writer : Writer)

instance : Sink SomeSink where
  writeAll data
    | .bytes inner => (Sink.writeAll data).within .bytes inner
    | .array inner => (Sink.writeAll data).within .array inner
    | .writer inner => (Sink.writeAll data).within .writer inner

/-- What is in memory has nothing to flush. -/
def SomeSink.flush : Transfer SomeSink Unit
  | .writer inner => Writer.flush.within .writer inner
  | sink => .ok () sink

namespace SomeSink

def received : SomeSink → Bytes
  | bytes written => written
  | array written => written.toList
  | writer inner => inner.received

def counted? : SomeSink → Option Nat
  | writer inner => some inner.counted
  | _ => none

end SomeSink

end Wireform
