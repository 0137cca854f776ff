import Wireform.Stream.Transfer

/-!
Bytes in memory as a source. Bytes by themselves are read from the front and shrink; a cursor keeps
them all and moves along. A read that fails moves nothing.
-/

namespace Wireform

namespace Unread

def exactly (unread : Bytes) (n : Nat) : Except Fault (Bytes × Bytes) :=
  let front := unread.take n
  if front.length = n then .ok (front, unread.drop n)
  else .error (.insufficient n front.length)

/-- Splits off the bytes before the first separator, which is dropped. -/
def upTo (unread : Bytes) (separator : UInt8) (limit : Nat) : Except Fault (Bytes × Bytes) :=
  let (front, rest) := unread.span (· != separator)
  match rest with
  | [] => .error (.insufficient (unread.length + 1) unread.length)
  | _ :: rest =>
    if limit < front.length then .error (.length (.noSeparator limit)) else .ok (front, rest)

def everything (unread : Bytes) (limit : Nat) : Except Fault (Bytes × Bytes) :=
  if limit < unread.length then .error (.length (.remaining unread.length limit))
  else .ok (unread, [])

end Unread

def Bytes.readFront (split : Bytes → Except Fault (Bytes × Bytes)) : Transfer Bytes Bytes :=
  fun unread =>
    match split unread with
    | .ok (front, rest) => .ok front rest
    | .error fault => .error fault unread

instance : Source Bytes where
  available? unread := some unread.length
  readExactly n := Bytes.readFront (Unread.exactly · n)
  readUntil separator limit := Bytes.readFront (Unread.upTo · separator limit)
  readRemaining limit := Bytes.readFront (Unread.everything · limit)

structure Cursor where
  data : Bytes
  position : Nat
  deriving DecidableEq, Repr

namespace Cursor

def ofBytes (data : Bytes) : Cursor :=
  ⟨data, 0⟩

def unread (cursor : Cursor) : Bytes :=
  cursor.data.drop cursor.position

def isEmpty (cursor : Cursor) : Bool :=
  cursor.data.length ≤ cursor.position

def advance (split : Bytes → Except Fault (Bytes × Bytes)) : Transfer Cursor Bytes :=
  fun cursor =>
    match split cursor.unread with
    | .ok (front, rest) => .ok front { cursor with position := cursor.data.length - rest.length }
    | .error fault => .error fault cursor

end Cursor

instance : Source Cursor where
  available? cursor := some (cursor.data.length - cursor.position)
  readExactly n := Cursor.advance (Unread.exactly · n)
  readUntil separator limit := Cursor.advance (Unread.upTo · separator limit)
  readRemaining limit := Cursor.advance (Unread.everything · limit)

end Wireform
