import Wireform.Width

/-!
UTF-8, read one byte at a time. A character is a lead byte and its tail bytes; the lead fixes how
many tail bytes follow and the range of the first of them, which rules out surrogates, long forms
and code points past the last one.
-/

namespace Wireform.Text.Utf8

inductive Fault where
  /-- A sequence that starts at `index` is broken after `length` bytes. -/
  | invalid (length index : Nat)
  /-- The bytes end inside the sequence that starts at `index`. -/
  | incomplete (index : Nat)
  deriving DecidableEq, Repr

/-- A character of which `missing` tail bytes have not been read; the next one lies in
`low ..= high`. -/
structure Pending where
  missing : Nat
  low : UInt8
  high : UInt8
  read : Nat
  code : Nat
  deriving DecidableEq, Repr

/-- What the lead byte of a character of two or more bytes promises. -/
def Pending.ofLead? (byte : UInt8) : Option Pending :=
  let code (offset : Nat) := byte.toNat - offset
  if 0xc2 ≤ byte ∧ byte ≤ 0xdf then some ⟨1, 0x80, 0xbf, 1, code 0xc0⟩
  else if byte = 0xe0 then some ⟨2, 0xa0, 0xbf, 1, code 0xe0⟩
  else if byte = 0xed then some ⟨2, 0x80, 0x9f, 1, code 0xe0⟩
  else if 0xe1 ≤ byte ∧ byte ≤ 0xef then some ⟨2, 0x80, 0xbf, 1, code 0xe0⟩
  else if byte = 0xf0 then some ⟨3, 0x90, 0xbf, 1, code 0xf0⟩
  else if byte = 0xf4 then some ⟨3, 0x80, 0x8f, 1, code 0xf0⟩
  else if 0xf1 ≤ byte ∧ byte ≤ 0xf3 then some ⟨3, 0x80, 0xbf, 1, code 0xf0⟩
  else none

/-- Reads on at byte `index`, with the characters before it, last one first, and the character
begun. -/
def decodeFrom : Nat → List Char → Option Pending → Bytes → Except Fault (List Char)
  | _, done, none, [] => .ok done.reverse
  | index, _, some begun, [] => .error (.incomplete (index - begun.read))
  | index, done, none, byte :: rest =>
    if byte < 0x80 then decodeFrom (index + 1) (Char.ofNat byte.toNat :: done) none rest
    else
      match Pending.ofLead? byte with
      | none => .error (.invalid 1 index)
      | some begun => decodeFrom (index + 1) done (some begun) rest
  | index, done, some begun, byte :: rest =>
    if begun.low ≤ byte ∧ byte ≤ begun.high then
      let code := begun.code * 64 + (byte.toNat - 0x80)
      if begun.missing ≤ 1 then decodeFrom (index + 1) (Char.ofNat code :: done) none rest
      else
        decodeFrom (index + 1) done
          (some ⟨begun.missing - 1, 0x80, 0xbf, begun.read + 1, code⟩) rest
    else .error (.invalid begun.read (index - begun.read))

def decode (bytes : Bytes) : Except Fault (List Char) :=
  decodeFrom 0 [] none bytes

def encode (text : List Char) : Bytes :=
  text.flatMap String.utf8EncodeChar

end Wireform.Text.Utf8
