import Wireform.Text.Json
import Wireform.Text.Quoted

/-!
What a field holds on its way to or from the wire.
-/

namespace Wireform

inductive Value.Kind where
  | uint
  | bytes
  | text
  | digits
  deriving DecidableEq, Repr

def Value.Kind.name : Kind → String
  | uint => "uint"
  | bytes => "bytes"
  | text => "text"
  | digits => "digits"

inductive Value where
  | uint (word : UInt64)
  | bytes (data : Bytes)
  | text (content : String)
  /-- Hexadecimal digits, two of which travel in a byte. -/
  | digits (content : String)
  deriving DecidableEq, Repr

namespace Value

def kind : Value → Kind
  | uint _ => .uint
  | bytes _ => .bytes
  | text _ => .text
  | digits _ => .digits

def uint? : Value → Option UInt64
  | uint word => some word
  | _ => none

def bytes? : Value → Option Bytes
  | bytes data => some data
  | _ => none

def content? : Value → Option String
  | text content | digits content => some content
  | _ => none

/-- One line of text, for reports. -/
def display : Value → String
  | uint word =>
    toString word.toNat ++ " (0x" ++ String.ofList (Text.Hex.upperOfNat word.toNat) ++ ")"
  | bytes data =>
    "[" ++ " ".intercalate (data.map fun byte => String.ofList (Text.Hex.ofByte byte)) ++ "]"
  | text content => Text.quoted content
  | digits content => content

def json : Value → String
  | uint word => toString word.toNat
  | bytes data => Text.Json.array (data.map fun byte => toString byte.toNat)
  | text content | digits content => Text.Json.string content

end Value

end Wireform
