import Wireform.Text.Hex

/-!
JSON text without blanks. Strings escape the quote, the backslash and the ASCII controls, and keep
every other character.
-/

namespace Wireform.Text.Json

def escape (c : Char) : List Char :=
  if c = '"' then ['\\', '"']
  else if c = '\\' then ['\\', '\\']
  else if c = '\x08' then ['\\', 'b']
  else if c = '\x0c' then ['\\', 'f']
  else if c = '\n' then ['\\', 'n']
  else if c = '\r' then ['\\', 'r']
  else if c = '\t' then ['\\', 't']
  else if c.toNat < 0x20 then "\\u00".toList ++ Hex.ofByte (UInt8.ofNat c.toNat)
  else [c]

def string (text : String) : String :=
  String.ofList ('"' :: text.toList.flatMap escape ++ ['"'])

def array (members : List String) : String :=
  "[" ++ ",".intercalate members ++ "]"

/-- Members keep the order given. -/
def object (members : List (String × String)) : String :=
  "\x7b" ++ ",".intercalate (members.map fun (name, value) => string name ++ ":" ++ value) ++ "\x7d"

end Wireform.Text.Json
