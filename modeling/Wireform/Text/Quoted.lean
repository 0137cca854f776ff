import Wireform.Text.Extending
import Wireform.Text.Hex
import Wireform.Text.Printable

/-!
Text in quotes, for reports. A character that would not be seen, or would join its neighbour, is
written by its code point, so a quoted text stands on one line.
-/

namespace Wireform.Text

def codePoint (c : Char) : List Char :=
  "\\u\x7b".toList ++ Hex.ofNat c.toNat ++ ['\x7d']

/-- The halfwidth sound marks extend the letter before them, but fill a cell of their own. -/
def isHalfwidthMark (c : Char) : Bool :=
  c = '\uff9e' || c = '\uff9f'

/-- Whether a character cannot be told from what is around it by looking. -/
def isHidden (c : Char) : Bool :=
  !isPrintable c || (isExtending c && !isHalfwidthMark c)

/-- A character as it is written between two marks `mark`. -/
def escape (mark c : Char) : List Char :=
  if c = '\x00' then ['\\', '0']
  else if c = '\t' then ['\\', 't']
  else if c = '\r' then ['\\', 'r']
  else if c = '\n' then ['\\', 'n']
  else if c = '\\' then ['\\', '\\']
  else if c = mark then ['\\', mark]
  else if 0x20 ≤ c.toNat ∧ c.toNat < 0x7f then [c]
  else if isHidden c then codePoint c
  else [c]

def quoted (text : String) : String :=
  String.ofList ('"' :: text.toList.flatMap (escape '"') ++ ['"'])

def quotedChar (c : Char) : String :=
  String.ofList ('\'' :: escape '\'' c ++ ['\''])

def quotedList (texts : List String) : String :=
  "[" ++ ", ".intercalate (texts.map quoted) ++ "]"

end Wireform.Text
