import LiveMarkup.Text.Hidden

/-!
# Quotations

Names in messages are quoted, so that a name that is empty or holds a line break can still be read off the message.
-/

namespace LiveMarkup.Text

/-- A character as it stands inside a quotation. -/
def quotedChar (c : Char) : List Char :=
  if c = '\x22' then ['\\', '\x22']
  else if c = '\\' then ['\\', '\\']
  else if c = '\n' then ['\\', 'n']
  else if c = '\r' then ['\\', 'r']
  else if c = '\t' then ['\\', 't']
  else if c = '\x00' then ['\\', '0']
  else if isHidden c then "\\u\x7b".toList ++ Nat.toDigits 16 c.toNat ++ ['\x7d']
  else [c]

/-- The text between quotation marks, with what could not be read off the page written as an escape. -/
def quoted (s : String) : String :=
  "\"" ++ String.ofList (s.toList.flatMap quotedChar) ++ "\""

end LiveMarkup.Text
