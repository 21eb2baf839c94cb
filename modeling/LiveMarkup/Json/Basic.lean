import LiveMarkup.Json.Number
import LiveMarkup.Keyed

/-!
# JSON values

A JSON value keeps the members of an object in the order in which they were read, repeated keys included. `Json.compact`
writes a value without spaces.
-/

namespace LiveMarkup

/-- A JSON value. -/
inductive Json
  | null
  | bool (b : Bool)
  | number (n : Json.Number)
  | string (s : String)
  | array (items : List Json)
  | object (members : List (String × Json))
deriving Repr, Inhabited

namespace Json

/-- A digit in base sixteen, in lower case. -/
def hexDigit (n : Nat) : Char :=
  Nat.digitChar (n % 16)

/-- A character as it is written inside a string. -/
def escapeChar (c : Char) : List Char :=
  if c = '\x22' then ['\\', '\x22']
  else if c = '\\' then ['\\', '\\']
  else if c = '\x08' then ['\\', 'b']
  else if c = '\x0c' then ['\\', 'f']
  else if c = '\n' then ['\\', 'n']
  else if c = '\r' then ['\\', 'r']
  else if c = '\t' then ['\\', 't']
  else if c.toNat < 0x20 then ['\\', 'u', '0', '0', hexDigit (c.toNat / 16), hexDigit c.toNat]
  else [c]

/-- A string in its quotation marks. -/
def writeString (s : String) : String :=
  "\"" ++ String.ofList (s.toList.flatMap escapeChar) ++ "\""

mutual

/-- The value written without spaces. -/
def compact : Json → String
  | null => "null"
  | bool true => "true"
  | bool false => "false"
  | number n => n.written
  | string s => writeString s
  | array [] => "[]"
  | array (item :: rest) => "[" ++ item.compact ++ compactItems rest
  | object [] => "\x7b\x7d"
  | object ((key, value) :: rest) => "\x7b" ++ writeString key ++ ":" ++ value.compact ++ compactMembers rest

/-- The items after the first, and the end of the array. -/
def compactItems : List Json → String
  | [] => "]"
  | item :: rest => "," ++ item.compact ++ compactItems rest

/-- The members after the first, and the end of the object. -/
def compactMembers : List (String × Json) → String
  | [] => "\x7d"
  | (key, value) :: rest => "," ++ writeString key ++ ":" ++ value.compact ++ compactMembers rest

end

mutual

/-- The value with the members of every object in the order of their keys; of members with one key the last stays. -/
def sorted : Json → Json
  | array items => .array (sortedItems items)
  | object members => .object (Keyed.insertAll [] (sortedMembers members))
  | v => v

/-- Each item with its members sorted. -/
def sortedItems : List Json → List Json
  | [] => []
  | item :: rest => item.sorted :: sortedItems rest

/-- Each member with its own members sorted. -/
def sortedMembers : List (String × Json) → List (String × Json)
  | [] => []
  | (key, value) :: rest => (key, value.sorted) :: sortedMembers rest

end

/-- Whether the value is an array. -/
def isArray : Json → Bool
  | array _ => true
  | _ => false

end Json

end LiveMarkup
