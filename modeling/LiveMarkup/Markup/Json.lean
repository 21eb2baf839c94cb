import LiveMarkup.Json.Reader
import LiveMarkup.Text.Utf8
import LiveMarkup.Edit.Error

/-!
# Trees as JSON

A tree is written as the array of its records. A record is an object that gives its kind and its fields, and leaves out
what is empty: a namespace, a list of attributes, a number of children that is zero. Reading takes the fields in any order,
ignores others, and takes an array of the kind and the fields in their fixed order as well.
-/

namespace LiveMarkup

namespace Json

/-- A natural number as JSON. -/
def ofNat (n : Nat) : Json :=
  .number (.integer n)

/-- A member that is left out when there is nothing to say. -/
def memberUnless (empty : Bool) (key : String) (value : Json) : List (String × Json) :=
  if empty then [] else [(key, value)]

/-- The string that a value is. -/
def toString? : Json → Except ReadError String
  | string s => .ok s
  | _ => .error .malformed

/-- The natural number that a value is. -/
def toNat? : Json → Except ReadError Nat
  | number (.integer (.ofNat n)) => .ok n
  | _ => .error .malformed

/-- The list that a value is, each item read. -/
def toList? {α : Type} (read : Json → Except ReadError α) : Json → Except ReadError (List α)
  | array items => items.mapM read
  | _ => .error .malformed

/-- The value of the only member with a key, if there is one. -/
def member? (key : String) (members : List (String × Json)) : Except ReadError (Option Json) :=
  match members.filter (·.1 = key) with
  | [] => .ok none
  | [(_, v)] => .ok (some v)
  | _ => .error .malformed

/-- A field that every record of its kind has. -/
def required {α : Type} (read : Json → Except ReadError α) (key : String) (members : List (String × Json)) :
    Except ReadError α := do
  match ← member? key members with
  | some v => read v
  | none => .error .malformed

/-- A field that is empty when it is left out. -/
def optional {α : Type} (read : Json → Except ReadError α) (absent : α) (key : String)
    (members : List (String × Json)) : Except ReadError α := do
  match ← member? key members with
  | some v => read v
  | none => .ok absent

/-- The fields of a record written as an array, with their names. -/
def named (keys : List String) (items : List Json) : Except ReadError (List (String × Json)) :=
  if items.length ≤ keys.length then .ok (keys.zip items) else .error .malformed

/-- The characters that bytes write. What is not UTF-8 reads as a null character, which no JSON text may hold. -/
def sourceOfBytes (bytes : List UInt8) : List Char :=
  let (s, whole) := Text.decodeUtf8 bytes
  if whole then s else s ++ ['\x00']

end Json

open Json

/-- An attribute as JSON. -/
def Attribute.toJson (a : Attribute) : Json :=
  .object (memberUnless a.name.space.isEmpty "namespace" (.string a.name.space) ++
    [("name", .string a.name.base), ("value", .string a.value)])

/-- Reads the fields of an attribute. -/
def Attribute.ofMembers (members : List (String × Json)) : Except ReadError Attribute := do
  let space ← optional toString? "" "namespace" members
  let base ← required toString? "name" members
  let value ← optional toString? "" "value" members
  .ok ⟨⟨space, base⟩, value⟩

/-- Reads an attribute. -/
def Attribute.ofJson : Json → Except ReadError Attribute
  | .object members => Attribute.ofMembers members
  | .array items => do Attribute.ofMembers (← named ["namespace", "name", "value"] items)
  | _ => .error .malformed

namespace Record

/-- A record as JSON. -/
def toJson : Record → Json
  | element name attributes children =>
    .object ([("kind", .string "element")] ++ memberUnless name.space.isEmpty "namespace" (.string name.space) ++
      [("tag", .string name.base)] ++
      memberUnless attributes.isEmpty "attributes" (.array (attributes.map Attribute.toJson)) ++
      memberUnless (children == 0) "children" (.ofNat children))
  | leaf text => .object [("kind", .string "leaf"), ("text", .string text)]

/-- Reads the kind of a record: whether it is an element. Inside an edit a kind may also be given by its number. -/
def kindOfJson (numbered : Bool) : Json → Except ReadError Bool
  | .string s => if s = "element" then .ok true else if s = "leaf" then .ok false else .error .malformed
  | .number (.integer 0) => if numbered then .ok true else .error .malformed
  | .number (.integer 1) => if numbered then .ok false else .error .malformed
  | _ => .error .malformed

/-- Reads the fields of an element or a text. -/
def ofMembers (isElement : Bool) (members : List (String × Json)) : Except ReadError Record :=
  if isElement then do
    let space ← optional toString? "" "namespace" members
    let base ← required toString? "tag" members
    let attributes ← optional (toList? Attribute.ofJson) [] "attributes" members
    let children ← optional toNat? 0 "children" members
    .ok (.element ⟨space, base⟩ attributes children)
  else do
    let text ← required toString? "text" members
    .ok (.leaf text)

/-- The names of the fields, in their fixed order. -/
def fields (isElement : Bool) : List String :=
  if isElement then ["namespace", "tag", "attributes", "children"] else ["text"]

/-- Reads a record. -/
def ofJson (numbered : Bool) : Json → Except ReadError Record
  | .object members => do
    let isElement ← required (kindOfJson numbered) "kind" members
    ofMembers isElement members
  | .array (kind :: items) => do
    let isElement ← kindOfJson numbered kind
    ofMembers isElement (← named (fields isElement) items)
  | _ => .error .malformed

/-- The tree with this listing, or why there is none. -/
def readTree (records : List Record) : Except ReadError Tree :=
  match read records with
  | .ok t => .ok t
  | .error e => .error (.listing e)

end Record

namespace Tree

/-- A tree as JSON. -/
def toJson (t : Tree) : Json :=
  .array (t.records.map Record.toJson)

/-- Reads a tree that stands inside an edit. -/
def ofJson (v : Json) : Except ReadError Tree := do
  Record.readTree (← toList? (Record.ofJson true) v)

/-- Reads a text that holds one tree. The listing is looked at before what follows it. -/
def ofText (text : List Char) : Except ReadError Tree := do
  let r := Items.ofText text
  let records ← r.items.mapM (Record.ofJson false)
  if r.closed then
    let t ← Record.readTree records
    if r.alone then .ok t else .error .malformed
  else .error .malformed

end Tree

end LiveMarkup
