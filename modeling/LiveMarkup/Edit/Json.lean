import LiveMarkup.Markup.Json
import LiveMarkup.Edit.Names

/-!
# Edits as JSON

A list of edits is written as an array of objects, each with the verb of its edit and its fields. Reading takes the fields
in any order, ignores others, and takes an array of the verb and the fields in their fixed order as well. Faults are
reported in the order of the text, but names are looked at last.
-/

namespace LiveMarkup

open Json

/-- A path as JSON. -/
def Path.toJson (p : Path) : Json :=
  .array (p.map Json.ofNat)

namespace Edit

/-- An edit as JSON. -/
def toJson (e : Edit) : Json :=
  .object (("op", .string e.verb) ::
    match e with
    | setAttributes path attributes =>
      [("path", path.toJson), ("attributes", .array (attributes.map Attribute.toJson))]
    | setText path text => [("path", path.toJson), ("text", .string text)]
    | append parent tree => [("parent", parent.toJson), ("node", tree.toJson)]
    | remove path => [("path", path.toJson)]
    | replace path tree => [("path", path.toJson), ("node", tree.toJson)])

/-- A list of edits as JSON text. -/
def encode (edits : List Edit) : String :=
  (Json.array (edits.map toJson)).compact

/-- What an edit does, without saying where and with what. -/
inductive Kind
  | setAttributes
  | setText
  | append
  | remove
  | replace
deriving DecidableEq, Repr

/-- What a field of an edit holds. -/
inductive Field
  | path
  | attributes
  | text
  | tree
deriving DecidableEq, Repr

namespace Kind

/-- The kind with a verb. -/
def ofJson : Json → Except ReadError Kind
  | .string verb =>
    if verb = "set_attributes" then .ok setAttributes
    else if verb = "set_text" then .ok setText
    else if verb = "append" then .ok append
    else if verb = "remove" then .ok remove
    else if verb = "replace" then .ok replace
    else .error .malformed
  | _ => .error .malformed

/-- The fields of an edit of this kind with their names, in their fixed order. -/
def fields : Kind → List (String × Field)
  | setAttributes => [("path", .path), ("attributes", .attributes)]
  | setText => [("path", .path), ("text", .text)]
  | append => [("parent", .path), ("node", .tree)]
  | remove => [("path", .path)]
  | replace => [("path", .path), ("node", .tree)]

end Kind

/-- The fields of an edit that have been read. -/
structure Draft where
  path : Option Path
  attributes : Option (List Attribute)
  text : Option String
  tree : Option Tree
deriving Repr

namespace Draft

/-- No fields. -/
def empty : Draft := ⟨none, none, none, none⟩

/-- Whether a field has been read. -/
def has (d : Draft) : Field → Bool
  | .path => d.path.isSome
  | .attributes => d.attributes.isSome
  | .text => d.text.isSome
  | .tree => d.tree.isSome

/-- Reads one field, which may not have been read before. -/
def put (d : Draft) (f : Field) (v : Json) : Except ReadError Draft :=
  if d.has f then .error .malformed
  else match f with
  | .path => do
    let path ← toList? toNat? v
    .ok { d with path := some path }
  | .attributes => do
    let attributes ← toList? Attribute.ofJson v
    .ok { d with attributes := some attributes }
  | .text => do
    let text ← toString? v
    .ok { d with text := some text }
  | .tree => do
    let tree ← Tree.ofJson v
    .ok { d with tree := some tree }

/-- Reads fields in order. -/
def putAll (d : Draft) : List (Field × Json) → Except ReadError Draft
  | [] => .ok d
  | (f, v) :: rest =>
    match d.put f v with
    | .error e => .error e
    | .ok d => d.putAll rest

/-- The edit of a kind, once all its fields have been read. -/
def finish (d : Draft) (kind : Kind) : Except ReadError Edit :=
  match kind, d with
  | .setAttributes, ⟨some path, some attributes, _, _⟩ => .ok (.setAttributes path attributes)
  | .setText, ⟨some path, _, some text, _⟩ => .ok (.setText path text)
  | .append, ⟨some path, _, _, some tree⟩ => .ok (.append path tree)
  | .remove, ⟨some path, _, _, _⟩ => .ok (.remove path)
  | .replace, ⟨some path, _, _, some tree⟩ => .ok (.replace path tree)
  | _, _ => .error .malformed

end Draft

/-- Reads an edit. -/
def ofJson : Json → Except ReadError Edit
  | .object members => do
    let kind ← required Kind.ofJson "op" members
    let draft ← Draft.empty.putAll (members.filterMap fun (key, v) => (Keyed.find? key kind.fields).map (·, v))
    draft.finish kind
  | .array (verb :: items) => do
    let kind ← Kind.ofJson verb
    let draft ← Draft.empty.putAll ((kind.fields.map Prod.snd).zip items)
    let edit ← draft.finish kind
    if items.length ≤ kind.fields.length then .ok edit else .error .malformed
  | _ => .error .malformed

/-- Reads a text that holds edits, whatever names they write. -/
def ofText (text : List Char) : Except ReadError (List Edit) := do
  let r := Items.ofText text
  let edits ← r.items.mapM ofJson
  if r.closed && r.alone then .ok edits else .error .malformed

/-- Reads a text that holds edits with legal names. -/
def decode (text : List Char) : Except ReadError (List Edit) := do
  let edits ← ofText text
  checkNames 0 edits
  .ok edits

end Edit

end LiveMarkup
