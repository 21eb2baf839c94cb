import LiveMarkup.Edit.Error

/-!
# Names that edits write

A list of edits is fit to be carried out only if every name that it would write can be read back from printed markup. The
first name that cannot, in the order in which the edits would write them, is reported with the number of its edit.
-/

namespace LiveMarkup

/-- The names of a list of attributes. -/
def Attribute.names (attributes : List Attribute) : List (NameKind × QName) :=
  attributes.map fun a => (.attributeName, a.name)

/-- The names in a forest, in document order. -/
def Forest.names : Forest → List (NameKind × QName)
  | nil => []
  | leaf _ next => next.names
  | element name attributes children next =>
    (.elementName, name) :: (Attribute.names attributes ++ (children.names ++ next.names))

namespace Edit

/-- The names that an edit would write. -/
def names : Edit → List (NameKind × QName)
  | setAttributes _ attributes => Attribute.names attributes
  | append _ tree => tree.forest.names
  | replace _ tree => tree.forest.names
  | setText _ _ => []
  | remove _ => []

/-- Checks the names of edits, the first of which has a number. -/
def checkNames : Nat → List Edit → Except ReadError Unit
  | _, [] => .ok ()
  | number, e :: rest =>
    match e.names.find? fun entry => !entry.2.isLegal with
    | some (kind, name) => .error (.illegalName number kind name)
    | none => checkNames (number + 1) rest

end Edit

end LiveMarkup
