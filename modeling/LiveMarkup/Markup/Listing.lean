import LiveMarkup.Markup.Forest

/-!
# Flat listings of trees

A tree travels as the list of its nodes in document order, each element with the number of its children. `Forest.records`
writes the listing; `Record.read` is the way back, and refuses every list that is not the listing of exactly one tree.
-/

namespace LiveMarkup

/-- One node of a listing. -/
inductive Record
  | element (name : QName) (attributes : List Attribute) (children : Nat)
  | leaf (text : String)
deriving DecidableEq, Repr, Inhabited

/-- Why a list of records is not the listing of one tree. -/
inductive ListingError
  /-- A record follows the last node of the tree. -/
  | outside (position : Nat)
  /-- The children announced up to this record are more than the records after it. -/
  | truncated (position : Nat)
  /-- There are no records. -/
  | empty
deriving DecidableEq, Repr

/-- The text of the error. -/
def ListingError.message : ListingError → String
  | outside position => s!"node {position} lies outside the subtree"
  | truncated position => s!"node {position} announces more children than follow it"
  | empty => "empty subtree"

/-- The nodes of a forest in document order. -/
def Forest.records : Forest → List Record
  | nil => []
  | leaf text next => .leaf text :: next.records
  | element name attributes children next =>
    .element name attributes children.length :: (children.records ++ next.records)

/-- The nodes of a tree in document order. -/
def Tree.records (t : Tree) : List Record :=
  t.forest.records

namespace Record

/-- The number of children that a record announces. -/
def children : Record → Nat
  | element _ _ count => count
  | leaf _ => 0

/-- Checks a listing from one position on: `owed` nodes have been announced and not listed yet. -/
def check : (position owed : Nat) → List Record → Except ListingError Unit
  | _, 0, [] => .ok ()
  | _, _ + 1, [] => .error .empty
  | position, 0, _ :: _ => .error (.outside position)
  | position, owed + 1, record :: rest =>
    let next := owed + record.children
    if next ≤ rest.length then check (position + 1) next rest else .error (.truncated position)

/-- The trees that a list of records builds up, read from its end: an element takes the trees that its children left. -/
def build : List Record → List Tree
  | [] => []
  | leaf text :: rest => .leaf text :: build rest
  | element name attributes count :: rest =>
    let trees := build rest
    .element name attributes (.ofList (trees.take count)) :: trees.drop count

/-- The tree with this listing. -/
def read (records : List Record) : Except ListingError Tree :=
  match check 0 1 records with
  | .error e => .error e
  | .ok () =>
    match build records with
    | t :: _ => .ok t
    | [] => .error .empty

end Record

end LiveMarkup
