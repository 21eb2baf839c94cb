import LiveMarkup.Markup.Name

/-!
# Forests

What stands between two tags is an ordered forest of nodes: texts, and elements with their own forests below them.
`Forest` has one constructor for each way a forest can begin, with the siblings that follow as its last argument; a `Tree`
is one node with all below it. `Forest.toList` and `Forest.ofList` show a forest as the list of its trees.
-/

namespace LiveMarkup

/-- The nodes below one node, in document order. -/
inductive Forest
  /-- No nodes. -/
  | nil
  /-- A text, and its later siblings. -/
  | leaf (text : String) (next : Forest)
  /-- An element with the forest below it, and its later siblings. -/
  | element (name : QName) (attributes : List Attribute) (children next : Forest)
deriving DecidableEq, Repr, Inhabited

/-- One node with everything below it. -/
inductive Tree
  | leaf (text : String)
  | element (name : QName) (attributes : List Attribute) (children : Forest)
deriving DecidableEq, Repr, Inhabited

namespace Forest

/-- The forest that begins with a tree. -/
def cons : Tree → Forest → Forest
  | .leaf text, next => leaf text next
  | .element name attributes children, next => element name attributes children next

/-- The nodes of one forest, then those of another. -/
def append : Forest → Forest → Forest
  | nil, g => g
  | leaf text next, g => leaf text (next.append g)
  | element name attributes children next, g => element name attributes children (next.append g)

instance : Append Forest := ⟨append⟩

/-- The trees of a forest, in order. -/
def toList : Forest → List Tree
  | nil => []
  | leaf text next => .leaf text :: next.toList
  | element name attributes children next => .element name attributes children :: next.toList

/-- The forest of a list of trees. -/
def ofList (trees : List Tree) : Forest :=
  trees.foldr cons nil

/-- The number of nodes at the top of the forest. -/
def length : Forest → Nat
  | nil => 0
  | leaf _ next => next.length + 1
  | element _ _ _ next => next.length + 1

/-- The number of nodes of the forest at every depth. -/
def size : Forest → Nat
  | nil => 0
  | leaf _ next => next.size + 1
  | element _ _ children next => children.size + next.size + 1

/-- The trees of a forest that begins with a tree. -/
@[simp] theorem toList_cons (t : Tree) (f : Forest) : (cons t f).toList = t :: f.toList := by
  cases t <;> rfl

/-- A forest is made of its trees. -/
@[simp] theorem ofList_toList (f : Forest) : ofList f.toList = f := by
  induction f with
  | nil => rfl
  | leaf text next ih => simpa [toList, ofList, cons] using ih
  | element name attributes children next _ ih => simpa [toList, ofList, cons] using ih

/-- The trees of a forest are those it was made of. -/
@[simp] theorem toList_ofList (trees : List Tree) : (ofList trees).toList = trees := by
  induction trees with
  | nil => rfl
  | cons t trees ih => simpa [ofList] using ih

/-- A forest has as many trees as nodes at its top. -/
@[simp] theorem length_toList (f : Forest) : f.toList.length = f.length := by
  induction f with
  | nil => rfl
  | leaf _ _ ih => simp [toList, length, ih]
  | element _ _ _ _ _ ih => simp [toList, length, ih]

end Forest

namespace Tree

/-- The forest that holds one tree. -/
def forest (t : Tree) : Forest :=
  .cons t .nil

/-- The number of nodes of the tree. -/
def size (t : Tree) : Nat :=
  t.forest.size

/-- The element with one more attribute at the end; a text stays as it is. -/
def withAttribute (t : Tree) (a : Attribute) : Tree :=
  match t with
  | leaf text => leaf text
  | element name attributes children => element name (attributes ++ [a]) children

/-- The element with one more child at the end; a text stays as it is. -/
def withChild (t child : Tree) : Tree :=
  match t with
  | leaf text => leaf text
  | element name attributes children => element name attributes (children ++ child.forest)

end Tree

end LiveMarkup
