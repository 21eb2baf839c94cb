import LiveMarkup.Markup.Listing
import LiveMarkup.Store.Basic

/-!
# Changes to a store

The steps that every change of a document is made of: nodes are added as last children, cut off with everything below
them, or given new content in place. Nodes and attributes are stored in document order, an element's attributes before
the element itself, and what is removed is vacated in document order as well; this fixes which slot everything gets.

A step that meets nodes that do not hang together fails. What it has done up to then is dropped with the store it was
given, since a store that is changed step by step is taken over by its document only as a whole.
-/

namespace LiveMarkup.Store

/-! ## Adding nodes -/

/-- Stores attributes one after the other. -/
def addAttributes (s : Store) : List Attribute → Store × List AttributeRef
  | [] => (s, [])
  | a :: rest =>
    let (attributes, key) := s.attributes.insert a
    let (s, refs) := { s with attributes }.addAttributes rest
    (s, ⟨s.document, key⟩ :: refs)

/-- Adds a node as the last child of another. -/
def link (s : Store) (parent : NodeRef) (payload : Payload) : Store × NodeRef :=
  let (nodes, key) := s.nodes.insert ⟨payload, some parent, []⟩
  let child : NodeRef := ⟨s.document, key⟩
  (({ s with nodes }).modifyNode parent fun node => { node with children := node.children ++ [child] }, child)

/-- Adds a text as the last child of a node. -/
def addLeaf (s : Store) (parent : NodeRef) (text : String) : Store × NodeRef :=
  s.link parent (.leaf text)

/-- Adds an element without children as the last child of a node. -/
def addElement (s : Store) (parent : NodeRef) (name : QName) (attributes : List Attribute) : Store × NodeRef :=
  let (s, refs) := s.addAttributes attributes
  s.link parent (.element name refs)

/-- Adds the nodes of a forest as the last children of a node. -/
def graft (s : Store) (parent : NodeRef) : Forest → Store
  | .nil => s
  | .leaf text next => (s.addLeaf parent text).1.graft parent next
  | .element name attributes children next =>
    let (s, n) := s.addElement parent name attributes
    (s.graft n children).graft parent next

/-- Adds what a record describes as the last child of a node, which may not be a text. -/
def addRecord (s : Store) (parent : NodeRef) (r : Record) : Except StoreError (Store × NodeRef) := do
  let node ← s.node parent
  if node.payload.isContainer then
    match r with
    | .leaf text => .ok (s.addLeaf parent text)
    | .element name attributes _ => .ok (s.addElement parent name attributes)
  else .error (.notAContainer parent)

/-- Adds the nodes of a listing, in order, to nodes that still lack a number of children, the innermost of them first. -/
def build (s : Store) (top : NodeRef) : (lacking : List (NodeRef × Nat)) → List Record → Except StoreError Store
  | [], _ => .ok s
  | (_, 0) :: outer, records => s.build top outer records
  | (_, _ + 1) :: _, [] => .error (.corrupted (.truncated top))
  | (n, count + 1) :: outer, r :: rest => do
    let (s, child) ← s.addRecord n r
    if r.children = 0 then s.build top ((n, count) :: outer) rest
    else s.build top ((child, r.children) :: (n, count) :: outer) rest
termination_by lacking records => (records.length, lacking.length)

/-- Adds a tree as the last child of a node, and gives the handle of its top. -/
def appendTree (s : Store) (parent : NodeRef) (t : Tree) : Except StoreError (Store × NodeRef) :=
  match t.records with
  | [] => .error (.corrupted .emptyTree)
  | r :: rest => do
    let (s, top) ← s.addRecord parent r
    let s ← s.build top [(top, r.children)] rest
    .ok (s, top)

/-! ## Removing nodes -/

/-- Vacates the slot of a node and gives the node. What it lists, and what lists it, stays as it is. -/
def freeNode (s : Store) (n : NodeRef) : Except StoreError (Store × Node) :=
  if n = s.root then .error (.document .rootRemoval)
  else if n.document = s.document then
    match s.nodes.remove? n.key with
    | some (nodes, node) => .ok ({ s with nodes }, node)
    | none => .error (.document (.invalidHandle n))
  else .error (.document (.invalidHandle n))

/-- Vacates the slot of an attribute. -/
def freeAttribute (s : Store) (a : AttributeRef) : Except StoreError Store :=
  if a.document = s.document then
    match s.attributes.remove? a.key with
    | some (attributes, _) => .ok { s with attributes }
    | none => .error (.document (.invalidAttribute a))
  else .error (.document (.invalidAttribute a))

/-- Vacates the slots of attributes one after the other. -/
def freeAttributes (s : Store) : List AttributeRef → Except StoreError Store
  | [] => .ok s
  | a :: rest => do
    let s ← s.freeAttribute a
    s.freeAttributes rest

/-- A freed node leaves fewer nodes. -/
theorem occupied_freeNode {s s' : Store} {n : NodeRef} {node : Node} (h : s.freeNode n = .ok (s', node)) :
    s'.nodes.occupied < s.nodes.occupied := by
  unfold freeNode at h
  split at h
  · cases h
  · split at h
    · split at h
      · rename_i hr
        cases h
        exact Slots.occupied_remove? hr
      · cases h
    · cases h

/-- Freeing attributes leaves the nodes as they are. -/
theorem nodes_freeAttributes {s s' : Store} {refs : List AttributeRef} (h : s.freeAttributes refs = .ok s') :
    s'.nodes = s.nodes := by
  induction refs generalizing s with
  | nil =>
    cases h
    rfl
  | cons a rest ih =>
    simp only [freeAttributes, freeAttribute] at h
    split at h
    · split at h
      · have hn := ih h
        exact hn
      · cases h
    · cases h

/-- Vacates the slots of nodes and of everything below them, in document order. -/
def freeSubtrees (s : Store) : List NodeRef → Except StoreError Store
  | [] => .ok s
  | n :: rest =>
    match _freed : s.freeNode n with
    | .error e => .error e
    | .ok (s', node) =>
      match _cleared : s'.freeAttributes node.payload.attributes with
      | .error e => .error e
      | .ok s'' => s''.freeSubtrees (node.children ++ rest)
termination_by s.nodes.occupied
decreasing_by
  rw [nodes_freeAttributes _cleared]
  exact occupied_freeNode _freed

/-- Fails unless nodes are linked to a node as their parent and each of them comes once; `seen` have come before. -/
def checkChildren (s : Store) (parent : NodeRef) : (seen : List NodeRef) → List NodeRef → Except StoreError Unit
  | _, [] => .ok ()
  | seen, child :: rest => do
    let node ← s.node child
    if node.parent ≠ some parent then .error (.inconsistentChildren parent child false)
    else if child ∈ seen then .error (.inconsistentChildren parent child true)
    else s.checkChildren parent (child :: seen) rest

/-- Gives a node a new list of children, which have to be linked to it already. -/
def setChildren (s : Store) (n : NodeRef) (children : List NodeRef) : Except StoreError Store := do
  let node ← s.node n
  if node.payload.isContainer then
    s.checkChildren n [] children
    .ok (s.modifyNode n fun node => { node with children })
  else .error (.notAContainer n)

/-- Cuts a node off its parent and removes everything from it downwards. Gives the parent. -/
def remove (s : Store) (n : NodeRef) : Except StoreError (Store × NodeRef) :=
  if n = s.root then .error (.document .rootRemoval)
  else do
    let node ← s.node n
    match node.parent with
    | none => .error (.corrupted (.noParent n))
    | some parent =>
      let above ← s.node parent
      let remaining := above.children.filter (· ≠ n)
      if remaining.length = above.children.length then .error (.corrupted (.missingChild n))
      else
        let s ← s.setChildren parent remaining
        let s ← s.freeSubtrees [n]
        .ok (s, parent)

/-! ## Changing nodes in place -/

/-- Frees nodes and everything below them, one after the other. -/
def freeEach (s : Store) : List NodeRef → Except StoreError Store
  | [] => .ok s
  | n :: rest => do
    let s ← s.freeSubtrees [n]
    s.freeEach rest

/-- A payload as it is when its attributes have been taken from it. -/
def bare : Payload → Payload
  | .element name _ => .element name []
  | payload => payload

/-- Stores the attributes that a record gives, and makes them up to its payload. -/
def storePayload (s : Store) : Record → Store × Payload
  | .leaf text => (s, .leaf text)
  | .element name attributes _ =>
    let (s, refs) := s.addAttributes attributes
    (s, .element name refs)

/-- Gives a node that has been emptied the content of a tree. -/
def fill (s : Store) (n : NodeRef) (t : Tree) : Except StoreError Store :=
  match t.records with
  | [] => .error (.corrupted .emptyTree)
  | r :: rest => do
    let (s, payload) := s.storePayload r
    let _ ← s.node n
    (s.modifyNode n fun node => { node with payload }).build n [(n, r.children)] rest

/-- Gives a node new content in place of its own, under the same handle. Its old content is removed before the new is
stored. Gives the parent. -/
def replace (s : Store) (n : NodeRef) (t : Tree) : Except StoreError (Store × NodeRef) :=
  if n = s.root then .error (.document .rootRemoval)
  else do
    let node ← s.node n
    match node.parent with
    | none => .error (.corrupted (.noParent n))
    | some parent =>
      let s := s.modifyNode n fun node => { node with payload := bare node.payload, children := [] }
      let s ← s.freeAttributes node.payload.attributes
      let s ← s.freeEach node.children
      let s ← s.fill n t
      .ok (s, parent)

/-- Gives an attribute new content. -/
def updateAttribute (s : Store) (a : AttributeRef) (new : Attribute) : Except StoreError Store :=
  match s.attribute? a with
  | some _ => .ok { s with attributes := s.attributes.modify a.key fun _ => new }
  | none => .error (.document (.invalidAttribute a))

/-- Gives the attributes at hand new content position by position, stores those that are missing, and removes those left
over. -/
def rewriteAttributes (s : Store) :
    (current : List AttributeRef) → List Attribute → Except StoreError (Store × List AttributeRef)
  | a :: current, new :: rest => do
    let s ← s.updateAttribute a new
    let (s, refs) ← s.rewriteAttributes current rest
    .ok (s, a :: refs)
  | [], rest => .ok (s.addAttributes rest)
  | current, [] => do
    let s ← s.freeAttributes current
    .ok (s, [])

/-- The element with other attributes; any other node stays as it is. -/
def withAttributes (node : Node) (attributes : List AttributeRef) : Node :=
  match node.payload with
  | .element name _ => { node with payload := .element name attributes }
  | _ => node

/-- Gives an element a new list of attributes. -/
def setAttributes (s : Store) (n : NodeRef) (attributes : List Attribute) : Except StoreError Store := do
  let node ← s.node n
  match node.payload with
  | .element _ current =>
    let (s, refs) ← s.rewriteAttributes current attributes
    let _ ← s.node n
    .ok (s.modifyNode n fun node => withAttributes node refs)
  | _ => .error (.document (.notAnElement n))

/-- Gives a text new content. -/
def setText (s : Store) (n : NodeRef) (text : String) : Except StoreError Store := do
  let node ← s.node n
  match node.payload with
  | .leaf _ => .ok (s.modifyNode n fun node => { node with payload := .leaf text })
  | _ => .error (.notALeaf n)

end LiveMarkup.Store
