import LiveMarkup.Markup.Forest
import LiveMarkup.Store.Error
import LiveMarkup.Store.Slots

/-!
# The store of a document

A document keeps its nodes in slots. Each node knows its parent and its children by their handles, and an element knows
its attributes, which are kept in slots of their own. Slot zero of the nodes holds the root, which has no parent and is
never removed.

An `Outline` is a forest whose nodes carry their handles; `Store.outline` reads it off the store.
-/

namespace LiveMarkup

/-- What a node is. -/
inductive Payload
  /-- The root of a document. -/
  | root
  /-- An element, with the handles of its attributes in order. -/
  | element (name : QName) (attributes : List AttributeRef)
  /-- A text. -/
  | leaf (text : String)
deriving DecidableEq, Repr, Inhabited

/-- Whether a node of this kind may have children. -/
def Payload.isContainer : Payload → Bool
  | root => true
  | element _ _ => true
  | leaf _ => false

/-- The handles of the attributes of a node; only an element has any. -/
def Payload.attributes : Payload → List AttributeRef
  | root => []
  | element _ attributes => attributes
  | leaf _ => []

/-- A node as it is stored. -/
structure Node where
  payload : Payload
  /-- The node that it is a child of; the root has none. -/
  parent : Option NodeRef
  /-- Its children in order. -/
  children : List NodeRef
deriving DecidableEq, Repr, Inhabited

/-- The nodes and attributes of one document. -/
structure Store where
  document : DocumentId
  nodes : Slots Node
  attributes : Slots Attribute
deriving Repr

/-- A forest whose nodes and attributes carry their handles. -/
inductive Outline
  | nil
  | leaf (node : NodeRef) (text : String) (next : Outline)
  | element (node : NodeRef) (name : QName) (attributes : List (AttributeRef × Attribute)) (children next : Outline)
deriving DecidableEq, Repr

namespace Outline

/-- The forest without its handles. -/
def forest : Outline → Forest
  | nil => .nil
  | leaf _ text next => .leaf text next.forest
  | element _ name attributes children next => .element name (attributes.map Prod.snd) children.forest next.forest

/-- The handles of the nodes in document order. -/
def nodes : Outline → List NodeRef
  | nil => []
  | leaf node _ next => node :: next.nodes
  | element node _ _ children next => node :: (children.nodes ++ next.nodes)

/-- The handles of the attributes in document order. -/
def attributes : Outline → List AttributeRef
  | nil => []
  | leaf _ _ next => next.attributes
  | element _ _ attributes children next => attributes.map Prod.fst ++ (children.attributes ++ next.attributes)

end Outline

namespace Store

/-- The store of a new document, which holds a root and nothing else. -/
def new (document : DocumentId) : Store :=
  ⟨document, (Slots.empty.insert ⟨.root, none, []⟩).1, .empty⟩

/-- The root of a document with this identity. -/
def rootOf (document : DocumentId) : NodeRef :=
  ⟨document, ⟨0, 0⟩⟩

/-- The handle of the root. -/
def root (s : Store) : NodeRef :=
  rootOf s.document

/-- The node that a handle names. -/
def node? (s : Store) (n : NodeRef) : Option Node :=
  if n.document = s.document then s.nodes.get? n.key else none

/-- The node that a handle has to name. -/
def node (s : Store) (n : NodeRef) : Except StoreError Node :=
  match s.node? n with
  | some node => .ok node
  | none => .error (.document (.invalidHandle n))

/-- The attribute that a handle names. -/
def attribute? (s : Store) (a : AttributeRef) : Option Attribute :=
  if a.document = s.document then s.attributes.get? a.key else none

/-- The children of a node, none if the handle names no node. -/
def childrenOf (s : Store) (n : NodeRef) : List NodeRef :=
  match s.node? n with
  | some node => node.children
  | none => []

/-- Changes the node that a handle names, if it names one. -/
def modifyNode (s : Store) (n : NodeRef) (f : Node → Node) : Store :=
  if n.document = s.document then { s with nodes := s.nodes.modify n.key f } else s

/-- The outline of nodes and everything below them, read to a limited depth of nodes that follow or contain each other. -/
def read (s : Store) : (limit : Nat) → List NodeRef → Outline
  | 0, _ => .nil
  | _ + 1, [] => .nil
  | limit + 1, n :: rest =>
    match s.node? n with
    | some ⟨.leaf text, _, _⟩ => .leaf n text (s.read limit rest)
    | some ⟨.element name attributes, _, children⟩ =>
      .element n name (attributes.filterMap fun a => (s.attribute? a).map (a, ·)) (s.read limit children)
        (s.read limit rest)
    | _ => s.read limit rest

/-- The outline of nodes and everything below them. No chain of nodes in a store is longer than its slots are many. -/
def outline (s : Store) (nodes : List NodeRef) : Outline :=
  s.read (s.nodes.slots.size + 1) nodes

/-- The nodes above a node, the nearest first, up to a number of them. -/
def ascend (s : Store) : (limit : Nat) → NodeRef → List NodeRef
  | 0, _ => []
  | limit + 1, n =>
    match s.node? n with
    | some ⟨_, some parent, _⟩ => parent :: s.ascend limit parent
    | _ => []

/-- The nodes above a node, the nearest first. -/
def ancestors (s : Store) (n : NodeRef) : List NodeRef :=
  s.ascend s.nodes.slots.size n

end Store

end LiveMarkup
