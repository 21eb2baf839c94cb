import LiveMarkup.Digest.Transcript
import LiveMarkup.Edit.Error
import LiveMarkup.Markup.Parser
import LiveMarkup.Markup.Printer
import LiveMarkup.Rendered.Basic
import LiveMarkup.Store.Mutate

/-!
# Documents

A document is a tree of nodes that are addressed by handles. It is read from markup, asked by handle, and printed again.
What is below the root, handles aside, is its `forest`.
-/

namespace LiveMarkup

/-- A document: its nodes, and the description it was rendered from, if it was. -/
structure Document where
  store : Store
  rendered : Option Rendered.Root
deriving Repr

namespace Document

/-- A document with a root and nothing else. -/
def empty (id : DocumentId) : Document :=
  ⟨.new id, none⟩

/-- The document with a forest below its root. -/
def ofForest (id : DocumentId) (f : Forest) : Document :=
  ⟨(Store.new id).graft (Store.rootOf id) f, none⟩

/-- The document that a source text describes. -/
def parse (id : DocumentId) (source : String) (spacing : Spacing) : Except ParseError Document :=
  match Forest.parse source spacing with
  | .error e => .error e
  | .ok f => .ok (ofForest id f)

/-- The identity of the document. -/
def id (d : Document) : DocumentId :=
  d.store.document

/-- The handle of the root. -/
def root (d : Document) : NodeRef :=
  d.store.root

/-- The number of nodes, the root among them. -/
def nodeCount (d : Document) : Nat :=
  d.store.nodes.count

/-- The number of attributes. -/
def attributeCount (d : Document) : Nat :=
  d.store.attributes.count

/-- The outline of what is below the root. -/
def outline (d : Document) : Outline :=
  d.store.outline (d.store.childrenOf d.root)

/-- What is below the root. -/
def forest (d : Document) : Forest :=
  d.outline.forest

/-! ## Nodes by their handles -/

/-- The node that a handle names. -/
def node (d : Document) (n : NodeRef) : Except DocumentError Node :=
  match d.store.node? n with
  | some node => .ok node
  | none => .error (.invalidHandle n)

/-- What a node is. -/
def get (d : Document) (n : NodeRef) : Except DocumentError Payload := do
  return (← d.node n).payload

/-- The children of a node, in order. -/
def children (d : Document) (n : NodeRef) : Except DocumentError (List NodeRef) := do
  return (← d.node n).children

/-- The parent of a node; the root has none. -/
def parent (d : Document) (n : NodeRef) : Except DocumentError (Option NodeRef) := do
  return (← d.node n).parent

/-- The handles of the attributes of a node, in order. -/
def attributeRefs (d : Document) (n : NodeRef) : Except DocumentError (List AttributeRef) := do
  match ← d.get n with
  | .element _ attributes => return attributes
  | _ => return []

/-- The attribute that a handle names. -/
def attributeOf (d : Document) (a : AttributeRef) : Except DocumentError Attribute :=
  match d.store.attribute? a with
  | some found => .ok found
  | none => .error (.invalidAttribute a)

/-- The attributes of a node, in order. -/
def attributes (d : Document) (n : NodeRef) : Except DocumentError (List Attribute) := do
  (← d.attributeRefs n).mapM d.attributeOf

/-- The first attribute of a node that a written name asks for. -/
def attributeNamed (d : Document) (n : NodeRef) (written : String) : Except DocumentError (Option Attribute) := do
  return (← d.attributes n).find? fun a => a.isNamed written

/-- The outline of what is below a node. -/
def outlineBelow (d : Document) (n : NodeRef) : Except DocumentError Outline := do
  return d.store.outline (← d.children n)

/-- The nodes below a node, in document order. -/
def descendants (d : Document) (n : NodeRef) : Except DocumentError (List NodeRef) := do
  return (← d.outlineBelow n).nodes

/-- The nodes below the root whose payload passes a test, in document order. -/
def findAll (d : Document) (test : Payload → Bool) : List NodeRef :=
  d.outline.nodes.filter fun n =>
    match d.store.node? n with
    | some node => test node.payload
    | none => false

/-! ## Trees, fingerprints and markup -/

/-- The forest that a node stands for: the node with what is below it, or for the root what is below it. -/
def forestAt (d : Document) (n : NodeRef) : Except DocumentError Forest := do
  match ← d.get n with
  | .root => return (← d.outlineBelow n).forest
  | _ => return (d.store.outline [n]).forest

/-- The tree from a node downwards. The root has no tree. -/
def subtree (d : Document) (n : NodeRef) : Except DocumentError Tree := do
  match ← d.get n with
  | .root => throw (.notAnElement n)
  | _ =>
    match (← d.forestAt n).toList with
    | t :: _ => return t
    | [] => throw (.invalidHandle n)

/-- The bytes that the fingerprint of a node is made from. -/
def transcript (d : Document) (n : NodeRef) : Except DocumentError (List UInt8) := do
  match ← d.get n with
  | .root => return (← d.forestAt n).rootTranscript
  | _ => return (← d.forestAt n).transcript

/-- The fingerprint of a node and what is below it. -/
def fingerprint (d : Document) (n : NodeRef) : Except DocumentError UInt64 := do
  return Blake3.hash64 (← d.transcript n)

/-- The markup of a node and what is below it; for the root, of what is below it. -/
def printNode (d : Document) (n : NodeRef) (options : PrintOptions) : Except DocumentError String := do
  return (← d.forestAt n).print options

/-- The markup of the document. -/
def print (d : Document) (options : PrintOptions) : String :=
  d.forest.print options

/-- Whether the markup of a node has at most `limit` bytes. -/
def fits (d : Document) (n : NodeRef) (options : PrintOptions) (limit : Nat) : Except DocumentError Bool := do
  return (← d.forestAt n).printedSize options ≤ limit

end Document

end LiveMarkup
