/-!
# Handles

A handle names a node or an attribute of one document: the document that issued it, the slot it is stored in, and the
generation of that slot. A slot that is vacated takes up a new generation, so a handle of what was stored there before
names nothing.
-/

namespace LiveMarkup

/-- The identity of a document; no two documents of a host share it. -/
structure DocumentId where
  number : Nat
deriving DecidableEq, Repr, Inhabited

/-- The identity as it is shown. -/
def DocumentId.label (d : DocumentId) : String :=
  s!"doc{d.number}"

/-- A slot and one of its generations. -/
structure SlotKey where
  index : Nat
  generation : UInt32
deriving DecidableEq, Repr, Inhabited

/-- The handle of a node. -/
structure NodeRef where
  document : DocumentId
  key : SlotKey
deriving DecidableEq, Repr, Inhabited

/-- The handle of an attribute. -/
structure AttributeRef where
  document : DocumentId
  key : SlotKey
deriving DecidableEq, Repr, Inhabited

namespace NodeRef

/-- The slot that the node is stored in. -/
def index (n : NodeRef) : Nat :=
  n.key.index

/-- The short form, which tells apart the nodes that live at one time. -/
def label (n : NodeRef) : String :=
  s!"node{n.index}"

/-- The full form. -/
def written (n : NodeRef) : String :=
  s!"node{n.index}v{n.key.generation.toNat}@{n.document.label}"

end NodeRef

/-- The full form. -/
def AttributeRef.written (a : AttributeRef) : String :=
  s!"attr{a.key.index}v{a.key.generation.toNat}@{a.document.label}"

end LiveMarkup
