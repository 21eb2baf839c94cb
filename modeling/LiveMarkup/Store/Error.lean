import LiveMarkup.Store.Handle

/-!
# What a document refuses

Two kinds of errors come up where documents are asked or changed. A `DocumentError` is the answer to a question or a wish
that a sound document cannot meet. The further causes of a `StoreError` come up only where a step meets a node of the wrong
kind, or nodes that do not hang together.
-/

namespace LiveMarkup

/-- What no document allows. -/
inductive DocumentError
  /-- The handle names no node of the document. -/
  | invalidHandle (node : NodeRef)
  /-- The handle names no attribute of the document. -/
  | invalidAttribute (handle : AttributeRef)
  /-- The root cannot go and nothing can take its place. -/
  | rootRemoval
  /-- The node is the root or a text, and what was asked for exists for elements only. -/
  | notAnElement (node : NodeRef)
deriving DecidableEq, Repr

/-- The text of the error. -/
def DocumentError.message : DocumentError → String
  | invalidHandle node => s!"invalid node handle {node.written}"
  | invalidAttribute handle => s!"invalid attribute handle {handle.written}"
  | rootRemoval => "the root node cannot be removed or replaced"
  | notAnElement node => s!"{node.written} is not an element"

/-- How the nodes of a store fail to hang together. -/
inductive Damage
  /-- A node that is not the root has no parent. -/
  | noParent (node : NodeRef)
  /-- A node is not among the children of its parent. -/
  | missingChild (node : NodeRef)
  /-- A listing ends before a node of it has all its children. -/
  | truncated (node : NodeRef)
  /-- A listing has no nodes. -/
  | emptyTree
  /-- A node is below itself. -/
  | endless
  /-- The root is below another node. -/
  | rootBelow (node : NodeRef)
deriving DecidableEq, Repr

/-- The text of the damage. -/
def Damage.message : Damage → String
  | noParent node => s!"{node.written} has no parent"
  | missingChild node => s!"{node.written} missing from its parent"
  | truncated node => s!"subtree below {node.written} is truncated"
  | emptyTree => "empty subtree"
  | endless => "a node is below itself"
  | rootBelow node => s!"root below {node.written}"

/-- Why a step of a change cannot be taken. -/
inductive StoreError
  /-- No document allows the step. -/
  | document (error : DocumentError)
  /-- The node is not a text. -/
  | notALeaf (node : NodeRef)
  /-- The node is a text, which has no children. -/
  | notAContainer (node : NodeRef)
  /-- A node that is to be listed as a child has another parent, or is listed already. -/
  | inconsistentChildren (parent child : NodeRef) (listed : Bool)
  /-- The nodes do not hang together. -/
  | corrupted (damage : Damage)
deriving DecidableEq, Repr

/-- The text of the error. -/
def StoreError.message : StoreError → String
  | document error => error.message
  | notALeaf node => s!"{node.written} is not a leaf"
  | notAContainer node => s!"{node.written} cannot have children"
  | inconsistentChildren parent child listed =>
    let what := if listed then "is listed twice" else "is not linked to this parent"
    s!"inconsistent child list for {parent.written}: {child.written} {what}"
  | corrupted damage => s!"document corrupted: {damage.message}"

end LiveMarkup
