import LiveMarkup.Document.Basic

/-!
# Shared and registered documents

A host keeps documents that several parties work on. A shared document is reached through any number of handles, which
carry its identity; a registered document can also be asked for by its identity. What is taken off the register stays
reachable through the handles that were given out.
-/

namespace LiveMarkup

/-- A handle of a shared document. -/
structure SharedRef where
  id : DocumentId
deriving DecidableEq, Repr

/-- The shared documents of a host, and which of them are registered. -/
structure Host where
  documents : List (DocumentId × Document)
  registered : List DocumentId
deriving Repr

namespace Host

/-- Nothing is shared. -/
def empty : Host := ⟨[], []⟩

/-- Shares a document. -/
def share (h : Host) (d : Document) : Host × SharedRef :=
  ({ h with documents := (d.id, d) :: h.documents }, ⟨d.id⟩)

/-- The document as it is now. -/
def read (h : Host) (r : SharedRef) : Option Document :=
  h.documents.lookup r.id

/-- Changes a shared document for everyone. -/
def write (h : Host) (r : SharedRef) (d : Document) : Host :=
  { h with documents := h.documents.map fun entry => if entry.1 = r.id then (entry.1, d) else entry }

/-- Whether a document is registered. -/
def contains (h : Host) (id : DocumentId) : Bool :=
  h.registered.contains id

/-- Shares a document and registers it. -/
def register (h : Host) (d : Document) : Host :=
  let (h, r) := h.share d
  { h with registered := if h.contains r.id then h.registered else h.registered ++ [r.id] }

/-- A handle of a registered document. -/
def find? (h : Host) (id : DocumentId) : Option SharedRef :=
  if h.contains id then some ⟨id⟩ else none

/-- Takes a document off the register. -/
def unregister (h : Host) (id : DocumentId) : Host :=
  { h with registered := h.registered.filter (· ≠ id) }

/-- The number of registered documents. -/
def count (h : Host) : Nat :=
  h.registered.length

end Host

end LiveMarkup
