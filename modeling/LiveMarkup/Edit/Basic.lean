import LiveMarkup.Markup.Forest
import LiveMarkup.Store.Handle

/-!
# Edits and changes

An edit says what to do at a place of a tree, and the place is given by the steps from the root to it. Every edit that is
carried out is reported as a change, which names the nodes concerned by their handles.
-/

namespace LiveMarkup

/-- The way from the root to a node: at each step, the position among the children. -/
abbrev Path := List Nat

/-- The path as it is shown. -/
def Path.written (p : Path) : String :=
  "[" ++ ", ".intercalate (p.map toString) ++ "]"

/-- One thing to do to a tree. -/
inductive Edit
  /-- Gives an element a new list of attributes. -/
  | setAttributes (path : Path) (attributes : List Attribute)
  /-- Gives a text new content. -/
  | setText (path : Path) (text : String)
  /-- Adds a tree as the last child of the root or an element. -/
  | append (parent : Path) (tree : Tree)
  /-- Removes a node and everything below it. -/
  | remove (path : Path)
  /-- Puts a tree in the place of a node. -/
  | replace (path : Path) (tree : Tree)
deriving DecidableEq, Repr

namespace Edit

/-- The node that the edit looks up. -/
def path : Edit → Path
  | setAttributes path _ => path
  | setText path _ => path
  | append parent _ => parent
  | remove path => path
  | replace path _ => path

/-- The name of what the edit does. -/
def verb : Edit → String
  | setAttributes _ _ => "set_attributes"
  | setText _ _ => "set_text"
  | append _ _ => "append"
  | remove _ => "remove"
  | replace _ _ => "replace"

/-- The edit in short. -/
def written (e : Edit) : String :=
  e.verb ++ " " ++ e.path.written

end Edit

/-- What was done to a document. -/
inductive Change
  /-- The attributes of an element or the content of a text are new. -/
  | updated (node : NodeRef)
  /-- A node was added as a child. -/
  | added (node parent : NodeRef)
  /-- A node is gone, and everything that was below it. -/
  | removed (node parent : NodeRef)
  /-- A node has new content and kept its handle. -/
  | replaced (node parent : NodeRef)
deriving DecidableEq, Repr

namespace Change

/-- The node concerned. -/
def node : Change → NodeRef
  | updated node => node
  | added node _ => node
  | removed node _ => node
  | replaced node _ => node

/-- The parent of the node concerned, where children came, went or were exchanged. -/
def parent? : Change → Option NodeRef
  | updated _ => none
  | added _ parent => some parent
  | removed _ parent => some parent
  | replaced _ parent => some parent

/-- The name of what was done. -/
def verb : Change → String
  | updated _ => "change"
  | added _ _ => "add"
  | removed _ _ => "remove"
  | replaced _ _ => "replace"

/-- The change in short. -/
def written (c : Change) : String :=
  match c.parent? with
  | some parent => s!"{c.verb} {c.node.label} under {parent.label}"
  | none => s!"{c.verb} {c.node.label}"

end Change

end LiveMarkup
