import LiveMarkup.Edit.Basic

/-!
# Differences

The difference of two trees is a list of edits that turns the first into the second, with counts of what was compared on
the way. While a comparison goes on, the edits gather with the last one first.
-/

namespace LiveMarkup

/-- How many nodes were compared, and what came of it. -/
structure DiffStats where
  compared : Nat
  kept : Nat
  attributeUpdates : Nat
  textUpdates : Nat
  replaced : Nat
  added : Nat
  removed : Nat
deriving DecidableEq, Repr

/-- The counts as one line. -/
def DiffStats.written (s : DiffStats) : String :=
  s!"compared={s.compared} kept={s.kept} attrs={s.attributeUpdates} text={s.textUpdates} replaced={s.replaced} " ++
    s!"added={s.added} removed={s.removed}"

/-- The edits that lead from one forest to another, and the counts of the comparison. -/
structure Diff where
  edits : List Edit
  stats : DiffStats
deriving DecidableEq, Repr

namespace Diff

/-- The state before anything is compared; the roots count as one pair. -/
def start : Diff := ⟨[], ⟨1, 0, 0, 0, 0, 0, 0⟩⟩

/-- Notes that a pair of texts was compared. -/
def noteLeaves (d : Diff) (path : Path) (old new : String) : Diff :=
  if old = new then { d with stats := { d.stats with compared := d.stats.compared + 1, kept := d.stats.kept + 1 } }
  else
    { edits := .setText path new :: d.edits
      stats := { d.stats with compared := d.stats.compared + 1, textUpdates := d.stats.textUpdates + 1 } }

/-- Notes that a pair of elements of one name was compared. -/
def noteElements (d : Diff) (path : Path) (old new : List Attribute) : Diff :=
  if old = new then { d with stats := { d.stats with compared := d.stats.compared + 1, kept := d.stats.kept + 1 } }
  else
    { edits := .setAttributes path new :: d.edits
      stats := { d.stats with compared := d.stats.compared + 1, attributeUpdates := d.stats.attributeUpdates + 1 } }

/-- Notes that a pair of nodes was compared that do not match. -/
def noteReplaced (d : Diff) (path : Path) (new : Tree) : Diff :=
  { edits := .replace path new :: d.edits
    stats := { d.stats with compared := d.stats.compared + 1, replaced := d.stats.replaced + 1 } }

/-- Notes that a node has no counterpart any more. -/
def noteRemoved (d : Diff) (path : Path) : Diff :=
  { edits := .remove path :: d.edits, stats := { d.stats with removed := d.stats.removed + 1 } }

/-- Notes that a node had no counterpart so far. -/
def noteAdded (d : Diff) (parent : Path) (new : Tree) : Diff :=
  { edits := .append parent new :: d.edits, stats := { d.stats with added := d.stats.added + 1 } }

/-- Notes as many times as a number says that the node at a path has no counterpart any more: when it is gone, the next
stands at its path. -/
def noteRemovals (d : Diff) (path : Path) : Nat → Diff
  | 0 => d
  | n + 1 => (d.noteRemoved path).noteRemovals path n

end Diff

end LiveMarkup
