import LiveMarkup.Document.Basic
import LiveMarkup.Edit.Diff

/-!
# Comparing documents

Nodes are compared by position, beginning with the two roots, which always match. Elements of one name stay and are compared
further, attributes first and then children; texts stay; any other pair is replaced as a whole. Where one of two lists of
children is longer, the surplus is removed or appended at the end, after the pairs before it have been compared with
everything below them.

The comparisons that are still to be made stand on a stack, so deep documents need no deep recursion. Every node is compared
at most once, and so is what is left over of its children; a walk that goes on for longer is in a document that goes round in
a circle, and is broken off.
-/

namespace LiveMarkup

/-- A comparison that is still to be made. The path to the two parents has a length. -/
inductive Comparison
  /-- Two nodes at one position. -/
  | pair (old new : NodeRef) (depth position : Nat)
  /-- What either parent has more children than the other. -/
  | surplus (old new : NodeRef) (depth : Nat)
deriving DecidableEq, Repr

namespace Comparison

/-- The comparisons of children with each other, from a position on. -/
def pairs (depth : Nat) : (position : Nat) → (old new : List NodeRef) → List Comparison
  | position, a :: old, b :: new => .pair a b depth position :: pairs depth (position + 1) old new
  | _, _, _ => []

/-- How far the comparison of two documents has got. -/
structure State where
  /-- Where the last comparison was made. -/
  path : Path
  /-- The comparisons still to be made, the next one first. -/
  pending : List Comparison
  diff : Diff

namespace State

variable (target incoming : Document)

/-- Plans the comparisons of the children of two nodes at the path. -/
def schedule (s : State) (old new : NodeRef) : Except DocumentError State := do
  let olds ← target.children old
  let news ← incoming.children new
  let depth := s.path.length
  .ok { s with pending := pairs depth 0 olds news ++ .surplus old new depth :: s.pending }

/-- Compares two nodes at the path. -/
def compareNodes (s : State) (old new : NodeRef) : Except DocumentError State := do
  match ← target.get old, ← incoming.get new with
  | .element a _, .element b _ =>
    if a = b then
      let olds ← target.attributes old
      let news ← incoming.attributes new
      { s with diff := s.diff.noteElements s.path olds news }.schedule target incoming old new
    else
      let t ← incoming.subtree new
      .ok { s with diff := s.diff.noteReplaced s.path t }
  | .leaf a, .leaf b => .ok { s with diff := s.diff.noteLeaves s.path a b }
  | _, _ =>
    let t ← incoming.subtree new
    .ok { s with diff := s.diff.noteReplaced s.path t }

/-- Notes nodes that have no counterpart so far. -/
def noteAdditions (s : State) : List NodeRef → Except DocumentError State
  | [] => .ok s
  | n :: rest => do
    let t ← incoming.subtree n
    { s with diff := s.diff.noteAdded s.path t }.noteAdditions rest

/-- Notes what is left over of the children of two nodes at the path. -/
def compareSurplus (s : State) (old new : NodeRef) : Except DocumentError State := do
  let olds ← target.children old
  let news ← incoming.children new
  let shared := min olds.length news.length
  let s := { s with diff := s.diff.noteRemovals (s.path ++ [shared]) (olds.length - shared) }
  s.noteAdditions incoming (news.drop shared)

/-- Makes one comparison. -/
def step (s : State) : Comparison → Except DocumentError State
  | .pair old new depth position =>
    { s with path := s.path.take depth ++ [position] }.compareNodes target incoming old new
  | .surplus old new depth => { s with path := s.path.take depth }.compareSurplus target incoming old new

/-- Makes the comparisons that are still to be made, as many as a limit allows. -/
def run (s : State) (limit : Nat) : Except StoreError State :=
  match s.pending, limit with
  | [], _ => .ok s
  | _ :: _, 0 => .error (.corrupted .endless)
  | next :: pending, limit + 1 =>
    match { s with pending }.step target incoming next with
    | .error e => .error (.document e)
    | .ok s => s.run limit

end State

end Comparison

namespace Document

/-- The difference of a document from another one, unless one of the two does not hang together. -/
def compare (d incoming : Document) : Except StoreError Diff :=
  match Comparison.State.schedule d incoming ⟨[], [], .start⟩ d.root incoming.root with
  | .error e => .error (.document e)
  | .ok s =>
    match s.run d incoming (2 * d.nodeCount) with
    | .error e => .error e
    | .ok s => .ok { s.diff with edits := s.diff.edits.reverse }

/-- The difference of a document from another one, with no edits if one of the two does not hang together. -/
def diff (d incoming : Document) : Diff :=
  match d.compare incoming with
  | .ok diff => diff
  | .error _ => .start

end Document

end LiveMarkup
