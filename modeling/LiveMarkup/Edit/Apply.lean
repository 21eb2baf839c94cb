import LiveMarkup.Store.Mutate
import LiveMarkup.Edit.Error

/-!
# Carrying out edits

Edits are carried out one after the other, each on what the ones before it left. An edit that cannot be carried out is
reported with its number, and then nothing counts as done (`Store.applyAll`); a store that is edited in place has by then what
the edits before it have made (`Store.applyInPlace`).
-/

namespace LiveMarkup

/-- The step of an edit that a store refuses is a fault of the edit. -/
def EditFault.ofStore {α : Type} : Except StoreError α → Except EditFault α
  | .ok a => .ok a
  | .error e => .error (.rejected e)

namespace Store

open EditFault (ofStore)

/-- Walks on from a node along the rest of a path, of which some steps have been taken. -/
def follow (s : Store) (path : Path) (n : NodeRef) : (taken : Nat) → Path → Except EditFault NodeRef
  | _, [] => .ok n
  | taken, step :: rest => do
    let node ← ofStore (s.node n)
    match node.children[step]? with
    | some child => s.follow path child (taken + 1) rest
    | none =>
      match node.payload with
      | .leaf _ => .error (.misfit (.noStep path taken true))
      | _ => .error (.misfit (.noStep path taken false))

/-- The node that a path leads to. -/
def resolve (s : Store) (path : Path) : Except EditFault NodeRef :=
  s.follow path s.root 0 path

/-- Carries out an edit at the node that its path leads to. -/
def applyAt (s : Store) (n : NodeRef) : Edit → Except EditFault (Store × Change)
  | .setAttributes path attributes => do
    let node ← ofStore (s.node n)
    match node.payload with
    | .element _ _ => do
      let s ← ofStore (s.setAttributes n attributes)
      .ok (s, .updated n)
    | _ => .error (.misfit (.notElement path))
  | .setText path text => do
    let node ← ofStore (s.node n)
    match node.payload with
    | .leaf _ => do
      let s ← ofStore (s.setText n text)
      .ok (s, .updated n)
    | _ => .error (.misfit (.notLeaf path))
  | .append path tree => do
    let node ← ofStore (s.node n)
    if node.payload.isContainer then
      let (s, child) ← ofStore (s.appendTree n tree)
      .ok (s, .added child n)
    else .error (.misfit (.leafParent path))
  | .remove _ => do
    let (s, parent) ← ofStore (s.remove n)
    .ok (s, .removed n parent)
  | .replace _ tree => do
    let (s, parent) ← ofStore (s.replace n tree)
    .ok (s, .replaced n parent)

/-- Carries out one edit. -/
def applyEdit (s : Store) (e : Edit) : Except EditFault (Store × Change) := do
  let n ← s.resolve e.path
  s.applyAt n e

/-- Carries out edits, the first of which has a number. -/
def applyAll (s : Store) : (number : Nat) → List Edit → Except EditError (Store × List Change)
  | _, [] => .ok (s, [])
  | number, e :: rest =>
    match s.applyEdit e with
    | .error fault => .error (fault.numbered number)
    | .ok (s, change) =>
      match s.applyAll (number + 1) rest with
      | .error error => .error error
      | .ok (s, changes) => .ok (s, change :: changes)

/-- Carries out edits in place, the first of which has a number. Those before an edit that fails stay done. -/
def applyInPlace : (number : Nat) → List Edit → ExceptT EditError (StateM Store) (List Change)
  | _, [] => return []
  | number, e :: rest => do
    match (← get).applyEdit e with
    | .error fault => throw (fault.numbered number)
    | .ok (s, change) =>
      set s
      let changes ← applyInPlace (number + 1) rest
      return change :: changes

end Store

end LiveMarkup
