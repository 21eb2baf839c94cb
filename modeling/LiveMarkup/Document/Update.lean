import LiveMarkup.Document.Compare
import LiveMarkup.Edit.Apply
import LiveMarkup.Edit.Json

/-!
# Updating documents

A document is updated by edits: those that lead to another document, or those that came from elsewhere. The edits of a list
are carried out on a copy of the tree, which takes the place of the tree once all of them are done. Only then their changes
are given to a handler, in order.
-/

namespace LiveMarkup

/-- What an update works on: a document, and the changes that a handler has been given. -/
structure Stage where
  document : Document
  handled : List Change

/-- A step of an update. If it fails, the stage is left as it is by then. -/
abbrev Update (ε : Type) : Type → Type :=
  ExceptT ε (StateM Stage)

namespace Update

variable {ε : Type}

/-- Gives a change to the handler. -/
def handle (c : Change) : Update ε Unit :=
  modify fun stage => { stage with handled := stage.handled ++ [c] }

/-- Carries out edits on a copy of the tree, which takes its place. -/
def commit (edits : List Edit) : Update EditError (List Change) := do
  if edits.isEmpty then return []
  match (Store.applyInPlace 0 edits).run.run (← get).document.store with
  | (.error e, _) => throw e
  | (.ok changes, staged) =>
    modify fun stage => { stage with document := { stage.document with store := staged } }
    return changes

/-- Makes the document equal to another one, keeping the handles of all that stays. -/
def merge (incoming : Document) : Update EditError Unit := do
  match (← get).document.compare incoming with
  | .error e => throw (.rejected 0 e)
  | .ok diff => (← commit diff.edits).forM handle

/-- Carries out edits, once the names they write have been checked. -/
def applyEdits (edits : List Edit) : Update EditError Unit := do
  match Edit.checkNames 0 edits with
  | .error e => throw (.unreadable e)
  | .ok () => (← commit edits).forM handle

/-- Carries out the edits that a text holds. -/
def applyText (text : List Char) : Update EditError Unit := do
  match Edit.decode text with
  | .error e => throw (.unreadable e)
  | .ok edits => (← commit edits).forM handle

/-- The end of an update that is performed on a stage, and the stage that it leaves. -/
def perform (u : Update ε Unit) (stage : Stage) : Except ε Unit × Stage :=
  u.run.run stage

/-- What an update that does not fail makes of a document, with the changes that it gives to a handler. -/
def outcome (u : Update ε Unit) (d : Document) : Except ε (Document × List Change) :=
  match u.perform ⟨d, []⟩ with
  | (.ok (), stage) => .ok (stage.document, stage.handled)
  | (.error e, _) => .error e

end Update

namespace Document

/-- What comes of a merge, if it does not fail. -/
def merge (d incoming : Document) : Except EditError (Document × List Change) :=
  (Update.merge incoming).outcome d

/-- What comes of edits, if they do not fail. -/
def applyEdits (d : Document) (edits : List Edit) : Except EditError (Document × List Change) :=
  (Update.applyEdits edits).outcome d

/-- What comes of the edits that a text holds, if they do not fail. -/
def applyText (d : Document) (text : List Char) : Except EditError (Document × List Change) :=
  (Update.applyText text).outcome d

end Document

end LiveMarkup
