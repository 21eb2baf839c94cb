import LiveMarkup.Document.Update
import LiveMarkup.Rendered.Json
import LiveMarkup.Rendered.Render

/-!
# Documents kept in step with a description

A document can be made from a rendered description. The description is kept with it, so that an update of the description
can be merged, rendered, read as markup, and merged into the document. An update that fails anywhere changes nothing.
-/

namespace LiveMarkup

/-- Why a document cannot follow a description. -/
inductive RenderedError
  /-- The document was not made from a description. -/
  | noDescription
  /-- The text is no description. -/
  | source (error : Rendered.SourceError)
  /-- The update does not fit the description. -/
  | merge (error : Rendered.MergeError)
  /-- The description cannot be rendered. -/
  | render (error : Rendered.RenderError)
  /-- What is rendered is not markup. -/
  | parse (error : ParseError)
  /-- The document cannot be brought up to date. -/
  | update (error : EditError)
deriving Repr

namespace RenderedError

/-- The text of an error of merging descriptions. -/
def mergeMessage (e : Rendered.MergeError) : String :=
  s!"fragment merge failed: {e.message}"

/-- The text of the error, where there is one. -/
def message? : RenderedError → Option String
  | noDescription => some "document has no rendered fragment"
  | source .malformed => none
  | source (.decode e) => some s!"invalid fragment: {e.message}"
  | source (.merge e) => some (mergeMessage e)
  | merge e => some (mergeMessage e)
  | render e => some s!"fragment render failed: {e.message}"
  | parse e => some s!"rendered fragment is not valid markup: {e.message}"
  | update e => e.message?

end RenderedError

/-- The document that a description stands for. -/
def Rendered.Root.document (r : Rendered.Root) (id : DocumentId) : Except RenderedError Document :=
  match r.render with
  | .error e => .error (.render e)
  | .ok markup =>
    match Document.parse id markup .trimmed with
    | .error e => .error (.parse e)
    | .ok d => .ok { d with rendered := some r }

/-- The document for the description that a text holds. -/
def Document.ofRendered (id : DocumentId) (text : String) : Except RenderedError Document :=
  match Rendered.Root.ofText text with
  | .error e => .error (.source e)
  | .ok r => r.document id

/-- Brings the document up to date with an update of its description, which takes the place of the description. -/
def Update.mergeRendered (text : String) : Update RenderedError Unit := do
  let document := (← get).document
  match document.rendered with
  | none => throw .noDescription
  | some current =>
    match Rendered.RootDiff.ofText text with
    | .error e => throw (.source e)
    | .ok update =>
      match current.merge update with
      | .error e => throw (.merge e)
      | .ok next =>
        match next.document document.id with
        | .error e => throw e
        | .ok incoming =>
          (merge incoming).adapt RenderedError.update
          modify fun stage => { stage with document := { stage.document with rendered := some next } }

/-- What comes of an update of the description, if it does not fail. -/
def Document.mergeRendered (d : Document) (text : String) : Except RenderedError (Document × List Change) :=
  (Update.mergeRendered text).outcome d

end LiveMarkup
