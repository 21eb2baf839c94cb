import LiveMarkup.Text.Quoted
import LiveMarkup.Markup.Error
import LiveMarkup.Markup.Listing
import LiveMarkup.Edit.Basic
import LiveMarkup.Store.Error

/-!
# Edits that cannot be carried out

Three things can be wrong with a list of edits: it cannot be read, one of its edits does not fit the tree it is meant for,
or one asks for what no document allows.
-/

namespace LiveMarkup

/-- Why a list of edits cannot be read. -/
inductive ReadError
  /-- The text is not a list of edits. -/
  | malformed
  /-- A tree is not listed as one. -/
  | listing (error : ListingError)
  /-- An edit would write a name that markup cannot hold. -/
  | illegalName (edit : Nat) (kind : NameKind) (name : QName)
deriving DecidableEq, Repr

/-- A name in quotation marks, its namespace before it if it has one. -/
def QName.quoted (q : QName) : String :=
  if q.space.isEmpty then Text.quoted q.base else Text.quoted q.space ++ " : " ++ Text.quoted q.base

/-- The text of the error, where there is more to say than that the list cannot be read. -/
def ReadError.message? : ReadError → Option String
  | malformed => none
  | listing error => some error.message
  | illegalName edit kind name => some s!"edit #{edit}: invalid {kind.word} name {name.quoted}"

/-- Why an edit does not fit a tree. -/
inductive Misfit
  /-- A step of the path leads nowhere: the node it starts from is a text, or has too few children. -/
  | noStep (path : Path) (depth : Nat) (fromLeaf : Bool)
  /-- Attributes are meant for what is not an element. -/
  | notElement (path : Path)
  /-- Content is meant for what is not a text. -/
  | notLeaf (path : Path)
  /-- A child is meant for a text. -/
  | leafParent (path : Path)
deriving DecidableEq, Repr

/-- The text of the misfit. -/
def Misfit.message : Misfit → String
  | noStep path depth fromLeaf =>
    let what := if fromLeaf then "a leaf" else "out of range"
    s!"path {path.written} does not resolve: step {depth} is {what}"
  | notElement path => s!"set_attributes target {path.written} is not an element"
  | notLeaf path => s!"set_text target {path.written} is not a leaf"
  | leafParent path => s!"append parent {path.written} is a leaf"

/-- Why one edit cannot be carried out. -/
inductive EditFault
  | misfit (reason : Misfit)
  | rejected (error : StoreError)
deriving DecidableEq, Repr

/-- Why a list of edits cannot be carried out. -/
inductive EditError
  /-- The list cannot be read. -/
  | unreadable (error : ReadError)
  /-- An edit does not fit the tree that the edits before it left. -/
  | misfit (edit : Nat) (reason : Misfit)
  /-- An edit asks for what no document allows. -/
  | rejected (edit : Nat) (error : StoreError)
deriving DecidableEq, Repr

namespace EditFault

/-- The fault of the edit with a number. -/
def numbered (edit : Nat) : EditFault → EditError
  | misfit reason => .misfit edit reason
  | rejected error => .rejected edit error

end EditFault

/-- The text of the error, where there is one. -/
def EditError.message? : EditError → Option String
  | unreadable error => error.message?
  | misfit edit reason => some s!"patch edit #{edit} does not match the document: {reason.message}"
  | rejected edit error => some s!"patch edit #{edit} rejected: {error.message}"

end LiveMarkup
