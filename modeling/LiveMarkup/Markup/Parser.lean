import LiveMarkup.Text.WhiteSpace
import LiveMarkup.Markup.Forest
import LiveMarkup.Markup.Token

/-!
# Reading markup

The tokens of a source text are put together into a forest. Text gathers across asides and literal sections and becomes
one node at the next tag; every element is ended by a tag with the name it was begun with, and none is ended for it. The
first fault in the order of the source is the one reported: a fault of a tag that stands where it may not comes before the
first text that is no token.
-/

namespace LiveMarkup

/-- What becomes of white space at the ends of a text. -/
inductive Spacing
  /-- It is dropped, and a text made of nothing else with it. -/
  | trimmed
  /-- It is kept as it is written. -/
  | kept
deriving DecidableEq, Repr

/-- The text of a node for the text that was read. -/
def Spacing.apply : Spacing → List Char → List Char
  | trimmed, text => Text.trim text
  | kept, text => text

/-- An element that has been begun and not ended. -/
structure OpenElement where
  /-- The byte offset of its tag. -/
  offset : Nat
  /-- Its name as it was written. -/
  written : Slice
  name : QName
  attributes : List Attribute
  /-- The siblings before it, the nearest first. -/
  before : List Tree
deriving Repr

/-- How far a forest has been put together. -/
structure Nesting where
  /-- The elements that are not ended, the innermost first. -/
  opened : List OpenElement
  /-- The nodes of the innermost of them so far, the last first. -/
  siblings : List Tree
  /-- The text read since the last tag. -/
  text : List Char
deriving Repr

namespace Nesting

/-- Nothing has been read. -/
def start : Nesting := ⟨[], [], []⟩

/-- The text read since the last tag becomes a node, unless nothing is left of it. -/
def flush (spacing : Spacing) (n : Nesting) : Nesting :=
  let text := spacing.apply n.text
  { n with
    siblings := if text.isEmpty then n.siblings else .leaf (String.ofList text) :: n.siblings
    text := [] }

/-- An element begins, and ends at once if it is closed. -/
def begin (n : Nesting) (offset : Nat) (written : Slice) (name : QName) (attributes : List Attribute) (closed : Bool) :
    Nesting :=
  if closed then { n with siblings := .element name attributes .nil :: n.siblings }
  else { n with opened := ⟨offset, written, name, attributes, n.siblings⟩ :: n.opened, siblings := [] }

/-- The innermost element ends, provided it has the name that the tag gives. -/
def finish (n : Nesting) (offset : Nat) (written : Slice) : Except FaultAt Nesting :=
  match n.opened with
  | [] => .error ⟨offset, .unexpectedEndTag written.text⟩
  | e :: outer =>
    if e.written.chars = written.chars then
      .ok { n with
        opened := outer
        siblings := .element e.name e.attributes (.ofList n.siblings.reverse) :: e.before }
    else .error ⟨offset, .mismatchedEndTag e.written.text written.text⟩

/-- Takes in one token. -/
def step (spacing : Spacing) (n : Nesting) : Token → Except FaultAt Nesting
  | .text _ decoded => .ok { n with text := n.text ++ decoded }
  | .verbatim body => .ok { n with text := n.text ++ body.chars }
  | .aside _ => .ok n
  | .startTag offset written name attributes closed =>
    .ok ((n.flush spacing).begin offset written name (attributes.map AttributeToken.meaning) closed)
  | .endTag offset written => (n.flush spacing).finish offset written

/-- Takes in tokens, one after the other. -/
def steps (spacing : Spacing) : Nesting → List Token → Except FaultAt Nesting
  | n, [] => .ok n
  | n, t :: rest =>
    match n.step spacing t with
    | .error e => .error e
    | .ok n => n.steps spacing rest

/-- The forest, once the source has been read: no element may be left open. -/
def forest (spacing : Spacing) (n : Nesting) : Except FaultAt Forest :=
  match n.opened with
  | e :: _ => .error ⟨e.offset, .unclosedElement e.written.text⟩
  | [] => .ok (.ofList (n.flush spacing).siblings.reverse)

end Nesting

/-- The forest that a scanned source describes. -/
def Scan.forest (spacing : Spacing) (s : Scan) : Except FaultAt Forest :=
  match Nesting.start.steps spacing s.tokens, s.fault with
  | .error e, _ => .error e
  | .ok _, some e => .error e
  | .ok n, none => n.forest spacing

/-- The forest that a source text describes. -/
def Forest.parse (source : String) (spacing : Spacing) : Except ParseError Forest :=
  let text := source.toList
  match (Scan.ofSource text).forest spacing with
  | .error e => .error (e.locate text)
  | .ok f => .ok f

end LiveMarkup
