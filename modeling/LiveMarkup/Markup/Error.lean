import LiveMarkup.Markup.Position

/-!
# Markup that cannot be read

Why a source text is not markup, and how the reader is told: a cause, and the place where it was found.
-/

namespace LiveMarkup

/-- What a name in a tag names. -/
inductive NameKind
  | elementName
  | attributeName
deriving DecidableEq, Repr

/-- The word for what is named. -/
def NameKind.word : NameKind → String
  | elementName => "element"
  | attributeName => "attribute"

/-- Why a source text is not markup. -/
inductive MarkupFault
  | unterminatedComment
  | unterminatedSection
  | unterminatedDeclaration
  | unterminatedInstruction
  | unterminatedReference
  | invalidReference (written : String)
  | expectedName (kind : NameKind)
  | invalidName (kind : NameKind) (written : String)
  | unterminatedStartTag
  | expectedTagEnd
  | expectedBlank
  | unterminatedValue
  | invalidBareValue
  | unterminatedEndTag
  | unexpectedEndTag (found : String)
  | mismatchedEndTag (expected found : String)
  | unclosedElement (name : String)
deriving DecidableEq, Repr

/-- The text of the fault. -/
def MarkupFault.message : MarkupFault → String
  | unterminatedComment => "unterminated comment"
  | unterminatedSection => "unterminated CDATA section"
  | unterminatedDeclaration => "unterminated doctype"
  | unterminatedInstruction => "unterminated processing instruction"
  | unterminatedReference => "unterminated character reference"
  | invalidReference written => s!"invalid character reference `&{written};`"
  | expectedName kind => s!"expected {kind.word} name"
  | invalidName kind written => s!"invalid {kind.word} name `{written}`"
  | unterminatedStartTag => "unterminated start tag"
  | expectedTagEnd => "expected `>` after `/`"
  | expectedBlank => "expected whitespace before attribute"
  | unterminatedValue => "unterminated attribute value"
  | invalidBareValue => "invalid unquoted attribute value"
  | unterminatedEndTag => "unterminated end tag"
  | unexpectedEndTag found => s!"unexpected end tag </{found}>"
  | mismatchedEndTag expected found => s!"mismatched end tag: expected </{expected}>, found </{found}>"
  | unclosedElement name => s!"unclosed element <{name}>"

/-- A fault and the byte offset where it was found. -/
structure FaultAt where
  offset : Nat
  fault : MarkupFault
deriving DecidableEq, Repr

/-- A fault and where it stands in the source text. -/
structure ParseError where
  fault : MarkupFault
  position : Position
deriving DecidableEq, Repr

/-- The fault with its place in the text looked up. -/
def FaultAt.locate (f : FaultAt) (text : List Char) : ParseError :=
  ⟨f.fault, Position.locate text f.offset⟩

/-- The error with its place. -/
def ParseError.message (e : ParseError) : String :=
  s!"syntax error at {e.position.written}: {e.fault.message}"

end LiveMarkup
