import LiveMarkup.Text.Utf8

/-!
# Positions in a source text

A place in a text is a byte offset; a reader is told its line and column. Lines end with a line feed, and a column is one
more than the number of characters of the line that begin before the place, so a place inside a character counts that
character.
-/

namespace LiveMarkup

/-- A place in a text: the byte offset, and line and column counted from one. -/
structure Position where
  offset : Nat
  line : Nat
  column : Nat
deriving DecidableEq, Repr

namespace Position

/-- The line and column reached from a line and column by the characters that begin in the next `offset` bytes. -/
def walk : List Char → (offset line column : Nat) → Nat × Nat
  | [], _, line, column => (line, column)
  | c :: rest, offset, line, column =>
    if offset = 0 then (line, column)
    else if c = '\n' then walk rest (offset - c.utf8Size) (line + 1) 1
    else walk rest (offset - c.utf8Size) line (column + 1)

/-- The place at a byte offset; an offset beyond the end of the text means the end. -/
def locate (text : List Char) (offset : Nat) : Position :=
  let offset := min offset (Text.utf8Length text)
  let (line, column) := walk text offset 1 1
  ⟨offset, line, column⟩

/-- The place as messages write it. -/
def written (p : Position) : String :=
  s!"{p.line}:{p.column}"

end Position

end LiveMarkup
