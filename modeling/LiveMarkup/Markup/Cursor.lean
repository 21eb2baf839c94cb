import LiveMarkup.Text.Find
import LiveMarkup.Markup.Name

/-!
# Places in a source text

A cursor stands at a byte offset of a source text and holds the characters from there on. Reading gives a slice, which is a
piece of the source with the offset where it begins, and the cursor after it.
-/

namespace LiveMarkup

/-- A piece of the source: the byte offset where it begins, and its characters. -/
structure Slice where
  start : Nat
  chars : List Char
deriving DecidableEq, Repr

/-- The byte offset where a piece ends. -/
def Slice.stop (s : Slice) : Nat :=
  s.start + Text.utf8Length s.chars

/-- The characters of a piece as a string. -/
def Slice.text (s : Slice) : String :=
  String.ofList s.chars

/-- A place in the source: the byte offset, and the characters from there on. -/
structure Cursor where
  offset : Nat
  rest : List Char
deriving DecidableEq, Repr

namespace Cursor

/-- Holds of the characters that separate things inside a tag. -/
def isBlank (c : Char) : Bool :=
  c == ' ' || c == '\t' || c == '\n' || c == '\r' || c == '\x0c'

/-- The longest piece made of characters of one class, and the place after it. -/
def takeWhile (c : Cursor) (p : Char → Bool) : Slice × Cursor :=
  let piece := c.rest.takeWhile p
  (⟨c.offset, piece⟩, ⟨c.offset + Text.utf8Length piece, c.rest.dropWhile p⟩)

/-- The place after a fixed text, if that text stands here. -/
def past? (c : Cursor) (lead : List Char) : Option Cursor :=
  (Text.after? lead c.rest).map fun rest => ⟨c.offset + Text.utf8Length lead, rest⟩

/-- The piece before the next place where a fixed text stands, and the place after that text. -/
def upTo? (c : Cursor) (finish : List Char) : Option (Slice × Cursor) :=
  (Text.splitAt? finish c.rest).map fun (before, after) =>
    (⟨c.offset, before⟩, ⟨c.offset + Text.utf8Length before + Text.utf8Length finish, after⟩)

/-- The place after the blanks that stand here. -/
def skipBlanks (c : Cursor) : Cursor :=
  (c.takeWhile isBlank).2

/-- The longest name that stands here. -/
def name? (c : Cursor) : Option (Slice × Cursor) :=
  match c.rest with
  | [] => none
  | ch :: _ => if QName.isNameStart ch then some (c.takeWhile QName.isNameChar) else none

/-- Leaving out the characters of a class at the beginning makes a text no longer. -/
theorem length_dropWhile_le (p : Char → Bool) (s : List Char) : (s.dropWhile p).length ≤ s.length :=
  (List.dropWhile_suffix p).length_le

/-- What follows the characters of a class is no longer than the text it was read from. -/
theorem length_takeWhile (c : Cursor) (p : Char → Bool) : (c.takeWhile p).2.rest.length ≤ c.rest.length :=
  length_dropWhile_le p c.rest

/-- What follows blanks is no longer than the text it was read from. -/
theorem length_skipBlanks (c : Cursor) : c.skipBlanks.rest.length ≤ c.rest.length :=
  c.length_takeWhile isBlank

/-- What follows a fixed text is shorter by that text. -/
theorem length_past? {c d : Cursor} {lead : List Char} (h : c.past? lead = some d) :
    c.rest.length = lead.length + d.rest.length := by
  simp only [past?, Option.map_eq_some_iff] at h
  obtain ⟨rest, hr, rfl⟩ := h
  simp [Text.after?_eq_some_iff.mp hr]

/-- What follows the next place of a fixed text is shorter by that text at least. -/
theorem length_upTo? {c d : Cursor} {finish : List Char} {s : Slice} (h : c.upTo? finish = some (s, d)) :
    d.rest.length + finish.length ≤ c.rest.length := by
  simp only [upTo?, Option.map_eq_some_iff] at h
  obtain ⟨⟨before, after⟩, hs, he⟩ := h
  simp only [Prod.mk.injEq] at he
  obtain ⟨-, rfl⟩ := he
  exact Text.length_after_le hs

/-- What follows a name is shorter than the text it was read from. -/
theorem length_name? {c d : Cursor} {s : Slice} (h : c.name? = some (s, d)) : d.rest.length < c.rest.length := by
  unfold name? at h
  split at h
  · simp at h
  · rename_i ch rest hr
    split at h
    · rename_i hs
      simp only [takeWhile, hr, Option.some.injEq, Prod.mk.injEq] at h
      obtain ⟨-, rfl⟩ := h
      rw [hr, List.dropWhile_cons_of_pos (QName.isNameChar_of_isNameStart hs)]
      exact Nat.lt_succ_of_le (length_dropWhile_le _ _)
    · simp at h

end Cursor

end LiveMarkup
