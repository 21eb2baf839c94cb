/-!
# UTF-8

The byte length of a text, and the reading of bytes that need not be UTF-8. Offsets into markup count bytes, so the
length of a piece of text is the number of bytes of its encoding.
-/

namespace LiveMarkup.Text

/-- The number of bytes that encode the text. -/
def utf8Length : List Char → Nat
  | [] => 0
  | c :: rest => c.utf8Size + utf8Length rest

/-- The encoding of two texts in a row is as long as their encodings together. -/
theorem utf8Length_append (s t : List Char) : utf8Length (s ++ t) = utf8Length s + utf8Length t := by
  induction s with
  | nil => simp [utf8Length]
  | cons c rest ih => simp [utf8Length, ih, Nat.add_assoc]

/-- The value of a byte that continues a character. -/
def continuation? (b : UInt8) : Option Nat :=
  if 0x80 ≤ b && b < 0xC0 then some (b.toNat - 0x80) else none

/-- The character with this number, provided the number needs no fewer bytes than were spent on it. -/
def charAtLeast? (least n : Nat) : Option Char :=
  if h : n.isValidChar then if least ≤ n then some (Char.ofNatAux n h) else none else none

/-- The longest beginning of the bytes that is UTF-8, as characters, and whether that is all of them. -/
def decodeUtf8 : List UInt8 → List Char × Bool
  | [] => ([], true)
  | a :: rest =>
    let keep (c : Option Char) (more : List Char × Bool) : List Char × Bool :=
      match c with
      | some c => (c :: more.1, more.2)
      | none => ([], false)
    if a < 0x80 then keep (charAtLeast? 0 a.toNat) (decodeUtf8 rest)
    else if a < 0xC0 then ([], false)
    else if a < 0xE0 then
      match rest with
      | b :: rest =>
        keep (do charAtLeast? 0x80 ((a.toNat - 0xC0) * 0x40 + (← continuation? b))) (decodeUtf8 rest)
      | [] => ([], false)
    else if a < 0xF0 then
      match rest with
      | b :: c :: rest =>
        keep (do charAtLeast? 0x800 ((a.toNat - 0xE0) * 0x1000 + (← continuation? b) * 0x40 + (← continuation? c)))
          (decodeUtf8 rest)
      | _ => ([], false)
    else if a < 0xF8 then
      match rest with
      | b :: c :: d :: rest =>
        keep (do charAtLeast? 0x10000 ((a.toNat - 0xF0) * 0x40000 + (← continuation? b) * 0x1000 +
          (← continuation? c) * 0x40 + (← continuation? d))) (decodeUtf8 rest)
      | _ => ([], false)
    else ([], false)

end LiveMarkup.Text
