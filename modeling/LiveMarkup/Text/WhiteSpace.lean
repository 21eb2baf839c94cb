/-!
# White space

The characters with the Unicode property White_Space, and what is built on them: a text without the white space at its
ends, and the words of a text.
-/

namespace LiveMarkup.Text

/-- Holds of the twenty-five characters with the Unicode property White_Space. -/
def isWhiteSpace (c : Char) : Bool :=
  let n := c.toNat
  (0x9 ≤ n && n ≤ 0xD) || n == 0x20 || n == 0x85 || n == 0xA0 || n == 0x1680 || (0x2000 ≤ n && n ≤ 0x200A) ||
    n == 0x2028 || n == 0x2029 || n == 0x202F || n == 0x205F || n == 0x3000

/-- The text without the white space at its two ends. -/
def trim (s : List Char) : List Char :=
  ((s.dropWhile isWhiteSpace).reverse.dropWhile isWhiteSpace).reverse

/-- The longest runs of characters that are not white space, in order. -/
def words (s : List Char) : List (List Char) :=
  (s.splitOnP isWhiteSpace).filter fun word => !word.isEmpty

end LiveMarkup.Text
