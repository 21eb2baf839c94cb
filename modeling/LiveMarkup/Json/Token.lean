import LiveMarkup.Json.Basic
import LiveMarkup.Json.Escape
import LiveMarkup.Json.Spelling

/-!
# Tokens of JSON

A JSON text is read as tokens: brackets, commas and colons, the three words, numbers and strings. `Json.scan` gives the
tokens up to the first thing that is no token.
-/

namespace LiveMarkup.Json

/-- One token of JSON. -/
inductive Token
  | openArray
  | closeArray
  | openObject
  | closeObject
  | comma
  | colon
  | null
  | bool (b : Bool)
  | number (n : Number)
  | string (s : String)
deriving DecidableEq, Repr

/-- Holds of the characters that may stand between tokens. -/
def isBlank (c : Char) : Bool :=
  c == ' ' || c == '\t' || c == '\n' || c == '\r'

/-- The token that one character makes. -/
def punctuation? (c : Char) : Option Token :=
  if c = '[' then some .openArray
  else if c = ']' then some .closeArray
  else if c = '\x7b' then some .openObject
  else if c = '\x7d' then some .closeObject
  else if c = ',' then some .comma
  else if c = ':' then some .colon
  else none

/-- The token that a word makes, and what follows the word. -/
def word? (s : List Char) : Option (Token × List Char) :=
  match Text.after? "null".toList s with
  | some rest => some (.null, rest)
  | none =>
    match Text.after? "true".toList s with
    | some rest => some (.bool true, rest)
    | none => (Text.after? "false".toList s).map fun rest => (.bool false, rest)

/-- The token that stands here, and what follows it. -/
def token? : List Char → Option (Token × List Char)
  | [] => none
  | c :: rest =>
    match punctuation? c with
    | some t => some (t, rest)
    | none =>
      if c = '\x22' then (stringBody? rest).map fun (body, rest) => (.string (String.ofList body), rest)
      else
        match word? (c :: rest) with
        | some found => some found
        | none => (number? (c :: rest)).map fun (n, rest) => (.number n, rest)

/-- What follows a word is shorter than the text it was read from. -/
theorem length_word? {s rest : List Char} {t : Token} (h : word? s = some (t, rest)) : rest.length < s.length := by
  unfold word? at h
  split at h
  · rename_i ha
    cases h
    have := length_after? ha
    simp at this
    omega
  · split at h
    · rename_i ha
      cases h
      have := length_after? ha
      simp at this
      omega
    · obtain ⟨_, ha, he⟩ := Option.map_eq_some_iff.mp h
      cases he
      have := length_after? ha
      simp at this
      omega

/-- What follows a token is shorter than the text it was read from. -/
theorem length_token? {s rest : List Char} {t : Token} (h : token? s = some (t, rest)) : rest.length < s.length := by
  unfold token? at h
  split at h
  · simp at h
  · split at h
    · cases h
      simp
    · split at h
      · obtain ⟨⟨_, _⟩, hb, he⟩ := Option.map_eq_some_iff.mp h
        cases he
        have := length_stringBody? hb
        simp only [List.length_cons]
        omega
      · split at h
        · rename_i hw
          cases h
          exact length_word? hw
        · obtain ⟨⟨_, _⟩, hn, he⟩ := Option.map_eq_some_iff.mp h
          cases he
          exact length_number? hn

/-- What reading a text came to: the tokens, and whether they are all of the text. -/
structure Scan where
  tokens : List Token
  complete : Bool
deriving DecidableEq, Repr

/-- The tokens of a text, up to the first thing that is no token. -/
def scan (s : List Char) : Scan :=
  match _skipped : s.dropWhile isBlank with
  | [] => ⟨[], true⟩
  | c :: rest =>
    match _read : token? (c :: rest) with
    | none => ⟨[], false⟩
    | some (t, after) =>
      let more := scan after
      ⟨t :: more.tokens, more.complete⟩
termination_by s.length
decreasing_by
  have := length_token? _read
  have := (List.dropWhile_suffix isBlank (l := s)).length_le
  rw [_skipped] at this
  omega

end LiveMarkup.Json
