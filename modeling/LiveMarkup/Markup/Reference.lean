import LiveMarkup.Text.Find
import LiveMarkup.Markup.Error

/-!
# Character references

In text and in values an ampersand that is followed by a letter or `#` begins a reference, which ends at the next
semicolon and stands for one character: by name, or by the number of its code point. Any other ampersand stands for
itself.
-/

namespace LiveMarkup.Reference

/-- The value of a digit in a base of at most sixteen. -/
def digit? (base : Nat) (c : Char) : Option Nat :=
  let value? :=
    if '0' ≤ c ∧ c ≤ '9' then some (c.toNat - '0'.toNat)
    else if 'a' ≤ c ∧ c ≤ 'f' then some (c.toNat - 'a'.toNat + 10)
    else if 'A' ≤ c ∧ c ≤ 'F' then some (c.toNat - 'A'.toNat + 10)
    else none
  value?.filter (· < base)

/-- The number that digits write after a number already read. -/
def digits? (base : Nat) : Nat → List Char → Option Nat
  | n, [] => some n
  | n, c :: rest =>
    match digit? base c with
    | some d => digits? base (n * base + d) rest
    | none => none

/-- The number that a text writes: at least one digit, with a plus sign before it or not. -/
def number? (base : Nat) (s : List Char) : Option Nat :=
  let s := match s with
    | '+' :: rest => rest
    | s => s
  if s.isEmpty then none else digits? base 0 s

/-- The character with a code point, which must be a character other than the null character. -/
def ofCodePoint? (n : Nat) : Option Char :=
  if n.isValidChar ∧ n ≠ 0 then some (Char.ofNat n) else none

/-- The character that a reference stands for, by what is written between the ampersand and the semicolon. -/
def meaning? (name : List Char) : Option Char :=
  match name with
  | ['l', 't'] => some '<'
  | ['g', 't'] => some '>'
  | ['a', 'm', 'p'] => some '&'
  | ['q', 'u', 'o', 't'] => some '\x22'
  | ['a', 'p', 'o', 's'] => some '\x27'
  | '#' :: 'x' :: hex => (number? 16 hex).bind ofCodePoint?
  | '#' :: 'X' :: hex => (number? 16 hex).bind ofCodePoint?
  | '#' :: decimal => (number? 10 decimal).bind ofCodePoint?
  | _ => none

/-- Whether an ampersand before this text begins a reference. -/
def begins (s : List Char) : Bool :=
  match s with
  | c :: _ => c == '#' || c.isAlpha
  | [] => false

/-- The text with every reference replaced by its character. The text begins at a byte offset of the source. -/
def decode (offset : Nat) : List Char → Except FaultAt (List Char)
  | [] => .ok []
  | c :: rest =>
    if c = '&' ∧ begins rest then
      match _found : Text.splitAt? [';'] rest with
      | none => .error ⟨offset, .unterminatedReference⟩
      | some (name, after) =>
        match meaning? name with
        | none => .error ⟨offset, .invalidReference (String.ofList name)⟩
        | some meant =>
          match decode (offset + Text.utf8Length ('&' :: name ++ [';'])) after with
          | .ok decoded => .ok (meant :: decoded)
          | .error e => .error e
    else
      match decode (offset + c.utf8Size) rest with
      | .ok decoded => .ok (c :: decoded)
      | .error e => .error e
termination_by s => s.length
decreasing_by
  · have := Text.length_after_le _found
    simp at this ⊢
    omega
  · simp

end LiveMarkup.Reference
