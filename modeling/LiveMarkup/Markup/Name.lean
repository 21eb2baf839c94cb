import LiveMarkup.Text.Utf8

/-!
# Names in markup

An element or attribute is named by a namespace and a base name, written `space:base`, or just `base` when the namespace
is empty. A name is *legal* when writing it down and reading it back gives the same pair.
-/

namespace LiveMarkup

/-- The name of an element or attribute. -/
structure QName where
  /-- The namespace, empty when the name has none. -/
  space : String
  /-- The name within the namespace. -/
  base : String
deriving DecidableEq, Repr, Inhabited

namespace QName

/-- Holds of the characters that may begin a name: letters, the underscore, and everything outside ASCII. -/
def isNameStart (c : Char) : Bool :=
  c.isAlpha || c == '_' || 0x80 ≤ c.toNat

/-- Holds of the characters that may continue a name. -/
def isNameChar (c : Char) : Bool :=
  c.isAlphanum || c == '_' || c == '-' || c == '.' || c == ':' || 0x80 ≤ c.toNat

/-- A character that begins a name may also continue one. -/
theorem isNameChar_of_isNameStart {c : Char} (h : isNameStart c = true) : isNameChar c = true := by
  simp only [isNameStart, isNameChar, Char.isAlphanum, Bool.or_eq_true] at h ⊢
  rcases h with (h | h) | h <;> simp [h]

/-- The name without a namespace. -/
def plain (base : String) : QName :=
  ⟨"", base⟩

/-- The name as it is written in markup. -/
def qualified (q : QName) : String :=
  if q.space.isEmpty then q.base else q.space ++ ":" ++ q.base

/-- The characters before and after the first colon. -/
def splitColon? : List Char → Option (List Char × List Char)
  | [] => none
  | c :: rest => if c = ':' then some ([], rest) else (splitColon? rest).map fun (before, after) => (c :: before, after)

/-- The name that characters of a name spell: at most one colon, with something on both sides of it. -/
def ofWritten? (s : List Char) : Option QName :=
  match splitColon? s with
  | none => some ⟨"", String.ofList s⟩
  | some (space, base) =>
    if space.isEmpty || base.isEmpty || base.contains ':' then none
    else some ⟨String.ofList space, String.ofList base⟩

/-- Holds of a text that can stand on one side of the colon. -/
def isPart (s : List Char) : Bool :=
  !s.isEmpty && s.all fun c => c != ':' && isNameChar c

/-- Whether markup can hold the name: both parts are made of name characters, and what is written first begins like a
name. -/
def isLegal (q : QName) : Bool :=
  let first := if q.space.isEmpty then q.base else q.space
  (first.toList.head?.any isNameStart) && isPart q.base.toList && (q.space.isEmpty || isPart q.space.toList)

end QName

/-- A named value of an element. -/
structure Attribute where
  name : QName
  value : String
deriving DecidableEq, Repr, Inhabited

/-- Whether a written name asks for this attribute: what stands before its first colon must be the namespace. -/
def Attribute.isNamed (a : Attribute) (written : String) : Bool :=
  match QName.splitColon? written.toList with
  | some (space, base) => a.name.space.toList == space && a.name.base.toList == base
  | none => a.name.space.isEmpty && a.name.base == written

end LiveMarkup
