import LiveMarkup.Text.Find

/-!
# Strings in JSON

Between its quotation marks a string holds characters and escapes: a backslash with a letter, or with the number of sixteen
bits of a character, or of each half of a pair. A half of a pair that stands alone is refused, and so is a control character
that is not escaped.
-/

namespace LiveMarkup.Json

/-- The value of a digit in base sixteen. -/
def hexValue? (c : Char) : Option Nat :=
  if '0' ≤ c ∧ c ≤ '9' then some (c.toNat - '0'.toNat)
  else if 'a' ≤ c ∧ c ≤ 'f' then some (c.toNat - 'a'.toNat + 10)
  else if 'A' ≤ c ∧ c ≤ 'F' then some (c.toNat - 'A'.toNat + 10)
  else none

/-- The number of sixteen bits that four digits in base sixteen write, and what follows them. -/
def unit? : List Char → Option (Nat × List Char)
  | a :: b :: c :: d :: rest => do
    let n := (← hexValue? a) * 0x1000 + (← hexValue? b) * 0x100 + (← hexValue? c) * 0x10 + (← hexValue? d)
    some (n, rest)
  | _ => none

/-- Whether a number of sixteen bits is the first half of a pair that writes one character. -/
def isLeading (n : Nat) : Bool :=
  0xD800 ≤ n && n ≤ 0xDBFF

/-- Whether a number of sixteen bits is the second half of a pair that writes one character. -/
def isTrailing (n : Nat) : Bool :=
  0xDC00 ≤ n && n ≤ 0xDFFF

/-- The character that a pair writes. -/
def ofPair (leading trailing : Nat) : Char :=
  Char.ofNat (0x10000 + (leading - 0xD800) * 0x400 + (trailing - 0xDC00))

/-- The character written by one number of sixteen bits, or by two when the first is the leading half of a pair; the
trailing half has an escape of its own. -/
def unicodeEscape? (s : List Char) : Option (Char × List Char) :=
  match unit? s with
  | none => none
  | some (n, rest) =>
    if isTrailing n then none
    else if isLeading n then
      match (Text.after? ['\\', 'u'] rest).bind unit? with
      | some (trailing, rest) => if isTrailing trailing then some (ofPair n trailing, rest) else none
      | none => none
    else some (Char.ofNat n, rest)

/-- The character that one letter after a backslash writes. -/
def letterEscape? (c : Char) : Option Char :=
  if c = '\x22' ∨ c = '\\' ∨ c = '/' then some c
  else if c = 'b' then some '\x08'
  else if c = 'f' then some '\x0c'
  else if c = 'n' then some '\n'
  else if c = 'r' then some '\r'
  else if c = 't' then some '\t'
  else none

/-- The character that an escape writes, read from after its backslash, and what follows it. -/
def escape? : List Char → Option (Char × List Char)
  | [] => none
  | c :: rest => if c = 'u' then unicodeEscape? rest else (letterEscape? c).map (·, rest)

/-- What follows a text found at the beginning is shorter by that text. -/
theorem length_after? {lead s rest : List Char} (h : Text.after? lead s = some rest) :
    s.length = lead.length + rest.length := by
  simp [Text.after?_eq_some_iff.mp h]

/-- What follows four digits is shorter than the text it was read from. -/
theorem length_unit? {s rest : List Char} {n : Nat} (h : unit? s = some (n, rest)) : rest.length < s.length := by
  unfold unit? at h
  split at h
  · simp only [Option.bind_eq_bind, Option.bind_eq_some_iff, Option.some.injEq, Prod.mk.injEq] at h
    obtain ⟨_, _, _, _, _, _, _, _, _, rfl⟩ := h
    simp only [List.length_cons]
    omega
  · simp at h

/-- What follows an escape by number is shorter than the text it was read from. -/
theorem length_unicodeEscape? {s rest : List Char} {c : Char} (h : unicodeEscape? s = some (c, rest)) :
    rest.length < s.length := by
  unfold unicodeEscape? at h
  split at h
  · simp at h
  · rename_i hu
    have := length_unit? hu
    split at h
    · simp at h
    · split at h
      · split at h
        · rename_i hp
          obtain ⟨_, ha, hl⟩ := Option.bind_eq_some_iff.mp hp
          have h1 := length_after? ha
          have h2 := length_unit? hl
          simp only [List.length_cons, List.length_nil] at h1
          simp only [Option.ite_none_right_eq_some, Option.some.injEq, Prod.mk.injEq] at h
          obtain ⟨-, -, rfl⟩ := h
          omega
        · simp at h
      · cases h
        exact this

/-- What follows an escape is shorter than the text it was read from. -/
theorem length_escape? {s rest : List Char} {c : Char} (h : escape? s = some (c, rest)) : rest.length < s.length := by
  unfold escape? at h
  split at h
  · simp at h
  · split at h
    · have := length_unicodeEscape? h
      simp only [List.length_cons]
      omega
    · obtain ⟨_, _, he⟩ := Option.map_eq_some_iff.mp h
      cases he
      simp

/-- The characters of a string, read from after its first quotation mark, and what follows the string. -/
def stringBody? : List Char → Option (List Char × List Char)
  | [] => none
  | c :: rest =>
    if c = '\x22' then some ([], rest)
    else if c = '\\' then
      match _read : escape? rest with
      | none => none
      | some (meant, after) =>
        match stringBody? after with
        | none => none
        | some (body, after) => some (meant :: body, after)
    else if c.toNat < 0x20 then none
    else
      match stringBody? rest with
      | none => none
      | some (body, after) => some (c :: body, after)
termination_by s => s.length
decreasing_by
  · have := length_escape? _read
    simp only [List.length_cons]
    omega
  · simp

/-- What follows a string is shorter than the text it was read from. -/
theorem length_stringBody? {s body rest : List Char} (h : stringBody? s = some (body, rest)) :
    rest.length < s.length := by
  fun_induction stringBody? s generalizing body rest with
  | case2 =>
    cases h
    simp
  | case5 c rest after =>
    rename_i hr _ _ hb _ ih
    cases h
    have := length_escape? hr
    have := ih hb
    simp only [List.length_cons]
    omega
  | case8 =>
    rename_i hb ih
    cases h
    have := ih hb
    simp only [List.length_cons]
    omega
  | _ => simp at h

end LiveMarkup.Json
