import LiveMarkup.Json.Number

/-!
# Numbers as they are spelled

A number is spelled by a minus sign if it is negative, its whole digits, a point and further digits if it has a fraction,
and an exponent if it has one. Whole digits do not begin with a zero unless that is all of them.
-/

namespace LiveMarkup.Json

/-- Holds of the decimal digits. -/
def isDigit (c : Char) : Bool :=
  '0' ≤ c && c ≤ '9'

/-- One digit or more. -/
def digits? (s : List Char) : Option (List Char × List Char) :=
  let digits := s.takeWhile isDigit
  if digits.isEmpty then none else some (digits, s.dropWhile isDigit)

/-- The digits of a whole number: a zero alone, or digits that do not begin with zero. -/
def wholeDigits? : List Char → Option (List Char × List Char)
  | [] => none
  | c :: rest => if c = '0' then some (['0'], rest) else digits? (c :: rest)

/-- The digits after the point, if a point stands here. -/
def fraction? : List Char → Option (Option (List Char) × List Char)
  | [] => some (none, [])
  | c :: rest =>
    if c = '.' then (digits? rest).map fun (digits, rest) => (some digits, rest) else some (none, c :: rest)

/-- The sign that stands here, if one does: whether it is a minus, and what follows it. -/
def sign : List Char → Bool × List Char
  | [] => (false, [])
  | c :: rest => if c = '-' then (true, rest) else if c = '+' then (false, rest) else (false, c :: rest)

/-- The exponent, if one stands here: whether it is negative, and its digits. -/
def exponent? : List Char → Option (Option (Bool × List Char) × List Char)
  | [] => some (none, [])
  | c :: rest =>
    if c = 'e' ∨ c = 'E' then
      (digits? (sign rest).2).map fun (digits, after) => (some ((sign rest).1, digits), after)
    else some (none, c :: rest)

/-- A number without a sign as it is spelled, and what follows it. -/
def magnitude? (negative : Bool) (s : List Char) : Option (Number.Spelling × List Char) :=
  match wholeDigits? s with
  | none => none
  | some (whole, s) =>
    match fraction? s with
    | none => none
    | some (fraction, s) =>
      match exponent? s with
      | none => none
      | some (exponent, s) =>
        some (⟨negative, whole, fraction.getD [], exponent, fraction.isSome || exponent.isSome⟩, s)

/-- A number as it is spelled, and what follows it. -/
def spelling? : List Char → Option (Number.Spelling × List Char)
  | [] => none
  | c :: rest => if c = '-' then magnitude? true rest else magnitude? false (c :: rest)

/-- A number and what follows it. -/
def number? (s : List Char) : Option (Number × List Char) :=
  match spelling? s with
  | none => none
  | some (spelling, rest) => (Number.ofSpelling? spelling).map (·, rest)

/-- What follows a run of digits is shorter than the text it was read from. -/
theorem length_digits? {s digits rest : List Char} (h : digits? s = some (digits, rest)) : rest.length < s.length := by
  simp only [digits?] at h
  split at h
  · simp at h
  · rename_i hne
    cases h
    have := congrArg List.length (List.takeWhile_append_dropWhile (p := isDigit) (l := s))
    simp only [List.length_append] at this
    have : 0 < (s.takeWhile isDigit).length := by
      rw [List.length_pos_iff]
      simpa using hne
    omega

/-- What follows the digits of a whole number is shorter than the text it was read from. -/
theorem length_wholeDigits? {s digits rest : List Char} (h : wholeDigits? s = some (digits, rest)) :
    rest.length < s.length := by
  unfold wholeDigits? at h
  split at h
  · simp at h
  · split at h
    · cases h
      simp
    · exact length_digits? h

/-- What follows a fraction is no longer than the text it was read from. -/
theorem length_fraction? {s rest : List Char} {digits : Option (List Char)} (h : fraction? s = some (digits, rest)) :
    rest.length ≤ s.length := by
  unfold fraction? at h
  split at h
  · cases h
    simp
  · split at h
    · obtain ⟨⟨_, _⟩, hd, he⟩ := Option.map_eq_some_iff.mp h
      cases he
      have := length_digits? hd
      simp only [List.length_cons]
      omega
    · cases h
      exact Nat.le_refl _

/-- What follows a sign is no longer than the text it was read from. -/
theorem length_sign (s : List Char) : (sign s).2.length ≤ s.length := by
  unfold sign
  split
  · simp
  · split
    · simp
    · split <;> simp

/-- What follows an exponent is no longer than the text it was read from. -/
theorem length_exponent? {s rest : List Char} {e : Option (Bool × List Char)} (h : exponent? s = some (e, rest)) :
    rest.length ≤ s.length := by
  unfold exponent? at h
  split at h
  · cases h
    simp
  · split at h
    · rename_i rest _
      obtain ⟨⟨_, _⟩, hd, he⟩ := Option.map_eq_some_iff.mp h
      cases he
      have := length_digits? hd
      have := length_sign rest
      simp only [List.length_cons]
      omega
    · cases h
      exact Nat.le_refl _

/-- What follows a number without a sign is shorter than the text it was read from. -/
theorem length_magnitude? {negative : Bool} {s rest : List Char} {n : Number.Spelling}
    (h : magnitude? negative s = some (n, rest)) : rest.length < s.length := by
  unfold magnitude? at h
  split at h
  · simp at h
  · rename_i hw
    split at h
    · simp at h
    · rename_i hf
      split at h
      · simp at h
      · rename_i he
        cases h
        have := length_wholeDigits? hw
        have := length_fraction? hf
        have := length_exponent? he
        omega

/-- What follows a number is shorter than the text it was read from. -/
theorem length_number? {s rest : List Char} {n : Number} (h : number? s = some (n, rest)) : rest.length < s.length := by
  unfold number? spelling? at h
  split at h
  · simp at h
  · rename_i hs
    obtain ⟨_, _, he⟩ := Option.map_eq_some_iff.mp h
    cases he
    split at hs
    · simp at hs
    · split at hs
      · have := length_magnitude? hs
        simp only [List.length_cons]
        omega
      · exact length_magnitude? hs

end LiveMarkup.Json
