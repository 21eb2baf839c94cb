/-!
# Finding text in text

A text at the beginning of another, and the first place where one text stands in another. Nothing is lost on the way:
`splitAt?_eq_some` says that what comes before the place, the text found and what comes after it make up the text
searched.
-/

namespace LiveMarkup.Text

/-- What follows `lead` in a text that begins with it. -/
def after? : List Char → List Char → Option (List Char)
  | [], s => some s
  | _ :: _, [] => none
  | l :: lead, c :: s => if l = c then after? lead s else none

/-- What comes before and after the first place where `needle` stands. -/
def splitAt? (needle : List Char) : List Char → Option (List Char × List Char)
  | [] => if needle.isEmpty then some ([], []) else none
  | c :: rest =>
    match after? needle (c :: rest) with
    | some after => some ([], after)
    | none =>
      match splitAt? needle rest with
      | some (before, after) => some (c :: before, after)
      | none => none

/-- Whether `needle` stands somewhere in the text. -/
def holds (needle s : List Char) : Bool :=
  (splitAt? needle s).isSome

/-- What follows `lead` is the rest of a text that begins with it. -/
theorem after?_eq_some_iff {lead s rest : List Char} : after? lead s = some rest ↔ s = lead ++ rest := by
  induction lead generalizing s with
  | nil => simp [after?]
  | cons l lead ih =>
    cases s with
    | nil => simp [after?]
    | cons c s =>
      by_cases h : l = c
      · simp [after?, h, ih]
      · simp [after?, h, Ne.symm h]

/-- A text that was split is what came before, the text found, and what came after. -/
theorem splitAt?_eq_some {needle s before after : List Char} (h : splitAt? needle s = some (before, after)) :
    s = before ++ needle ++ after := by
  induction s generalizing before after with
  | nil =>
    simp only [splitAt?, List.isEmpty_iff] at h
    split at h <;> simp_all
  | cons c rest ih =>
    simp only [splitAt?] at h
    split at h
    · rename_i out hp
      obtain ⟨rfl, rfl⟩ : [] = before ∧ out = after := by simpa using h
      simpa using after?_eq_some_iff.mp hp
    · split at h
      · rename_i b a hs
        obtain ⟨rfl, rfl⟩ : c :: b = before ∧ a = after := by simpa using h
        simp [ih hs]
      · simp at h

/-- What follows the text found is shorter than the text searched by what was found at least. -/
theorem length_after_le {needle s before after : List Char} (h : splitAt? needle s = some (before, after)) :
    after.length + needle.length ≤ s.length := by
  simp only [splitAt?_eq_some h, List.length_append]
  omega

end LiveMarkup.Text
