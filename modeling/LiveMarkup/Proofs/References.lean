import Mathlib.Data.List.Infix
import LiveMarkup.Proofs.Grammar

/-!
# Searching and references

A text is split where what is searched for ends for the first time (`Text.splitAt?_eq_some_iff`). References are read as the
grammar says (`Reference.decoded_of_decode`, `Reference.Decoded.decode_eq`); of what is written piece by piece it is known
besides that it is read so in front of any text (`Reference.Spells`).
-/

namespace LiveMarkup

/-! ## Searching -/

namespace Text

variable {finish before after s : List Char}

/-- An ending ends with itself. -/
theorem UpToFirst.self (finish : List Char) : UpToFirst finish finish := by
  refine ⟨List.suffix_refl finish, ?_⟩
  intro b a heq
  have hlengths := congrArg List.length heq
  simp only [List.length_append] at hlengths
  exact List.length_eq_zero_iff.mp (by omega)

/-- What ends a text for the first time and stands at its beginning is the whole text. -/
theorem UpToFirst.eq_nil (h : UpToFirst finish (before ++ finish)) (hhere : finish <+: before ++ finish) : before = [] := by
  obtain ⟨more, hmore⟩ := hhere
  have hnil := h.first [] more (by rw [List.nil_append, hmore])
  rw [hnil, List.append_nil] at hmore
  exact List.self_eq_append_left.mp hmore

/-- One character more changes nothing where `finish` does not stand with it. -/
theorem upToFirst_cons_iff {c : Char} (hhere : ¬finish <+: c :: (before ++ finish)) :
    UpToFirst finish (c :: (before ++ finish)) ↔ UpToFirst finish (before ++ finish) := by
  constructor
  · intro h
    refine ⟨List.suffix_append before finish, ?_⟩
    intro b a heq
    exact h.first (c :: b) a (by rw [heq]; rfl)
  · intro h
    refine ⟨List.suffix_append (c :: before) finish, ?_⟩
    intro b a heq
    cases b with
    | nil => exact absurd ⟨a, heq.symm⟩ hhere
    | cons x b => exact h.first b a (List.cons.inj heq).2

/-- Where the text does not stand at once it is found in what follows. -/
theorem splitAt?_cons_eq_some {c : Char} (h : ¬finish <+: c :: s) :
    splitAt? finish (c :: s) = some (before, after) ↔
      ∃ rest, before = c :: rest ∧ splitAt? finish s = some (rest, after) := by
  have hnone : after? finish (c :: s) = none := by
    rw [Option.eq_none_iff_forall_ne_some]
    intro out hout
    exact h ⟨out, (after?_eq_some_iff.mp hout).symm⟩
  rw [splitAt?, hnone]
  cases splitAt? finish s with
  | none => simp
  | some split =>
    obtain ⟨rest, after'⟩ := split
    simp only [Option.some.injEq, Prod.mk.injEq]
    constructor
    · rintro ⟨rfl, rfl⟩
      exact ⟨rest, rfl, rfl, rfl⟩
    · rintro ⟨_, rfl, rfl, rfl⟩
      exact ⟨rfl, rfl⟩

/-- A text is split where `finish` first ends. -/
theorem splitAt?_eq_some_iff (hne : finish ≠ []) :
    splitAt? finish s = some (before, after) ↔
      s = before ++ finish ++ after ∧ UpToFirst finish (before ++ finish) := by
  induction s generalizing before with
  | nil =>
    rw [splitAt?, if_neg (by rwa [List.isEmpty_iff])]
    simp [hne]
  | cons c rest ih =>
    by_cases hhere : finish <+: c :: rest
    · obtain ⟨out, hout⟩ := hhere
      rw [splitAt?, after?_eq_some_iff.mpr hout.symm]
      constructor
      · intro h
        cases h
        exact ⟨hout.symm, .self finish⟩
      · rintro ⟨hs, hfirst⟩
        have hpiece : before ++ finish <+: c :: rest := ⟨after, hs.symm⟩
        have hnil := hfirst.eq_nil (List.prefix_of_prefix_length_le ⟨out, hout⟩ hpiece (by simp))
        rw [hnil, List.nil_append, ← hout] at hs
        rw [hnil, List.append_cancel_left hs]
    · rw [splitAt?_cons_eq_some hhere]
      constructor
      · rintro ⟨before, rfl, hsplit⟩
        obtain ⟨rfl, hfirst⟩ := ih.mp hsplit
        refine ⟨rfl, (upToFirst_cons_iff ?_).mpr hfirst⟩
        exact fun hpiece => hhere (hpiece.trans (List.prefix_append _ after))
      · rintro ⟨hs, hfirst⟩
        cases before with
        | nil => exact absurd ⟨after, hs.symm⟩ hhere
        | cons x before =>
          obtain ⟨rfl, rfl⟩ := List.cons.inj hs
          refine ⟨before, rfl, ih.mpr ⟨rfl, (upToFirst_cons_iff ?_).mp hfirst⟩⟩
          exact fun hpiece => hhere (hpiece.trans (List.prefix_append _ after))

/-- One character ends a text for the first time where it does not stand before. -/
theorem upToFirst_singleton {x : Char} {s : List Char} : UpToFirst [x] (s ++ [x]) ↔ x ∉ s := by
  constructor
  · rintro ⟨-, hfirst⟩ hmem
    obtain ⟨before, after, rfl⟩ := List.append_of_mem hmem
    have hnil := hfirst before (after ++ [x]) (by simp)
    simp at hnil
  · intro hx
    refine ⟨List.suffix_append s [x], ?_⟩
    intro before after heq
    rcases List.eq_nil_or_concat after with rfl | ⟨more, y, rfl⟩
    · rfl
    · rw [List.concat_eq_append, ← List.append_assoc] at heq
      obtain ⟨hs, -⟩ := List.append_inj' heq rfl
      exact absurd (by simp [hs]) hx

/-- The first place of a character is before everything that follows it. -/
theorem splitAt?_singleton {x : Char} {s : List Char} (h : x ∉ s) (rest : List Char) :
    splitAt? [x] (s ++ x :: rest) = some (s, rest) := by
  rw [splitAt?_eq_some_iff (List.cons_ne_nil x [])]
  exact ⟨by simp, upToFirst_singleton.mpr h⟩

/-- A character is searched for in vain exactly if it is not there. -/
theorem splitAt?_singleton_eq_none_iff {x : Char} {s : List Char} : splitAt? [x] s = none ↔ x ∉ s := by
  constructor
  · intro h hmem
    obtain ⟨before, after, rfl, hx⟩ := List.eq_append_cons_of_mem hmem
    rw [splitAt?_singleton hx] at h
    cases h
  · intro hx
    rw [Option.eq_none_iff_forall_ne_some]
    intro split hsplit
    obtain ⟨hs, -⟩ := (splitAt?_eq_some_iff (List.cons_ne_nil x [])).mp hsplit
    exact hx (by simp [hs])

end Text

/-! ## References -/

namespace Reference

/-- What stands for a character goes on like a reference. -/
theorem begins_of_meaning? {name : List Char} {c : Char} (h : meaning? name = some c) : begins name = true := by
  unfold meaning? at h
  split at h <;> first | rfl | cases h

/-- Where what follows begins no reference, only the text itself can. -/
theorem begins_append {s rest : List Char} (hrest : begins rest = false) : begins (s ++ rest) = begins s := by
  cases s with
  | nil => exact hrest
  | cons c s => rfl

/-- A character that does not begin a reference stands as it is. -/
theorem decode_plain {c : Char} {rest : List Char} (hc : c = '&' → begins rest = false) (offset : Nat) :
    decode offset (c :: rest) = (decode (offset + c.utf8Size) rest).map (List.cons c) := by
  have hplain : ¬(c = '&' ∧ begins rest = true) := by
    rintro ⟨hamp, hbegins⟩
    rw [hc hamp] at hbegins
    cases hbegins
  rw [decode, if_neg hplain]
  cases decode (offset + c.utf8Size) rest <;> rfl

/-- In front of any text the characters are read as others, which may have been written as references. -/
def Spells (written meant : List Char) : Prop :=
  ∀ offset rest, decode offset (written ++ rest) =
    (decode (offset + Text.utf8Length written) rest).map fun decoded => meant ++ decoded

namespace Spells

variable {w w' s s' : List Char}

theorem nil : Spells [] [] := by
  intro offset rest
  rw [List.nil_append, Text.utf8Length, Nat.add_zero]
  cases decode offset rest <;> rfl

/-- What is written in a row is read in a row. -/
theorem append (h : Spells w s) (h' : Spells w' s') : Spells (w ++ w') (s ++ s') := by
  intro offset rest
  rw [List.append_assoc, h, h', Text.utf8Length_append, Nat.add_assoc]
  cases decode (offset + (Text.utf8Length w + Text.utf8Length w')) rest with
  | error e => rfl
  | ok decoded => simp only [Except.map, List.append_assoc]

/-- A character that begins no reference stands for itself. -/
theorem plain {c : Char} (hc : c ≠ '&') : Spells [c] [c] := by
  intro offset rest
  rw [List.singleton_append, decode_plain (fun h => absurd h hc)]
  rfl

/-- A text without ampersands spells itself. -/
theorem plains {l : List Char} (h : ∀ c ∈ l, c ≠ '&') : Spells l l := by
  induction l with
  | nil => exact nil
  | cons c l ih =>
    obtain ⟨hc, hl⟩ := List.forall_mem_cons.mp h
    exact (plain hc).append (ih hl)

/-- A name between an ampersand and a semicolon stands for what it means. -/
theorem reference {name : List Char} {meant : Char} (hname : ';' ∉ name) (hmeaning : meaning? name = some meant) :
    Spells ('&' :: name ++ [';']) [meant] := by
  intro offset rest
  have hbegins := begins_of_meaning? hmeaning
  have hrest : ('&' :: name ++ [';']) ++ rest = '&' :: (name ++ ';' :: rest) := by simp
  have hbegins' : begins (name ++ ';' :: rest) = true := by
    cases name with
    | nil => cases hbegins
    | cons c name => exact hbegins
  rw [hrest, decode, if_pos ⟨rfl, hbegins'⟩]
  split
  · rename_i hnone
    rw [Text.splitAt?_singleton hname] at hnone
    cases hnone
  · rename_i name' after hsome
    rw [Text.splitAt?_singleton hname] at hsome
    cases hsome
    simp only [hmeaning]
    cases decode (offset + Text.utf8Length ('&' :: name ++ [';'])) rest <;> rfl

/-- What is written character by character is read so. -/
theorem flatMap {write : Char → List Char} (h : ∀ c, Spells (write c) [c]) (s : List Char) :
    Spells (s.flatMap write) s := by
  induction s with
  | nil => exact nil
  | cons c s ih =>
    rw [List.flatMap_cons]
    exact (h c).append ih

/-- A whole text is read as what it spells. -/
theorem decode_eq (h : Spells w s) (offset : Nat) : decode offset w = .ok s := by
  have hall := h offset []
  rw [List.append_nil, decode] at hall
  rw [hall, Except.map, List.append_nil]

end Spells

/-- What is decoded has its references replaced. -/
theorem decoded_of_decode {offset : Nat} {s t : List Char} (h : decode offset s = .ok t) : Decoded s t := by
  fun_induction decode offset s generalizing t with
  | case1 offset =>
    cases h
    exact .nil
  | case4 offset c rest hreference name after hsplit meant hmeaning decoded hdecode ih =>
    cases h
    rw [hreference.1]
    obtain ⟨hrest, hfirst⟩ := (Text.splitAt?_eq_some_iff (List.cons_ne_nil ';' [])).mp hsplit
    rw [hrest, List.append_assoc]
    exact .reference (Text.upToFirst_singleton.mp hfirst) hmeaning (ih hdecode)
  | case6 offset c rest hplain decoded hdecode ih =>
    cases h
    refine .plain ?_ (ih hdecode)
    intro hc
    rw [← Bool.not_eq_true]
    exact fun hbegins => hplain ⟨hc, hbegins⟩
  | _ => cases h

/-- The length of a text that begins with a reference is that of the reference and of what comes after it. -/
theorem utf8Length_reference (name after : List Char) : Text.utf8Length ('&' :: (name ++ ';' :: after)) =
    Text.utf8Length ('&' :: name ++ [';']) + Text.utf8Length after := by
  rw [← Text.utf8Length_append]
  simp

/-- What is read by itself is read so in front of any text that does not go on like a reference. -/
theorem Decoded.decode_append {before rest meant : List Char} (h : Decoded before meant) (hrest : begins rest = false)
    (offset : Nat) : decode offset (before ++ rest) =
      (decode (offset + Text.utf8Length before) rest).map fun decoded => meant ++ decoded := by
  induction h generalizing offset with
  | nil =>
    rw [List.nil_append, Text.utf8Length, Nat.add_zero]
    cases decode offset rest <;> rfl
  | @reference name after meant c hname hmeaning hafter ih =>
    have hread := Spells.reference hname hmeaning offset (after ++ rest)
    rw [ih, Nat.add_assoc, ← utf8Length_reference] at hread
    simp only [List.cons_append, List.append_assoc, List.nil_append] at hread ⊢
    rw [hread]
    cases decode (offset + Text.utf8Length ('&' :: (name ++ ';' :: after))) rest <;> rfl
  | @plain c after meant hc hafter ih =>
    rw [List.cons_append, decode_plain (fun hamp => (begins_append hrest).trans (hc hamp)), ih, Text.utf8Length,
      Nat.add_assoc]
    cases decode (offset + (c.utf8Size + Text.utf8Length after)) rest <;> rfl

/-- A text whose references can be replaced is decoded, wherever it stands. -/
theorem Decoded.decode_eq {s t : List Char} (h : Decoded s t) (offset : Nat) : decode offset s = .ok t := by
  have hall := h.decode_append (show begins [] = false from rfl) offset
  rw [List.append_nil, decode] at hall
  rw [hall, Except.map, List.append_nil]

end Reference

end LiveMarkup
