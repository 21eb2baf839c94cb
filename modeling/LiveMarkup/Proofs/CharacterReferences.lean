import Mathlib.Data.Nat.Digits.Defs
import LiveMarkup.Proofs.MarkupText

/-!
# Which references there are

The grammar of references: the five names, and the numbers of characters in decimal or hexadecimal digits (`Reference.Denotes`).
Read are exactly these, and besides them numbers with a plus sign in front of the digits (`Reference.meaning?_eq_some_iff`).
A text that holds anything else where a reference begins is refused, and of several such places the first is told
(`Reference.decode_eq_error_iff`).
-/

namespace LiveMarkup

namespace Reference

/-! ## The grammar -/

/-- A digit and its value: the figures, and after them six letters, small or capital. -/
inductive Digit : Char → Nat → Prop
  | figure {c : Char} {d : Nat} (hd : d < 10) (hc : c.toNat = '0'.toNat + d) : Digit c d
  | small {c : Char} {d : Nat} (hd : d < 6) (hc : c.toNat = 'a'.toNat + d) : Digit c (10 + d)
  | capital {c : Char} {d : Nat} (hd : d < 6) (hc : c.toNat = 'A'.toNat + d) : Digit c (10 + d)

/-- Digits of a base, with their values. -/
def Digits (base : Nat) (s : List Char) (values : List Nat) : Prop :=
  List.Forall₂ (fun c d => Digit c d ∧ d < base) s values

/-- A number as one or more digits of a base write it. -/
def Numeral (base : Nat) (s : List Char) (n : Nat) : Prop :=
  s ≠ [] ∧ ∃ values, Digits base s values ∧ n = Nat.ofDigits base values.reverse

/-- What stands for a character between an ampersand and a semicolon, with a sign in front of the digits if it is a number. The
null character has no reference. -/
inductive Denotes (sign : List Char) : List Char → Char → Prop
  | lt : Denotes sign "lt".toList '<'
  | gt : Denotes sign "gt".toList '>'
  | amp : Denotes sign "amp".toList '&'
  | quot : Denotes sign "quot".toList '\x22'
  | apos : Denotes sign "apos".toList '\x27'
  | decimal {digits : List Char} {c : Char} (hnumeral : Numeral 10 digits c.toNat) (hnull : c ≠ '\x00') :
      Denotes sign ('#' :: (sign ++ digits)) c
  | hexadecimal {x : Char} {digits : List Char} {c : Char} (hx : x = 'x' ∨ x = 'X')
      (hnumeral : Numeral 16 digits c.toNat) (hnull : c ≠ '\x00') : Denotes sign ('#' :: x :: (sign ++ digits)) c

/-- What follows an ampersand that begins a reference, and why it is none. -/
inductive Offence : List Char → MarkupFault → Prop
  | unterminated {s : List Char} (hbegins : begins s = true) (hend : ';' ∉ s) : Offence s .unterminatedReference
  | invalid {name after : List Char} (hbegins : begins (name ++ ';' :: after) = true) (hname : ';' ∉ name)
      (hmeaning : ∀ c, ¬meaning? name = some c) :
      Offence (name ++ ';' :: after) (.invalidReference (String.ofList name))

/-! ## Numbers -/

variable {base : Nat} {c : Char} {s : List Char}

/-- Characters are ordered by their numbers. -/
theorem char_le_iff {a b : Char} : a ≤ b ↔ a.toNat ≤ b.toNat :=
  Iff.rfl

/-- What is read as a digit is a digit of the base. -/
theorem digit?_eq_some_iff {d : Nat} : digit? base c = some d ↔ Digit c d ∧ d < base := by
  rw [digit?, Option.filter_eq_some_iff, decide_eq_true_iff]
  refine and_congr_left fun _ => ?_
  simp only [char_le_iff]
  have h0 : '0'.toNat = 48 := rfl
  have h9 : '9'.toNat = 57 := rfl
  have ha : 'a'.toNat = 97 := rfl
  have hf : 'f'.toNat = 102 := rfl
  have hA : 'A'.toNat = 65 := rfl
  have hF : 'F'.toNat = 70 := rfl
  constructor
  · intro h
    split at h
    · cases h
      exact .figure (by omega) (by omega)
    · split at h
      · cases h
        rw [Nat.add_comm]
        exact .small (by omega) (by omega)
      · split at h
        · cases h
          rw [Nat.add_comm]
          exact .capital (by omega) (by omega)
        · cases h
  · intro h
    cases h with
    | figure hd hc =>
      rw [if_pos (by omega), hc, Nat.add_sub_cancel_left]
    | small hd hc =>
      rw [if_neg (by omega), if_pos (by omega), hc, Nat.add_sub_cancel_left, Nat.add_comm]
    | capital hd hc =>
      rw [if_neg (by omega), if_neg (by omega), if_pos (by omega), hc, Nat.add_sub_cancel_left, Nat.add_comm]

/-- A plus sign is no digit. -/
theorem not_digit_plus {d : Nat} : ¬Digit '+' d := by
  rintro (⟨-, hc⟩ | ⟨-, hc⟩ | ⟨-, hc⟩) <;> simp at hc <;> omega

/-- What is read as digits are digits of the base, and the number goes on with each of them. -/
theorem digits?_eq_some_iff {n m : Nat} :
    digits? base n s = some m ↔ ∃ values, Digits base s values ∧ m = values.foldl (fun n d => n * base + d) n := by
  induction s generalizing n with
  | nil =>
    rw [digits?]
    constructor
    · rintro ⟨⟩
      exact ⟨[], .nil, rfl⟩
    · rintro ⟨_, hvalues, rfl⟩
      cases hvalues
      rfl
  | cons c s ih =>
    rw [digits?]
    constructor
    · intro h
      cases hdigit : digit? base c with
      | none =>
        rw [hdigit] at h
        cases h
      | some d =>
        rw [hdigit] at h
        obtain ⟨values, hvalues, hm⟩ := ih.mp h
        exact ⟨d :: values, .cons (digit?_eq_some_iff.mp hdigit) hvalues, hm⟩
    · rintro ⟨_, hvalues, rfl⟩
      cases hvalues with
      | cons hdigit hvalues =>
        rw [digit?_eq_some_iff.mpr hdigit]
        exact ih.mpr ⟨_, hvalues, rfl⟩

/-- The digits make up a number from the first to the last. -/
theorem foldl_eq_ofDigits (base : Nat) (values : List Nat) :
    values.foldl (fun n d => n * base + d) 0 = Nat.ofDigits base values.reverse := by
  rw [Nat.ofDigits_eq_foldr, List.foldr_reverse]
  simp only [Nat.cast_id, Nat.mul_comm, Nat.add_comm]

/-- What is read as a number are digits of the base, one at least. -/
theorem numeral_iff {n : Nat} : (if s.isEmpty then none else digits? base 0 s) = some n ↔ Numeral base s n := by
  rw [Numeral, ← List.isEmpty_eq_false_iff]
  simp only [← foldl_eq_ofDigits, ← digits?_eq_some_iff]
  cases s.isEmpty <;> simp

/-- A numeral begins with a digit. -/
theorem Numeral.head {n : Nat} (h : Numeral base (c :: s) n) : ∃ d, Digit c d ∧ d < base := by
  obtain ⟨-, _, hvalues, -⟩ := h
  cases hvalues with
  | cons hdigit _ => exact ⟨_, hdigit⟩

/-- A number may have a plus sign before it. -/
theorem number?_eq_some_iff {n : Nat} :
    number? base s = some n ↔ Numeral base s n ∨ ∃ digits, s = '+' :: digits ∧ Numeral base digits n := by
  by_cases hplus : ∃ digits, s = '+' :: digits
  · obtain ⟨digits, rfl⟩ := hplus
    have hnone : ¬Numeral base ('+' :: digits) n := by
      intro h
      obtain ⟨d, hdigit, -⟩ := h.head
      exact not_digit_plus hdigit
    rw [number?, numeral_iff]
    constructor
    · exact fun h => .inr ⟨digits, rfl, h⟩
    · rintro (h | ⟨_, heq, h⟩)
      · exact absurd h hnone
      · exact (List.cons.inj heq).2 ▸ h
  · have hnumber : number? base s = if s.isEmpty then none else digits? base 0 s := by
      rw [number?]
      exact fun digits heq => hplus ⟨digits, heq⟩
    rw [hnumber, numeral_iff]
    exact ⟨.inl, fun h => h.resolve_right fun ⟨digits, heq, _⟩ => hplus ⟨digits, heq⟩⟩

/-- A number stands for the character of that number, unless it is zero. -/
theorem ofCodePoint?_eq_some_iff {n : Nat} : ofCodePoint? n = some c ↔ c.toNat = n ∧ c ≠ '\x00' := by
  rw [ofCodePoint?]
  constructor
  · intro h
    split at h
    · rename_i hvalid
      cases h
      have hn : (Char.ofNat n).toNat = n := by
        rw [Char.ofNat, dif_pos hvalid.1]
        rfl
      refine ⟨hn, ?_⟩
      intro hnull
      rw [hnull] at hn
      exact hvalid.2 hn.symm
    · cases h
  · rintro ⟨rfl, hnull⟩
    rw [if_pos ⟨c.valid, fun hzero => hnull (Char.toNat_inj.mp hzero)⟩, Char.ofNat_toNat]

/-- What is read as the number of a character is a numeral, also one with a plus sign before it. -/
theorem numbered_iff : (number? base s).bind ofCodePoint? = some c ↔
    c ≠ '\x00' ∧ (Numeral base s c.toNat ∨ ∃ digits, s = '+' :: digits ∧ Numeral base digits c.toNat) := by
  rw [Option.bind_eq_some_iff]
  simp only [ofCodePoint?_eq_some_iff, number?_eq_some_iff]
  constructor
  · rintro ⟨_, hnumber, rfl, hnull⟩
    exact ⟨hnull, hnumber⟩
  · rintro ⟨hnull, hnumber⟩
    exact ⟨_, hnumber, rfl, hnull⟩

/-! ## Meanings -/

variable {name sign : List Char}

/-- Of the letters that begin a number, both stand for base sixteen. -/
theorem meaning?_decimal (h : ∀ x ∈ s.head?, x ≠ 'x' ∧ x ≠ 'X') :
    meaning? ('#' :: s) = (number? 10 s).bind ofCodePoint? := by
  cases s with
  | nil => rfl
  | cons x s =>
    obtain ⟨hsmall, hcapital⟩ := h x rfl
    rw [meaning?]
    · rintro hex ⟨⟩
      exact hsmall rfl
    · rintro hex ⟨⟩
      exact hcapital rfl

/-- A decimal digit is no letter. -/
theorem Digit.ne_letter {d : Nat} (h : Digit c d) (hd : d < 10) : c ≠ 'x' ∧ c ≠ 'X' := by
  cases h with
  | figure hd' hc =>
    constructor <;> rintro rfl <;> simp at hc <;> omega
  | small _ _ => omega
  | capital _ _ => omega

/-- What denotes a character is read as that character, also with a plus sign. -/
theorem meaning?_of_denotes (hsign : sign = [] ∨ sign = ['+']) (h : Denotes sign name c) : meaning? name = some c := by
  have hnumber : ∀ {base : Nat} {digits : List Char}, Numeral base digits c.toNat → c ≠ '\x00' →
      (number? base (sign ++ digits)).bind ofCodePoint? = some c := by
    intro base digits hnumeral hnull
    refine numbered_iff.mpr ⟨hnull, ?_⟩
    rcases hsign with rfl | rfl
    · exact .inl hnumeral
    · exact .inr ⟨digits, rfl, hnumeral⟩
  cases h with
  | @decimal digits _ hnumeral hnull =>
    rw [meaning?_decimal]
    · exact hnumber hnumeral hnull
    · rcases hsign with rfl | rfl
      · cases digits with
        | nil => exact absurd rfl hnumeral.1
        | cons x digits =>
          obtain ⟨d, hdigit, hd⟩ := hnumeral.head
          rintro _ ⟨⟩
          exact hdigit.ne_letter hd
      · rintro _ ⟨⟩
        decide
  | hexadecimal hx hnumeral hnull =>
    rcases hx with rfl | rfl
    · exact hnumber hnumeral hnull
    · exact hnumber hnumeral hnull
  | _ => rfl

/-- A reference means what the grammar says; the numbers of characters may be signed as well. -/
theorem meaning?_eq_some_iff : meaning? name = some c ↔ Denotes [] name c ∨ Denotes ['+'] name c := by
  constructor
  · intro h
    unfold meaning? at h
    split at h
    · cases h
      exact .inl .lt
    · cases h
      exact .inl .gt
    · cases h
      exact .inl .amp
    · cases h
      exact .inl .quot
    · cases h
      exact .inl .apos
    · obtain ⟨hnull, hnumeral | ⟨digits, rfl, hnumeral⟩⟩ := numbered_iff.mp h
      · exact .inl (.hexadecimal (.inl rfl) hnumeral hnull)
      · exact .inr (.hexadecimal (.inl rfl) hnumeral hnull)
    · obtain ⟨hnull, hnumeral | ⟨digits, rfl, hnumeral⟩⟩ := numbered_iff.mp h
      · exact .inl (.hexadecimal (.inr rfl) hnumeral hnull)
      · exact .inr (.hexadecimal (.inr rfl) hnumeral hnull)
    · obtain ⟨hnull, hnumeral | ⟨digits, rfl, hnumeral⟩⟩ := numbered_iff.mp h
      · exact .inl (.decimal hnumeral hnull)
      · exact .inr (.decimal hnumeral hnull)
    · cases h
  · rintro (h | h)
    · exact meaning?_of_denotes (.inl rfl) h
    · exact meaning?_of_denotes (.inr rfl) h

/-! ## Faults -/

/-- What begins like a reference and is none is a fault. -/
theorem Offence.decode_eq {fault : MarkupFault} (h : Offence s fault) (offset : Nat) :
    decode offset ('&' :: s) = .error ⟨offset, fault⟩ := by
  cases h with
  | unterminated hbegins hend =>
    rw [decode, if_pos ⟨rfl, hbegins⟩]
    split
    · rfl
    · rename_i hsome
      rw [Text.splitAt?_singleton_eq_none_iff.mpr hend] at hsome
      cases hsome
  | @invalid name after hbegins hname hmeaning =>
    have hnone : meaning? name = none := Option.eq_none_iff_forall_ne_some.mpr hmeaning
    rw [decode, if_pos ⟨rfl, hbegins⟩]
    split
    · rename_i hnone'
      rw [Text.splitAt?_singleton hname] at hnone'
      cases hnone'
    · rename_i hsome
      rw [Text.splitAt?_singleton hname] at hsome
      cases hsome
      simp only [hnone]

/-- A text cannot be read if somewhere in it something goes on like a reference and is none, and the first such place is told.
-/
theorem decode_eq_error_iff {offset : Nat} {e : FaultAt} : decode offset s = .error e ↔
    ∃ before rest meant, s = before ++ '&' :: rest ∧ Decoded before meant ∧ Offence rest e.fault ∧
      e.offset = offset + Text.utf8Length before := by
  constructor
  · intro h
    fun_induction decode offset s with
    | case1 offset => cases h
    | case2 offset c rest hbegins hsplit =>
      cases h
      rw [hbegins.1]
      exact ⟨[], rest, [], rfl, .nil, .unterminated hbegins.2 (Text.splitAt?_singleton_eq_none_iff.mp hsplit), rfl⟩
    | case3 offset c rest hbegins name after hsplit hmeaning =>
      cases h
      obtain ⟨hrest, hfirst⟩ := (Text.splitAt?_eq_some_iff (List.cons_ne_nil ';' [])).mp hsplit
      rw [List.append_assoc] at hrest
      subst hrest
      rw [hbegins.1]
      exact ⟨[], _, [], rfl, .nil, .invalid hbegins.2 (Text.upToFirst_singleton.mp hfirst)
        (Option.eq_none_iff_forall_ne_some.mp hmeaning), rfl⟩
    | case5 offset c rest hbegins name after hsplit meant hmeaning e' hdecode ih =>
      cases h
      obtain ⟨before, rest', meant', rfl, hbefore, hoffence, hoffset⟩ := ih hdecode
      obtain ⟨hrest, hfirst⟩ := (Text.splitAt?_eq_some_iff (List.cons_ne_nil ';' [])).mp hsplit
      refine ⟨'&' :: (name ++ ';' :: before), rest', meant :: meant', ?_,
        .reference (Text.upToFirst_singleton.mp hfirst) hmeaning hbefore, hoffence, ?_⟩
      · rw [hbegins.1, hrest]
        simp
      · rw [hoffset, utf8Length_reference, Nat.add_assoc]
    | case7 offset c rest hplain e' hdecode ih =>
      cases h
      obtain ⟨before, rest', meant', rfl, hbefore, hoffence, hoffset⟩ := ih hdecode
      refine ⟨c :: before, rest', c :: meant', rfl, .plain ?_ hbefore, hoffence, ?_⟩
      · intro hc
        rw [begins_append rfl] at hplain
        exact Bool.eq_false_iff.mpr fun hbegins => hplain ⟨hc, hbegins⟩
      · rw [hoffset, Text.utf8Length, Nat.add_assoc]
    | _ => cases h
  · rintro ⟨before, rest, meant, rfl, hbefore, hoffence, hoffset⟩
    rw [hbefore.decode_append rfl, hoffence.decode_eq, ← hoffset]
    rfl

/-! ## Reading -/

/-- References are read as their grammar says, except that the number of a character may have a plus sign. A text is read with
the characters for its references and otherwise as it stands, or else the first place is told where something goes on like a
reference and is none. So a text is read back from what is printed for it, as text and as a value. -/
theorem references_follow_grammar (offset : Nat) (s : List Char) :
    (∀ name c, meaning? name = some c ↔ Denotes [] name c ∨ Denotes ['+'] name c) ∧
    (∀ t, decode offset s = .ok t ↔ Decoded s t) ∧
    (∀ e, decode offset s = .error e ↔ ∃ before rest meant, s = before ++ '&' :: rest ∧ Decoded before meant ∧
      Offence rest e.fault ∧ e.offset = offset + Text.utf8Length before) ∧
    decode offset (Markup.escapeText (String.ofList s)).toList = .ok s ∧
    decode offset (Markup.escapeValue (String.ofList s)).toList = .ok s := by
  refine ⟨fun name c => meaning?_eq_some_iff, fun t => ⟨decoded_of_decode, fun h => h.decode_eq offset⟩,
    fun e => decode_eq_error_iff, ?_, ?_⟩
  · have hspells := spells_escapeText (String.ofList s)
    rw [String.toList_ofList] at hspells
    exact hspells.decode_eq offset
  · have hspells := spells_escapeValue (String.ofList s)
    rw [String.toList_ofList] at hspells
    exact hspells.decode_eq offset

theorem not_denotes_signed : ¬Denotes [] ('#' :: '+' :: s) c := by
  intro h
  cases h with
  | decimal hnumeral _ =>
    obtain ⟨d, hdigit, -⟩ := hnumeral.head
    exact not_digit_plus hdigit
  | hexadecimal hx _ _ => revert hx; decide

/-- A number with a plus sign is no reference of the grammar, and still it is read as one. -/
theorem plus_sign_is_read : decode 0 "&#+65;".toList = .ok ['A'] ∧ ¬∃ c, Denotes [] "#+65".toList c := by
  have hname : ';' ∉ "#+65".toList := by decide
  refine ⟨(Decoded.reference hname rfl .nil).decode_eq 0, ?_⟩
  rintro ⟨c, h⟩
  exact not_denotes_signed h

end Reference

end LiveMarkup
