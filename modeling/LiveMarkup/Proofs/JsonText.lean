import Mathlib.Data.List.Basic
import LiveMarkup.Json.Reader

/-!
# JSON text is read back

A value that is written without spaces is read back as it was, if its numbers are natural numbers of 64 bits. Scanning its
text gives its tokens, whatever follows (`scan_compact`), and its tokens are put together to the value, wherever it stands
(`Reading.run_tokens`). So the items of an array are all read (`Items.ofText_compact`).
-/

namespace LiveMarkup.Json

/-! ## Strings -/

/-- The digits of a number below thirty-two, in base sixteen, are read back. -/
theorem unit?_hexDigits {n : Nat} (h : n < 0x20) (rest : List Char) :
    unit? ('0' :: '0' :: hexDigit (n / 16) :: hexDigit n :: rest) = some (n, rest) := by
  have hall : ∀ m < 0x20, hexValue? (hexDigit (m / 16)) = some (m / 16) ∧ hexValue? (hexDigit m) = some (m % 16) := by
    decide
  obtain ⟨hhigh, hlow⟩ := hall n h
  have hzero : hexValue? '0' = some 0 := by decide
  have hsum : 0 * 0x1000 + 0 * 0x100 + n / 16 * 0x10 + n % 16 = n := by omega
  simp only [unit?, hzero, hhigh, hlow, Option.bind_eq_bind, Option.bind_some, hsum]

/-- After a backslash the character that the escape writes is read. -/
theorem stringBody?_escape {c : Char} {s after : List Char} (h : escape? s = some (c, after)) :
    stringBody? ('\\' :: s) = (stringBody? after).map fun (body, rest) => (c :: body, rest) := by
  have hquote : '\\' ≠ '\x22' := by decide
  rw [stringBody?, if_neg hquote, if_pos rfl]
  split
  · rename_i hnone
    rw [h] at hnone
    cases hnone
  · rename_i c' after' hsome
    rw [h] at hsome
    cases hsome
    cases stringBody? after <;> rfl

/-- A character that is written as it is is read as it is. -/
theorem stringBody?_plain {c : Char} (s : List Char) (hquote : c ≠ '\x22') (hback : c ≠ '\\')
    (hcontrol : ¬ c.toNat < 0x20) :
    stringBody? (c :: s) = (stringBody? s).map fun (body, rest) => (c :: body, rest) := by
  rw [stringBody?, if_neg hquote, if_neg hback, if_neg hcontrol]
  cases stringBody? s <;> rfl

/-- A character that is written inside a string is read back. -/
theorem stringBody?_escapeChar (c : Char) (s : List Char) :
    stringBody? (escapeChar c ++ s) = (stringBody? s).map fun (body, rest) => (c :: body, rest) := by
  by_cases hquote : c = '\x22'
  · subst hquote
    exact stringBody?_escape rfl
  by_cases hback : c = '\\'
  · subst hback
    exact stringBody?_escape rfl
  by_cases hb : c = '\x08'
  · subst hb
    exact stringBody?_escape rfl
  by_cases hf : c = '\x0c'
  · subst hf
    exact stringBody?_escape rfl
  by_cases hn : c = '\n'
  · subst hn
    exact stringBody?_escape rfl
  by_cases hr : c = '\r'
  · subst hr
    exact stringBody?_escape rfl
  by_cases ht : c = '\t'
  · subst ht
    exact stringBody?_escape rfl
  by_cases hcontrol : c.toNat < 0x20
  · have hwritten : escapeChar c = ['\\', 'u', '0', '0', hexDigit (c.toNat / 16), hexDigit c.toNat] := by
      simp only [escapeChar, hquote, hback, hb, hf, hn, hr, ht, hcontrol, if_false, if_true]
    have hunit := unit?_hexDigits hcontrol s
    have hleading : isLeading c.toNat = false := by
      simp only [isLeading, Bool.and_eq_false_iff, decide_eq_false_iff_not]
      omega
    have htrailing : isTrailing c.toNat = false := by
      simp only [isTrailing, Bool.and_eq_false_iff, decide_eq_false_iff_not]
      omega
    have hread : unicodeEscape? ('0' :: '0' :: hexDigit (c.toNat / 16) :: hexDigit c.toNat :: s) = some (c, s) := by
      simp only [unicodeEscape?, hunit, hleading, htrailing, Bool.false_eq_true, if_false, Char.ofNat_toNat]
    have hescape : escape? ('u' :: '0' :: '0' :: hexDigit (c.toNat / 16) :: hexDigit c.toNat :: s) = some (c, s) := by
      rw [escape?, if_pos rfl]
      exact hread
    rw [hwritten]
    exact stringBody?_escape hescape
  · have hwritten : escapeChar c = [c] := by
      simp only [escapeChar, hquote, hback, hb, hf, hn, hr, ht, hcontrol, if_false]
    rw [hwritten]
    exact stringBody?_plain s hquote hback hcontrol

/-- A string that is written is read back. -/
theorem stringBody?_escaped (l rest : List Char) :
    stringBody? (l.flatMap escapeChar ++ '\x22' :: rest) = some (l, rest) := by
  induction l with
  | nil =>
    rw [List.flatMap_nil, List.nil_append, stringBody?]
    rfl
  | cons c l ih =>
    rw [List.flatMap_cons, List.append_assoc, stringBody?_escapeChar, ih]
    rfl

/-! ## Numbers -/

open Number (wordLimit gather digitValue)

theorem isDigit_eq (c : Char) : isDigit c = c.isDigit := rfl

/-- The digits that write a number are digits. -/
theorem isDigit_of_mem_toDigits {n : Nat} {c : Char} (h : c ∈ Nat.toDigits 10 n) : isDigit c = true := by
  rw [isDigit_eq]
  exact Nat.isDigit_of_mem_toDigits (by decide) (by decide) h

/-- A number other than zero is not written with a zero at the front. -/
theorem head?_toDigits_ne {n : Nat} (h : n ≠ 0) : (Nat.toDigits 10 n).head? ≠ some '0' := by
  induction n using Nat.strongRecOn with
  | ind n ih =>
    by_cases hlt : n < 10
    · have hall : ∀ m < 10, m ≠ 0 → Nat.digitChar m ≠ '0' := by decide
      rw [Nat.toDigits_of_lt_base hlt, List.head?_cons]
      exact fun he => hall n hlt h (Option.some.inj he)
    · rw [Nat.toDigits_of_base_le (by decide) (by omega), List.head?_append_of_ne_nil _ Nat.toDigits_ne_nil]
      exact ih (n / 10) (by omega) (by omega)

/-- One more digit is gathered if it still fits. -/
theorem gather_concat {l : List Char} {m n : Nat} {c : Char} (h : gather m l = (n, 0))
    (hfits : n * 10 + digitValue c < wordLimit) : gather m (l ++ [c]) = (n * 10 + digitValue c, 0) := by
  induction l generalizing m with
  | nil =>
    cases h
    rw [List.nil_append, gather]
    exact if_pos hfits
  | cons b l ih =>
    rw [gather] at h
    rw [List.cons_append, gather]
    by_cases hlt : m * 10 + digitValue b < wordLimit
    · exact (if_pos hlt).trans (ih ((if_pos hlt).symm.trans h))
    · cases (if_neg hlt).symm.trans h

/-- The digits that write a number of 64 bits are gathered to that number. -/
theorem gather_toDigits {n : Nat} (h : n < wordLimit) : gather 0 (Nat.toDigits 10 n) = (n, 0) := by
  have hdigit : ∀ m < 10, digitValue (Nat.digitChar m) = m := by decide
  induction n using Nat.strongRecOn with
  | ind n ih =>
    by_cases hlt : n < 10
    · have hfits : 0 * 10 + digitValue (Nat.digitChar n) < wordLimit := by
        rw [hdigit n hlt]
        omega
      have hone : gather 0 ([] ++ [Nat.digitChar n]) = (0 * 10 + digitValue (Nat.digitChar n), 0) :=
        gather_concat rfl hfits
      rw [Nat.toDigits_of_lt_base hlt]
      rw [hdigit n hlt, Nat.zero_mul, Nat.zero_add] at hone
      exact hone
    · have hlast : n / 10 * 10 + digitValue (Nat.digitChar (n % 10)) = n := by
        rw [hdigit _ (Nat.mod_lt n (by decide))]
        omega
      have hconcat := gather_concat (ih (n / 10) (by omega) (by omega)) (hlast ▸ h)
      rw [Nat.toDigits_of_base_le (by decide) (by omega), hconcat, hlast]

/-- What can follow a value inside an array or object, or at the end of the text. -/
def Ends (s : List Char) : Prop :=
  ∀ c ∈ s.head?, c = ',' ∨ c = ']' ∨ c = '\x7d'

/-- The digits of a number end where the number ends. -/
theorem digits?_toDigits (n : Nat) {rest : List Char} (h : Ends rest) :
    digits? (Nat.toDigits 10 n ++ rest) = some (Nat.toDigits 10 n, rest) := by
  have hdigits : ∀ c ∈ Nat.toDigits 10 n, isDigit c = true := fun c hc => isDigit_of_mem_toDigits hc
  have hends : rest.takeWhile isDigit = [] ∧ rest.dropWhile isDigit = rest := by
    cases rest with
    | nil => exact ⟨rfl, rfl⟩
    | cons c rest =>
      have hc : isDigit c = false := by
        rcases h c rfl with rfl | rfl | rfl <;> decide
      exact ⟨by rw [List.takeWhile_cons, hc]; rfl, by rw [List.dropWhile_cons, hc]; rfl⟩
  have hne : (Nat.toDigits 10 n).isEmpty = false := List.isEmpty_eq_false_iff.mpr Nat.toDigits_ne_nil
  rw [digits?, List.takeWhile_append_of_pos hdigits, List.dropWhile_append_of_pos hdigits, hends.1, hends.2,
    List.append_nil]
  simp only [hne, Bool.false_eq_true, if_false]

/-- Nothing that belongs to a number follows where it ends. -/
theorem Ends.fraction? {rest : List Char} (h : Ends rest) : fraction? rest = some (none, rest) := by
  cases rest with
  | nil => rfl
  | cons c rest => rcases h c rfl with rfl | rfl | rfl <;> rfl

theorem Ends.exponent? {rest : List Char} (h : Ends rest) : exponent? rest = some (none, rest) := by
  cases rest with
  | nil => rfl
  | cons c rest => rcases h c rfl with rfl | rfl | rfl <;> rfl

/-- A natural number of 64 bits that is written is read back. -/
theorem number?_toDigits {n : Nat} (hn : n < wordLimit) {rest : List Char} (h : Ends rest) :
    number? (Nat.toDigits 10 n ++ rest) = some (.integer n, rest) := by
  obtain ⟨c, l, hl⟩ := List.exists_cons_of_ne_nil (Nat.toDigits_ne_nil (n := n) (b := 10))
  have hwhole : wholeDigits? (Nat.toDigits 10 n ++ rest) = some (Nat.toDigits 10 n, rest) := by
    by_cases hzero : n = 0
    · subst hzero
      rfl
    · have hhead := head?_toDigits_ne hzero
      have hdigits := digits?_toDigits n h
      rw [hl] at hhead hdigits ⊢
      have hc : c ≠ '0' := fun he => hhead (by rw [he, List.head?_cons])
      rw [List.cons_append] at hdigits ⊢
      rw [wholeDigits?, if_neg hc]
      exact hdigits
  have hmagnitude : magnitude? false (Nat.toDigits 10 n ++ rest) =
      some (⟨false, Nat.toDigits 10 n, [], none, false⟩, rest) := by
    simp only [magnitude?, hwhole, h.fraction?, h.exponent?]
    rfl
  have hspelling : spelling? (Nat.toDigits 10 n ++ rest) = some (⟨false, Nat.toDigits 10 n, [], none, false⟩, rest) := by
    have hdigit : isDigit c = true := isDigit_of_mem_toDigits (n := n) (by rw [hl]; exact List.mem_cons_self)
    have hc : c ≠ '-' := by
      rintro rfl
      cases hdigit
    rw [← hmagnitude, hl, List.cons_append, spelling?, if_neg hc]
  have hnumber : Number.ofSpelling? ⟨false, Nat.toDigits 10 n, [], none, false⟩ = some (.integer n) := by
    simp only [Number.ofSpelling?, gather_toDigits hn]
    rfl
  simp only [number?, hspelling, hnumber]
  rfl

/-! ## Tokens -/

mutual

/-- The tokens of a value. -/
def tokens : Json → List Token
  | null => [.null]
  | bool b => [.bool b]
  | number n => [.number n]
  | string s => [.string s]
  | array [] => [.openArray, .closeArray]
  | array (item :: rest) => .openArray :: (item.tokens ++ itemTokens rest)
  | object [] => [.openObject, .closeObject]
  | object ((key, value) :: rest) => .openObject :: .string key :: .colon :: (value.tokens ++ memberTokens rest)

/-- The tokens of the items after the first, and of the end of the array. -/
def itemTokens : List Json → List Token
  | [] => [.closeArray]
  | item :: rest => .comma :: (item.tokens ++ itemTokens rest)

/-- The tokens of the members after the first, and of the end of the object. -/
def memberTokens : List (String × Json) → List Token
  | [] => [.closeObject]
  | (key, value) :: rest => .comma :: .string key :: .colon :: (value.tokens ++ memberTokens rest)

end

mutual

/-- All numbers in the value are natural numbers of 64 bits, and it lies no deeper than a limit. -/
def Plain : (limit : Nat) → Json → Prop
  | _, null => True
  | _, bool _ => True
  | _, number n => ∃ k : Nat, n = .integer k ∧ k < wordLimit
  | _, string _ => True
  | limit, array items => ∃ below, limit = below + 1 ∧ PlainItems below items
  | limit, object members => ∃ below, limit = below + 1 ∧ PlainMembers below members

/-- The items are all plain. -/
def PlainItems : (limit : Nat) → List Json → Prop
  | _, [] => True
  | limit, item :: rest => item.Plain limit ∧ PlainItems limit rest

/-- The values of the members are all plain. -/
def PlainMembers : (limit : Nat) → List (String × Json) → Prop
  | _, [] => True
  | limit, (_, value) :: rest => value.Plain limit ∧ PlainMembers limit rest

end

/-- What was scanned, behind other tokens. -/
def Scan.behind (s : Scan) (tokens : List Token) : Scan :=
  ⟨tokens ++ s.tokens, s.complete⟩

@[simp] theorem Scan.behind_behind (s : Scan) (l m : List Token) : (s.behind m).behind l = s.behind (l ++ m) := by
  simp [Scan.behind]

/-- A token that stands at the front is scanned first. -/
theorem scan_cons {c : Char} {s after : List Char} {t : Token} (hblank : isBlank c = false)
    (h : token? (c :: s) = some (t, after)) : scan (c :: s) = (scan after).behind [t] := by
  have hdrop : (c :: s).dropWhile isBlank = c :: s := by
    rw [List.dropWhile_cons, hblank]
    rfl
  rw [scan]
  split
  · rename_i hskipped
    rw [hdrop] at hskipped
    cases hskipped
  · rename_i c' rest hskipped
    rw [hdrop] at hskipped
    cases hskipped
    split
    · rename_i hread
      rw [h] at hread
      cases hread
    · rename_i t' after' hread
      rw [h] at hread
      cases hread
      rfl

/-- A bracket, comma or colon is scanned. -/
theorem scan_punctuation {c : Char} {t : Token} (h : punctuation? c = some t) (hblank : isBlank c = false)
    (s : List Char) : scan (c :: s) = (scan s).behind [t] := by
  refine scan_cons hblank ?_
  simp only [token?, h]

/-- A string that is written is scanned. -/
theorem scan_writeString (text : String) (s : List Char) :
    scan ((writeString text).toList ++ s) = (scan s).behind [.string text] := by
  have hlist : (writeString text).toList ++ s = '\x22' :: (text.toList.flatMap escapeChar ++ '\x22' :: s) := by
    simp [writeString]
  rw [hlist]
  refine scan_cons rfl ?_
  have hnone : punctuation? '\x22' = none := rfl
  simp only [token?, hnone, if_true, stringBody?_escaped]
  simp

/-- A word is scanned. -/
theorem scan_word {c : Char} {l s after : List Char} {t : Token} (hc : isBlank c = false) (hnone : punctuation? c = none)
    (hquote : c ≠ '\x22') (h : word? (c :: l ++ s) = some (t, after)) :
    scan (c :: l ++ s) = (scan after).behind [t] := by
  rw [List.cons_append] at h ⊢
  refine scan_cons hc ?_
  simp only [token?, hnone, if_neg hquote, h]

/-- A natural number of 64 bits that is written is scanned. -/
theorem scan_toDigits {n : Nat} (hn : n < wordLimit) {s : List Char} (h : Ends s) :
    scan (Nat.toDigits 10 n ++ s) = (scan s).behind [.number (.integer n)] := by
  obtain ⟨c, l, hl⟩ := List.exists_cons_of_ne_nil (Nat.toDigits_ne_nil (n := n) (b := 10))
  have hnumber := number?_toDigits hn h
  have hdigit : isDigit c = true := isDigit_of_mem_toDigits (n := n) (by rw [hl]; exact List.mem_cons_self)
  have hne : ∀ d, isDigit d = false → c ≠ d := by
    rintro d hd rfl
    rw [hdigit] at hd
    cases hd
  have hblank : isBlank c = false := by
    simp [isBlank, hne ' ' rfl, hne '\t' rfl, hne '\n' rfl, hne '\r' rfl]
  have hpunctuation : punctuation? c = none := by
    simp [punctuation?, hne '[' rfl, hne ']' rfl, hne '\x7b' rfl, hne '\x7d' rfl, hne ',' rfl, hne ':' rfl]
  have hword : word? (c :: (l ++ s)) = none := by
    have hafter : ∀ d lead, isDigit d = false → Text.after? (d :: lead) (c :: (l ++ s)) = none := by
      intro d lead hd
      rw [Option.eq_none_iff_forall_ne_some]
      intro rest hrest
      exact hne d hd (List.cons.inj (Text.after?_eq_some_iff.mp hrest)).1
    have hnull : Text.after? "null".toList (c :: (l ++ s)) = none := hafter 'n' _ rfl
    have htrue : Text.after? "true".toList (c :: (l ++ s)) = none := hafter 't' _ rfl
    have hfalse : Text.after? "false".toList (c :: (l ++ s)) = none := hafter 'f' _ rfl
    simp only [word?, hnull, htrue, hfalse, Option.map_none]
  rw [hl, List.cons_append] at hnumber ⊢
  refine scan_cons hblank ?_
  simp only [token?, hpunctuation, if_neg (hne '\x22' rfl), hword, hnumber, Option.map_some]

theorem toString_ofNat (n : Nat) : (toString (Int.ofNat n)).toList = Nat.toDigits 10 n := by
  rw [show toString (Int.ofNat n) = n.repr from rfl, Nat.toList_repr]

/-- Where further items or the end of an array are written, a value ends. -/
theorem ends_compactItems (items : List Json) (s : List Char) : Ends ((compactItems items).toList ++ s) := by
  intro c hc
  cases items with
  | nil =>
    have hhead : ((compactItems []).toList ++ s).head? = some ']' := by simp [compactItems]
    rw [hhead] at hc
    exact .inr (.inl (Option.mem_some.mp hc).symm)
  | cons item rest =>
    have hhead : ((compactItems (item :: rest)).toList ++ s).head? = some ',' := by simp [compactItems]
    rw [hhead] at hc
    exact .inl (Option.mem_some.mp hc).symm

theorem ends_compactMembers (members : List (String × Json)) (s : List Char) :
    Ends ((compactMembers members).toList ++ s) := by
  intro c hc
  cases members with
  | nil =>
    have hhead : ((compactMembers []).toList ++ s).head? = some '\x7d' := by simp [compactMembers]
    rw [hhead] at hc
    exact .inr (.inr (Option.mem_some.mp hc).symm)
  | cons member rest =>
    have hhead : ((compactMembers (member :: rest)).toList ++ s).head? = some ',' := by simp [compactMembers]
    rw [hhead] at hc
    exact .inl (Option.mem_some.mp hc).symm

mutual

/-- A value that is written is scanned, if what follows it does not go on with a number. -/
theorem scan_compact : (v : Json) → {limit : Nat} → v.Plain limit → {s : List Char} → Ends s →
    scan (v.compact.toList ++ s) = (scan s).behind v.tokens
  | null, _, _, s, _ => by
    have hword : word? ('n' :: ['u', 'l', 'l'] ++ s) = some (.null, s) := by
      simp [word?, Text.after?]
    exact scan_word rfl rfl (by decide) hword
  | bool true, _, _, s, _ => by
    have hword : word? ('t' :: ['r', 'u', 'e'] ++ s) = some (.bool true, s) := by
      simp [word?, Text.after?]
    exact scan_word rfl rfl (by decide) hword
  | bool false, _, _, s, _ => by
    have hword : word? ('f' :: ['a', 'l', 's', 'e'] ++ s) = some (.bool false, s) := by
      simp [word?, Text.after?]
    exact scan_word rfl rfl (by decide) hword
  | number n, _, hplain, s, hs => by
    obtain ⟨k, rfl, hk⟩ := hplain
    have hdigits : ((number (.integer k)).compact).toList = Nat.toDigits 10 k := toString_ofNat k
    rw [hdigits]
    exact scan_toDigits hk hs
  | string text, _, _, s, _ => scan_writeString text s
  | array [], _, _, s, _ => by
    have hwritten : (array []).compact.toList ++ s = '[' :: ']' :: s := by simp [compact]
    rw [hwritten, scan_punctuation rfl rfl, scan_punctuation rfl rfl, Scan.behind_behind]
    rfl
  | array (item :: rest), _, hplain, s, _ => by
    obtain ⟨below, rfl, hitem, hrest⟩ := hplain
    have hwritten : (array (item :: rest)).compact.toList ++ s =
        '[' :: (item.compact.toList ++ ((compactItems rest).toList ++ s)) := by
      simp [compact]
    rw [hwritten, scan_punctuation rfl rfl, scan_compact item hitem (ends_compactItems rest s),
      scan_compactItems rest hrest s, Scan.behind_behind, Scan.behind_behind]
    rfl
  | object [], _, _, s, _ => by
    have hwritten : (object []).compact.toList ++ s = '\x7b' :: '\x7d' :: s := by simp [compact]
    rw [hwritten, scan_punctuation rfl rfl, scan_punctuation rfl rfl, Scan.behind_behind]
    rfl
  | object ((key, value) :: rest), _, hplain, s, _ => by
    obtain ⟨below, rfl, hvalue, hrest⟩ := hplain
    have hwritten : (object ((key, value) :: rest)).compact.toList ++ s =
        '\x7b' :: ((writeString key).toList ++ ':' :: (value.compact.toList ++ ((compactMembers rest).toList ++ s))) := by
      simp [compact]
    rw [hwritten, scan_punctuation rfl rfl, scan_writeString, scan_punctuation rfl rfl,
      scan_compact value hvalue (ends_compactMembers rest s), scan_compactMembers rest hrest s]
    simp only [Scan.behind_behind]
    rfl

/-- Further items that are written are scanned, whatever follows them. -/
theorem scan_compactItems : (items : List Json) → {limit : Nat} → PlainItems limit items → (s : List Char) →
    scan ((compactItems items).toList ++ s) = (scan s).behind (itemTokens items)
  | [], _, _, s => by
    have hwritten : (compactItems []).toList ++ s = ']' :: s := by simp [compactItems]
    rw [hwritten, scan_punctuation rfl rfl]
    rfl
  | item :: rest, _, hplain, s => by
    have hwritten : (compactItems (item :: rest)).toList ++ s =
        ',' :: (item.compact.toList ++ ((compactItems rest).toList ++ s)) := by
      simp [compactItems]
    rw [hwritten, scan_punctuation rfl rfl, scan_compact item hplain.1 (ends_compactItems rest s),
      scan_compactItems rest hplain.2 s, Scan.behind_behind, Scan.behind_behind]
    rfl

/-- Further members that are written are scanned, whatever follows them. -/
theorem scan_compactMembers : (members : List (String × Json)) → {limit : Nat} → PlainMembers limit members →
    (s : List Char) → scan ((compactMembers members).toList ++ s) = (scan s).behind (memberTokens members)
  | [], _, _, s => by
    have hwritten : (compactMembers []).toList ++ s = '\x7d' :: s := by simp [compactMembers]
    rw [hwritten, scan_punctuation rfl rfl]
    rfl
  | (key, value) :: rest, _, hplain, s => by
    have hwritten : (compactMembers ((key, value) :: rest)).toList ++ s =
        ',' :: ((writeString key).toList ++ ':' :: (value.compact.toList ++ ((compactMembers rest).toList ++ s))) := by
      simp [compactMembers]
    rw [hwritten, scan_punctuation rfl rfl, scan_writeString, scan_punctuation rfl rfl,
      scan_compact value hplain.1 (ends_compactMembers rest s), scan_compactMembers rest hplain.2 s]
    simp only [Scan.behind_behind]
    rfl

end

/-! ## Reading -/

namespace Reading

/-- How reading goes on when a value is complete. -/
def resume (frames : List Frame) (v : Json) (rest : List Token) : Reading :=
  match frames with
  | [] => value v rest
  | .array items :: outer => run (.array (v :: items) :: outer) .separator rest
  | .object members key :: outer => run (.object ((key, v) :: members) key :: outer) .separator rest

/-- A token that completes a value. -/
theorem run_deliver {frames inner : List Frame} {expects : Expects} {t : Token} {v : Json}
    (h : Step.ofToken inner expects t = Step.deliver frames v) (rest : List Token) :
    run inner expects (t :: rest) = resume frames v rest := by
  rw [run, h]
  cases frames with
  | nil => rfl
  | cons frame outer => cases frame <;> rfl

/-- A token that another one has to follow. -/
theorem run_next {frames inner : List Frame} {expects expects' : Expects} {t : Token}
    (h : Step.ofToken inner expects t = .next frames expects') (rest : List Token) :
    run inner expects (t :: rest) = run frames expects' rest := by
  rw [run, h]

/-- Where an array may end, a value is read as anywhere else. -/
theorem run_itemOrEnd (frames : List Frame) (v : Json) (rest : List Token) :
    run frames .itemOrEnd (v.tokens ++ rest) = run frames .value (v.tokens ++ rest) := by
  have hfirst : ∃ t more, v.tokens = t :: more ∧ t ≠ .closeArray := by
    rcases v with _ | b | n | s | items | members
    · exact ⟨_, _, rfl, Token.noConfusion⟩
    · exact ⟨_, _, rfl, Token.noConfusion⟩
    · exact ⟨_, _, rfl, Token.noConfusion⟩
    · exact ⟨_, _, rfl, Token.noConfusion⟩
    · cases items <;> exact ⟨_, _, rfl, Token.noConfusion⟩
    · rcases members with _ | ⟨⟨key, value⟩, more⟩ <;> exact ⟨_, _, rfl, Token.noConfusion⟩
  obtain ⟨t, more, htokens, ht⟩ := hfirst
  have hstep : Step.ofToken frames .itemOrEnd t = Step.ofToken frames .value t := if_neg ht
  rw [htokens, List.cons_append, run, hstep, run]

mutual

/-- The tokens of a value are put together to it, if it does not lie too deep where they stand. -/
theorem run_tokens : (v : Json) → {limit : Nat} → v.Plain limit → (frames : List Frame) →
    frames.length + limit ≤ depthLimit → (rest : List Token) →
    run frames .value (v.tokens ++ rest) = resume frames v rest
  | null, _, _, _, _, rest => run_deliver rfl rest
  | bool _, _, _, _, _, rest => run_deliver rfl rest
  | number _, _, _, _, _, rest => run_deliver rfl rest
  | string _, _, _, _, _, rest => run_deliver rfl rest
  | array [], _, hplain, frames, hdepth, rest => by
    obtain ⟨below, rfl, _⟩ := hplain
    have hroom : frames.length < depthLimit := by omega
    have hbegin : Step.ofToken frames .value .openArray = .next (.array [] :: frames) .itemOrEnd := if_pos hroom
    have hend : Step.ofToken (.array [] :: frames) .itemOrEnd .closeArray = Step.deliver frames (.array []) := rfl
    exact (run_next hbegin _).trans (run_deliver hend rest)
  | array (item :: more), _, hplain, frames, hdepth, rest => by
    obtain ⟨below, rfl, hitem, hmore⟩ := hplain
    have hroom : frames.length < depthLimit := by omega
    have hbegin : Step.ofToken frames .value .openArray = .next (.array [] :: frames) .itemOrEnd := if_pos hroom
    have hinner : frames.length + 1 + below ≤ depthLimit := by omega
    calc run frames .value (.openArray :: (item.tokens ++ itemTokens more) ++ rest)
      _ = run (.array [] :: frames) .itemOrEnd (item.tokens ++ (itemTokens more ++ rest)) := by
        rw [List.cons_append, List.append_assoc]
        exact run_next hbegin _
      _ = run (.array [item] :: frames) .separator (itemTokens more ++ rest) := by
        rw [run_itemOrEnd, run_tokens item hitem (.array [] :: frames) hinner]
        rfl
      _ = resume frames (.array (item :: more)) rest := run_itemTokens more hmore hinner [item] rest
  | object [], _, hplain, frames, hdepth, rest => by
    obtain ⟨below, rfl, _⟩ := hplain
    have hroom : frames.length < depthLimit := by omega
    have hbegin : Step.ofToken frames .value .openObject = .next (.object [] "" :: frames) .keyOrEnd := if_pos hroom
    have hend : Step.ofToken (.object [] "" :: frames) .keyOrEnd .closeObject = Step.deliver frames (.object []) := rfl
    exact (run_next hbegin _).trans (run_deliver hend rest)
  | object ((key, v) :: more), _, hplain, frames, hdepth, rest => by
    obtain ⟨below, rfl, hv, hmore⟩ := hplain
    have hroom : frames.length < depthLimit := by omega
    have hbegin : Step.ofToken frames .value .openObject = .next (.object [] "" :: frames) .keyOrEnd := if_pos hroom
    have hinner : frames.length + 1 + below ≤ depthLimit := by omega
    calc run frames .value (.openObject :: .string key :: .colon :: (v.tokens ++ memberTokens more) ++ rest)
      _ = run (.object [] "" :: frames) .keyOrEnd (.string key :: .colon :: (v.tokens ++ (memberTokens more ++ rest))) := by
        rw [List.cons_append, List.cons_append, List.cons_append, List.append_assoc]
        exact run_next hbegin _
      _ = run (.object [] key :: frames) .value (v.tokens ++ (memberTokens more ++ rest)) := rfl
      _ = run (.object [(key, v)] key :: frames) .separator (memberTokens more ++ rest) :=
        run_tokens v hv (.object [] key :: frames) hinner _
      _ = resume frames (.object ((key, v) :: more)) rest := run_memberTokens more hmore hinner [(key, v)] rest

/-- The tokens of further items are put together to an array with those before them. -/
theorem run_itemTokens : (items : List Json) → {limit : Nat} → PlainItems limit items → {outer : List Frame} →
    outer.length + 1 + limit ≤ depthLimit → (before : List Json) → (rest : List Token) →
    run (.array before :: outer) .separator (itemTokens items ++ rest) =
      resume outer (.array (before.reverse ++ items)) rest
  | [], _, _, outer, _, before, rest => by
    rw [List.append_nil]
    have hend : Step.ofToken (.array before :: outer) .separator .closeArray =
      Step.deliver outer (.array before.reverse) := rfl
    exact run_deliver hend rest
  | item :: more, _, hplain, outer, hdepth, before, rest => by
    calc run (.array before :: outer) .separator (.comma :: (item.tokens ++ itemTokens more) ++ rest)
      _ = run (.array before :: outer) .value (item.tokens ++ (itemTokens more ++ rest)) := by
        rw [List.cons_append, List.append_assoc]
        rfl
      _ = run (.array (item :: before) :: outer) .separator (itemTokens more ++ rest) :=
        run_tokens item hplain.1 (.array before :: outer) hdepth _
      _ = resume outer (.array ((item :: before).reverse ++ more)) rest :=
        run_itemTokens more hplain.2 hdepth (item :: before) rest
      _ = resume outer (.array (before.reverse ++ item :: more)) rest := by
        rw [List.reverse_cons, List.append_assoc]
        rfl

/-- The tokens of further members are put together to an object with those before them. -/
theorem run_memberTokens : (members : List (String × Json)) → {limit : Nat} → PlainMembers limit members →
    {outer : List Frame} → outer.length + 1 + limit ≤ depthLimit →
    (before : List (String × Json)) → {last : String} → (rest : List Token) →
    run (.object before last :: outer) .separator (memberTokens members ++ rest) =
      resume outer (.object (before.reverse ++ members)) rest
  | [], _, _, outer, _, before, last, rest => by
    rw [List.append_nil]
    have hend : Step.ofToken (.object before last :: outer) .separator .closeObject =
      Step.deliver outer (.object before.reverse) := rfl
    exact run_deliver hend rest
  | (key, v) :: more, _, hplain, outer, hdepth, before, last, rest => by
    calc run (.object before last :: outer) .separator
          (.comma :: .string key :: .colon :: (v.tokens ++ memberTokens more) ++ rest)
      _ = run (.object before key :: outer) .value (v.tokens ++ (memberTokens more ++ rest)) := by
        rw [List.cons_append, List.cons_append, List.cons_append, List.append_assoc]
        rfl
      _ = run (.object ((key, v) :: before) key :: outer) .separator (memberTokens more ++ rest) :=
        run_tokens v hplain.1 (.object before key :: outer) hdepth _
      _ = resume outer (.object (((key, v) :: before).reverse ++ more)) rest :=
        run_memberTokens more hplain.2 hdepth ((key, v) :: before) rest
      _ = resume outer (.object (before.reverse ++ (key, v) :: more)) rest := by
        rw [List.reverse_cons, List.append_assoc]
        rfl

end

end Reading

/-- A value that is written is scanned to its tokens. -/
theorem scan_written {v : Json} (h : v.Plain depthLimit) : scan v.compact.toList = ⟨v.tokens, true⟩ := by
  have hends : Ends [] := fun c hc => by cases hc
  have hnil : scan [] = ⟨[], true⟩ := by rw [scan]; rfl
  have hscan := scan_compact v h hends
  rw [List.append_nil, hnil] at hscan
  rw [hscan, Scan.behind, List.append_nil]

/-- The tokens of a value alone are put together to it. -/
theorem run_alone {v : Json} (h : v.Plain depthLimit) : Reading.run [] .value v.tokens = .value v [] := by
  have hroom : ([] : List Frame).length + depthLimit ≤ depthLimit := Nat.le_of_eq (Nat.zero_add depthLimit)
  have hresume := Reading.run_tokens v h [] hroom []
  rw [List.append_nil] at hresume
  exact hresume

/-- A value that is written is read back. -/
theorem parse?_compact {v : Json} (h : v.Plain depthLimit) : parse? v.compact = some v := by
  simp only [parse?, scan_written h, run_alone h, if_true]

/-- The items of an array that is written are all read. -/
theorem Items.ofText_compact {items : List Json} (h : (array items).Plain depthLimit) :
    Items.ofText (array items).compact.toList = ⟨items, true, true⟩ := by
  simp only [Items.ofText, scan_written h, run_alone h]
  rfl

end LiveMarkup.Json
