import Mathlib.Data.List.Infix
import LiveMarkup.Proofs.MarkupNames
import LiveMarkup.Proofs.References

/-!
# Scanning by the grammar

Each function of the scanner reads one form of the grammar, and there are two lemmas about it: what it has read stands there
(`_sound`), and what stands there it reads (`_complete`). In the second direction the grammar has to say where a form ends,
because the scanner goes on for as long as it can. At the level of tokens the two directions are `Cursor.token_sound` and
`Cursor.token_complete`; what a token keeps of the offsets in the source is left aside there (`Token.Means`).
-/

namespace LiveMarkup

open Grammar

namespace Cursor

variable {c d : Cursor} {rest : List Char}

/-! ## Pieces -/

/-- A fixed text that was passed stands here. -/
theorem rest_of_past? {lead : List Char} (h : c.past? lead = some d) : c.rest = lead ++ d.rest := by
  simp only [past?, Option.map_eq_some_iff] at h
  obtain ⟨after, hafter, rfl⟩ := h
  exact Text.after?_eq_some_iff.mp hafter

/-- A fixed text that stands here is passed. -/
theorem past?_eq_some (lead : List Char) (h : c.rest = lead ++ rest) :
    ∃ after, c.past? lead = some after ∧ after.rest = rest := by
  refine ⟨⟨c.offset + Text.utf8Length lead, rest⟩, ?_, rfl⟩
  rw [past?, Text.after?_eq_some_iff.mpr h]
  rfl

/-- A text can be passed exactly if it stands here. -/
theorem isSome_past? {lead : List Char} : (c.past? lead).isSome = true ↔ lead <+: c.rest := by
  constructor
  · intro h
    obtain ⟨after, hafter⟩ := Option.isSome_iff_exists.mp h
    exact ⟨after.rest, (rest_of_past? hafter).symm⟩
  · rintro ⟨after, hafter⟩
    obtain ⟨d, hd, -⟩ := past?_eq_some lead hafter.symm
    rw [hd]
    rfl

/-- A text cannot be passed exactly if it does not stand here. -/
theorem past?_eq_none_iff {lead : List Char} : c.past? lead = none ↔ ¬lead <+: c.rest := by
  rw [← Option.not_isSome_iff_eq_none, isSome_past?]

/-- A fixed text that begins otherwise does not stand here. -/
theorem past?_eq_none {x y : Char} {lead : List Char} (h : c.rest = y :: rest) (hne : x ≠ y) :
    c.past? (x :: lead) = none := by
  rw [past?, h, Text.after?, if_neg hne]
  rfl

/-- A fixed text that differs in its second character does not stand here. -/
theorem past?_tag_eq_none {x y : Char} {lead : List Char} (h : c.rest = '<' :: y :: rest) (hne : x ≠ y) :
    c.past? ('<' :: x :: lead) = none := by
  rw [past?, h, Text.after?, if_pos rfl, Text.after?, if_neg hne]
  rfl

/-- What is found is the first place where the text stands. -/
theorem upTo?_sound {finish : List Char} {before : Slice} (hne : finish ≠ []) (h : c.upTo? finish = some (before, d)) :
    c.rest = before.chars ++ finish ++ d.rest ∧ Text.UpToFirst finish (before.chars ++ finish) := by
  simp only [upTo?, Option.map_eq_some_iff] at h
  obtain ⟨⟨before', after⟩, hsplit, he⟩ := h
  cases he
  exact (Text.splitAt?_eq_some_iff hne).mp hsplit

/-- A text that stands further on is found. -/
theorem upTo?_complete {finish before : List Char} (hne : finish ≠ []) (h : c.rest = before ++ finish ++ rest)
    (hfirst : Text.UpToFirst finish (before ++ finish)) :
    ∃ piece after, c.upTo? finish = some (piece, after) ∧ piece.chars = before ∧ after.rest = rest := by
  refine ⟨⟨c.offset, before⟩, ⟨c.offset + Text.utf8Length before + Text.utf8Length finish, rest⟩, ?_, rfl, rfl⟩
  rw [upTo?, (Text.splitAt?_eq_some_iff hne).mpr ⟨h, hfirst⟩]
  rfl

/-- What is taken of a class stands here, is of that class, and is all there is of it. -/
theorem takeWhile_sound (c : Cursor) (p : Char → Bool) : c.rest = (c.takeWhile p).1.chars ++ (c.takeWhile p).2.rest ∧
    (∀ x ∈ (c.takeWhile p).1.chars, p x = true) ∧ Stops p (c.takeWhile p).2.rest := by
  refine ⟨List.takeWhile_append_dropWhile.symm, fun x hx => List.all_eq_true.mp List.all_takeWhile x hx, ?_⟩
  intro x hx
  have hfirst : (c.rest.dropWhile p).head? = some x := hx
  have hout := List.head?_dropWhile_not p c.rest
  rw [hfirst] at hout
  exact hout

/-- The characters of a class are taken up to the first of another. -/
theorem takeWhile_eq {p : Char → Bool} {piece : List Char} (h : c.rest = piece ++ rest)
    (hpiece : ∀ x ∈ piece, p x = true) (hrest : Stops p rest) :
    c.takeWhile p = (⟨c.offset, piece⟩, ⟨c.offset + Text.utf8Length piece, rest⟩) := by
  have htake : rest.takeWhile p = [] := by
    cases rest with
    | nil => rfl
    | cons x rest => rw [List.takeWhile_cons_of_neg (by rw [hrest x rfl]; exact Bool.false_ne_true)]
  have hdrop : rest.dropWhile p = rest := by
    cases rest with
    | nil => rfl
    | cons x rest => rw [List.dropWhile_cons_of_neg (by rw [hrest x rfl]; exact Bool.false_ne_true)]
  rw [takeWhile, h, List.takeWhile_append_of_pos hpiece, List.dropWhile_append_of_pos hpiece, htake, hdrop,
    List.append_nil]

/-- Blanks are passed. -/
theorem spaced_skipBlanks (c : Cursor) : Spaced c.rest c.skipBlanks.rest :=
  ⟨_, (c.takeWhile_sound isBlank).2.1, (c.takeWhile_sound isBlank).1⟩

/-- White space is skipped up to what is none. -/
theorem rest_skipBlanks (h : Spaced c.rest rest) (hrest : Stops isBlank rest) : c.skipBlanks.rest = rest := by
  obtain ⟨blanks, hblanks, hspaced⟩ := h
  rw [skipBlanks, takeWhile_eq hspaced hblanks hrest]

/-- Where blanks are taken one stands first, and white space follows it. -/
theorem blank_cons (h : (c.takeWhile isBlank).1.chars.isEmpty = false) :
    ∃ blank s, c.rest = blank :: s ∧ isBlank blank = true ∧ Spaced s c.skipBlanks.rest := by
  obtain ⟨hspelled, hblanks, -⟩ := c.takeWhile_sound isBlank
  obtain ⟨blank, more, hmore⟩ := List.exists_cons_of_ne_nil (List.isEmpty_eq_false_iff.mp h)
  rw [hmore] at hspelled hblanks
  obtain ⟨hblank, hblanks⟩ := List.forall_mem_cons.mp hblanks
  exact ⟨blank, more ++ c.skipBlanks.rest, hspelled, hblank, more, hblanks, rfl⟩

/-! ## Names -/

/-- What is read as a name is a name. -/
theorem name?_sound {written : Slice} (h : c.name? = some (written, d)) : Name c.rest written.chars d.rest := by
  obtain ⟨hspelled, hchars, hlongest⟩ := c.takeWhile_sound QName.isNameChar
  unfold name? at h
  split at h
  · cases h
  · rename_i first more hfirst
    split at h
    · rename_i hstart
      have hhead : (c.takeWhile QName.isNameChar).1.chars = first :: more.takeWhile QName.isNameChar := by
        change c.rest.takeWhile QName.isNameChar = _
        rw [hfirst, List.takeWhile_cons, QName.isNameChar_of_isNameStart hstart]
        rfl
      rw [Option.some.inj h] at hspelled hchars hlongest hhead
      exact ⟨hspelled, ⟨first, _, hhead, hstart⟩, hchars, hlongest⟩
    · cases h

/-- A name that stands here is read. -/
theorem name?_complete {written : List Char} (h : Name c.rest written rest) :
    ∃ piece after, c.name? = some (piece, after) ∧ piece.chars = written ∧ after.rest = rest := by
  obtain ⟨first, more, hwritten, hstart⟩ := h.start
  have hfirst : c.rest = first :: (more ++ rest) := by
    rw [h.spelled, hwritten, List.cons_append]
  refine ⟨⟨c.offset, written⟩, ⟨c.offset + Text.utf8Length written, rest⟩, ?_, rfl, rfl⟩
  rw [← takeWhile_eq h.spelled h.chars h.longest]
  unfold name?
  rw [hfirst]
  exact if_pos hstart

/-- What is read as a name with at most one colon is such a name. -/
theorem qualifiedName_sound {kind : NameKind} {written : Slice} {q : QName}
    (h : c.qualifiedName kind = .ok (written, q, d)) : Named c.rest q d.rest ∧ written.chars = q.qualified.toList := by
  unfold qualifiedName at h
  split at h
  · cases h
  · rename_i hread
    have hname := name?_sound hread
    split at h
    · cases h
    · rename_i hmeaning
      cases h
      have hqualified := QName.toList_qualified hmeaning
      obtain ⟨first, more, hwritten, hstart⟩ := hname.start
      have hchars := hname.chars
      rw [hwritten] at hmeaning hchars
      exact ⟨⟨hqualified ▸ hname, QName.isLegal_of_ofWritten? hstart hchars hmeaning⟩, hqualified.symm⟩

/-- A name with at most one colon that stands here is read. -/
theorem qualifiedName_complete {q : QName} (kind : NameKind) (h : Named c.rest q rest) :
    ∃ piece after, c.qualifiedName kind = .ok (piece, q, after) ∧ piece.chars = q.qualified.toList ∧
      after.rest = rest := by
  obtain ⟨piece, after, hname, hchars, hafter⟩ := name?_complete h.written
  obtain ⟨first, more, hwritten, _, _, hmeaning⟩ := QName.qualified_of_isLegal h.legal
  refine ⟨piece, after, ?_, hchars, hafter⟩
  rw [qualifiedName, hname]
  simp only [hchars, hwritten, hmeaning]

/-! ## Attributes -/

/-- What is read between quotation marks is a value. -/
theorem quotedValue_sound {opened : Nat} {quote : Char} {raw : Slice} {meant : List Char} {inside : Cursor}
    (hquote : quote = '\x22' ∨ quote = '\x27') (hpast : c.past? [quote] = some inside)
    (h : quotedValue opened quote inside = .ok (raw, d)) (hmeant : Reference.Decoded raw.chars meant) :
    Value c.rest meant d.rest := by
  unfold quotedValue at h
  split at h
  · rename_i found hfound
    cases h
    obtain ⟨hinside, hfirst⟩ := upTo?_sound (List.cons_ne_nil quote []) hfound
    rw [rest_of_past? hpast, hinside, List.append_assoc]
    exact .quoted hquote (Text.upToFirst_singleton.mp hfirst) hmeant
  · cases h

/-- What is read without quotation marks is a value. -/
theorem bareValue_sound {raw : Slice} {meant : List Char} (h : c.bareValue = .ok (raw, d))
    (hmeant : Reference.Decoded raw.chars meant) : Value c.rest meant d.rest := by
  obtain ⟨hspelled, hbare, hrest⟩ := c.takeWhile_sound isBare
  unfold bareValue at h
  simp only at h
  split at h
  · cases h
  · rename_i hfault
    simp only [Except.ok.injEq, Prod.mk.injEq] at h
    obtain ⟨rfl, rfl⟩ := h
    simp only [Bool.or_eq_true, not_or, List.isEmpty_iff, List.any_eq_true, not_exists, not_and,
      Bool.not_eq_true] at hfault
    rw [hspelled]
    exact .bare hfault.1 hbare hfault.2 hrest hmeant

/-- What is read as a value is a value. -/
theorem value_sound {raw : Slice} {meant : List Char} (h : c.value = .ok (raw, d))
    (hmeant : Reference.Decoded raw.chars meant) : Value c.rest meant d.rest := by
  unfold value at h
  split at h
  · rename_i inside hpast
    exact quotedValue_sound (.inl rfl) hpast h hmeant
  · split at h
    · rename_i inside hpast
      exact quotedValue_sound (.inr rfl) hpast h hmeant
    · exact bareValue_sound h hmeant

/-- A value that stands here is read. -/
theorem value_complete {meant : List Char} (h : Value c.rest meant rest) :
    ∃ raw after, c.value = .ok (raw, after) ∧ Reference.Decoded raw.chars meant ∧ after.rest = rest := by
  generalize hs : c.rest = s at h
  cases h with
  | @quoted quote raw _ _ hquote hraw hmeant =>
    obtain ⟨inside, hpast, hinside⟩ := past?_eq_some (c := c) [quote] hs
    have hfirst : inside.rest = raw ++ [quote] ++ rest := by
      rw [hinside, List.append_assoc]
      rfl
    obtain ⟨piece, after, hfound, hchars, hafter⟩ :=
      upTo?_complete (List.cons_ne_nil quote []) hfirst (Text.upToFirst_singleton.mpr hraw)
    refine ⟨piece, after, ?_, hchars ▸ hmeant, hafter⟩
    rcases hquote with rfl | rfl
    · simp only [value, hpast, quotedValue, hfound]
    · have hdouble : c.past? ['\x22'] = none := past?_eq_none hs (by decide)
      simp only [value, hdouble, hpast, quotedValue, hfound]
  | @bare raw _ _ hne hraw hfault hrest hmeant =>
    obtain ⟨x, more, rfl⟩ := List.exists_cons_of_ne_nil hne
    have hx := hfault x List.mem_cons_self
    have hdouble : c.past? ['\x22'] = none := past?_eq_none hs (by rintro rfl; cases hx)
    have hsingle : c.past? ['\x27'] = none := past?_eq_none hs (by rintro rfl; cases hx)
    have hany : (x :: more).any isBareFault = false := List.any_eq_false.mpr fun y hy => by simp [hfault y hy]
    refine ⟨⟨c.offset, x :: more⟩, ⟨c.offset + Text.utf8Length (x :: more), rest⟩, ?_, hmeant, rfl⟩
    simp only [value, hdouble, hsingle, bareValue, takeWhile_eq hs hraw hrest, hany, List.isEmpty_cons, Bool.or_self,
      Bool.false_eq_true, if_false]

/-- What is read as an attribute is an attribute. -/
theorem attributeToken_sound {a : AttributeToken} (h : c.attributeToken = .ok (a, d)) :
    AttributeForm c.rest a.meaning d.rest := by
  unfold attributeToken at h
  split at h
  · cases h
  · rename_i written q after hname
    obtain ⟨hnamed, -⟩ := qualifiedName_sound hname
    split at h
    · rename_i hequals
      cases h
      refine .absent hnamed ?_
      intro rest hrest
      have hskip : d.skipBlanks.rest = ['='] ++ rest := rest_skipBlanks hrest (stops_cons.mpr (by decide))
      obtain ⟨_, hpast, _⟩ := past?_eq_some ['='] hskip
      rw [hpast] at hequals
      cases hequals
    · rename_i equals hequals
      split at h
      · cases h
      · rename_i raw after' hvalue
        split at h
        · cases h
        · rename_i decoded hdecode
          cases h
          have hspaced := after.spaced_skipBlanks
          rw [rest_of_past? hequals] at hspaced
          exact .valued hnamed hspaced equals.spaced_skipBlanks
            (value_sound hvalue (Reference.decoded_of_decode hdecode))

/-- An attribute that stands here is read. -/
theorem attributeToken_complete {a : Attribute} (h : AttributeForm c.rest a rest) :
    ∃ t after, c.attributeToken = .ok (t, after) ∧ t.meaning = a ∧ after.rest = rest := by
  cases h with
  | absent hname hequals =>
    obtain ⟨written, after, hread, -, hafter⟩ := qualifiedName_complete .attributeName hname
    have hnone : after.skipBlanks.past? ['='] = none := by
      rw [Option.eq_none_iff_forall_ne_some]
      intro equals hpast
      have hspaced := after.spaced_skipBlanks
      rw [rest_of_past? hpast, hafter] at hspaced
      exact hequals _ hspaced
    refine ⟨⟨written, none, ⟨_, ""⟩⟩, after, ?_, rfl, hafter⟩
    simp only [attributeToken, hread, hnone]
  | valued hname hequals hblanks hvalue =>
    obtain ⟨written, after, hread, -, hafter⟩ := qualifiedName_complete .attributeName hname
    have hskip : after.skipBlanks.rest = ['='] ++ _ :=
      rest_skipBlanks (hafter ▸ hequals) (stops_cons.mpr (by decide))
    obtain ⟨equals, hpast, hequalsRest⟩ := past?_eq_some ['='] hskip
    have hskip' := rest_skipBlanks (hequalsRest ▸ hblanks) hvalue.stops
    obtain ⟨raw, after', hraw, hmeant, hafter'⟩ := value_complete (hskip' ▸ hvalue)
    refine ⟨⟨written, some raw, ⟨_, String.ofList _⟩⟩, after', ?_, rfl, hafter'⟩
    simp only [attributeToken, hread, hpast, hraw, hmeant.decode_eq raw.start]

/-! ## Tags -/

/-- What is read after the name in a tag is the rest of a tag. -/
theorem tagRest_sound {opened : Nat} {tokens : List AttributeToken} {closed : Bool}
    (h : tagRest opened c = .ok (tokens, closed, d)) :
    TagRest c.rest (tokens.map AttributeToken.meaning) closed d.rest := by
  fun_induction tagRest opened c generalizing tokens closed d with
  | case1 c here after =>
    rename_i hend
    cases h
    have hspaced := c.spaced_skipBlanks
    rw [rest_of_past? hend] at hspaced
    exact .opened hspaced
  | case2 c here _ slash =>
    rename_i hslash _ hend
    cases h
    have hspaced := c.spaced_skipBlanks
    rw [rest_of_past? hslash, rest_of_past? hend] at hspaced
    exact .closed hspaced
  | case8 c here =>
    rename_i hblank a after ha more closed last hr ih
    cases h
    obtain ⟨blank, s, hs, hisBlank, hspaced⟩ := blank_cons (Bool.not_eq_true _ ▸ hblank)
    rw [hs]
    exact .more hisBlank hspaced (attributeToken_sound ha) (ih hr)
  | _ => cases h

/-- An attribute that stands after white space is read, and then the rest of the tag. -/
theorem tagRest_attribute {blank : Char} {s here after : List Char} {a : Attribute} (opened : Nat)
    (hs : c.rest = blank :: s) (hblank : isBlank blank = true) (hblanks : Spaced s here) (h : AttributeForm here a after) :
    ∃ token d, token.meaning = a ∧ d.rest = after ∧
      ∀ {tokens closed last}, tagRest opened d = .ok (tokens, closed, last) →
        tagRest opened c = .ok (token :: tokens, closed, last) := by
  obtain ⟨first, more, hhere, hstart⟩ := h.start
  have hskip : c.skipBlanks.rest = here := by
    obtain ⟨blanks, hall, hspaced⟩ := hblanks
    refine rest_skipBlanks ⟨blank :: blanks, List.forall_mem_cons.mpr ⟨hblank, hall⟩, ?_⟩ ?_
    · rw [hs, hspaced, List.cons_append]
    · rw [hhere]
      exact stops_cons.mpr (QName.isBlank_of_isNameStart hstart)
  obtain ⟨token, d, hread, hmeaning, hd⟩ := attributeToken_complete (hskip ▸ h)
  refine ⟨token, d, hmeaning, hd, ?_⟩
  intro tokens closed last hmore
  rw [hhere] at hskip
  have hopen : c.skipBlanks.past? ['>'] = none := past?_eq_none hskip (QName.ne_of_isNameStart hstart (by decide)).symm
  have hslash : c.skipBlanks.past? ['/'] = none := past?_eq_none hskip (QName.ne_of_isNameStart hstart (by decide)).symm
  have hnonempty : c.skipBlanks.rest.isEmpty = false := by
    rw [hskip]
    rfl
  have hspace : (c.takeWhile isBlank).1.chars.isEmpty = false := by
    have htake : (c.takeWhile isBlank).1.chars = c.rest.takeWhile isBlank := rfl
    rw [htake, hs, List.takeWhile_cons_of_pos hblank]
    rfl
  rw [tagRest]
  simp only [hopen, hslash, hnonempty, hspace, Bool.false_eq_true, if_false]
  split
  · rename_i e he
    rw [hread] at he
    cases he
  · rename_i token' d' hread'
    rw [hread] at hread'
    cases hread'
    simp only [hmore]

/-- The rest of a tag that stands here is read. -/
theorem tagRest_complete {s : List Char} {attributes : List Attribute} {closed : Bool} (opened : Nat)
    (h : TagRest s attributes closed rest) (hs : c.rest = s) :
    ∃ tokens after, tagRest opened c = .ok (tokens, closed, after) ∧
      tokens.map AttributeToken.meaning = attributes ∧ after.rest = rest := by
  induction h generalizing c with
  | @opened s rest hend =>
    have hskip : c.skipBlanks.rest = ['>'] ++ rest := rest_skipBlanks (hs ▸ hend) (stops_cons.mpr (by decide))
    obtain ⟨after, hpast, hafter⟩ := past?_eq_some ['>'] hskip
    refine ⟨[], after, ?_, rfl, hafter⟩
    rw [tagRest]
    simp only [hpast]
  | @closed s rest hend =>
    have hskip : c.skipBlanks.rest = '/' :: '>' :: rest := rest_skipBlanks (hs ▸ hend) (stops_cons.mpr (by decide))
    have hopen : c.skipBlanks.past? ['>'] = none := past?_eq_none hskip (by decide)
    obtain ⟨slash, hslash, hslashRest⟩ := past?_eq_some ['/'] hskip
    obtain ⟨after, hpast, hafter⟩ := past?_eq_some ['>'] hslashRest
    refine ⟨[], after, ?_, rfl, hafter⟩
    rw [tagRest]
    simp only [hopen, hslash, hpast]
  | more hblank hblanks hattribute _ ih =>
    obtain ⟨token, d, hmeaning, hd, hstep⟩ := tagRest_attribute opened hs hblank hblanks hattribute
    obtain ⟨tokens, last, hmore, hmeanings, hlast⟩ := ih hd
    exact ⟨token :: tokens, last, hstep hmore, by rw [List.map_cons, hmeaning, hmeanings], hlast⟩

end Cursor

/-! ## Tokens -/

/-- What a token contributes. -/
inductive Token.Means : Token → Lexeme → Prop
  | text {run : Slice} {decoded : List Char} : Means (.text run decoded) (.text decoded)
  | verbatim {body : Slice} : Means (.verbatim body) (.text body.chars)
  | aside {whole : Slice} : Means (.aside whole) .aside
  | startTag {offset : Nat} {written : Slice} {q : QName} {tokens : List AttributeToken} {closed : Bool}
      (hwritten : written.chars = q.qualified.toList) :
      Means (.startTag offset written q tokens closed) (.startTag q (tokens.map AttributeToken.meaning) closed)
  | endTag {offset : Nat} {written : Slice} : Means (.endTag offset written) (.endTag written.chars)

namespace Cursor

variable {c d : Cursor} {rest : List Char} {t : Token}

/-- What a piece begins with is what the source begins with there, provided that the end of the piece does not stand in
it. -/
theorem prefix_append_iff {lead finish whole : List Char} (hlead : ¬finish <:+: lead) (hwhole : finish <:+ whole) :
    lead <+: whole ++ rest ↔ lead <+: whole := by
  constructor
  · intro h
    rcases List.prefix_or_prefix_of_prefix h (List.prefix_append whole rest) with hshort | hlong
    · exact hshort
    · exact absurd (hwhole.isInfix.trans hlong.isInfix) hlead
  · intro h
    exact h.trans (List.prefix_append whole rest)

/-- What is passed over says nothing, and ends where its ending stands for the first time. -/
theorem aside_sound {finish : List Char} {fault : MarkupFault} (hne : finish ≠ []) (h : c.aside finish fault = .ok (t, d)) :
    t.Means .aside ∧ ∃ whole, c.rest = whole ++ d.rest ∧ Text.UpToFirst finish whole := by
  unfold aside at h
  split at h
  · cases h
  · rename_i hfound
    cases h
    exact ⟨.aside, _, upTo?_sound hne hfound⟩

/-- What says nothing is passed over to the first place where its ending stands. -/
theorem aside_complete {finish whole : List Char} (fault : MarkupFault) (hne : finish ≠ []) (h : c.rest = whole ++ rest)
    (hwhole : Text.UpToFirst finish whole) :
    ∃ t after, c.aside finish fault = .ok (t, after) ∧ t.Means .aside ∧ after.rest = rest := by
  obtain ⟨before, rfl⟩ := hwhole.ends
  obtain ⟨piece, after, hfound, -, hafter⟩ := upTo?_complete hne h hwhole
  refine ⟨.aside ⟨piece.start, piece.chars ++ finish⟩, after, ?_, .aside, hafter⟩
  rw [aside, hfound]

/-- What is read as a section is its text as it stands there. -/
theorem verbatim_sound {opened : Nat} (h : verbatim opened c = .ok (t, d)) :
    ∃ body, t.Means (.text body) ∧ c.rest = body ++ "]]>".toList ++ d.rest ∧
      Text.UpToFirst "]]>".toList (body ++ "]]>".toList) := by
  unfold verbatim at h
  split at h
  · cases h
  · rename_i hfound
    cases h
    exact ⟨_, .verbatim, upTo?_sound (by decide) hfound⟩

/-- What is read as the beginning of an element is a tag that begins one. -/
theorem startTag_sound {opened : Nat} (h : startTag opened c = .ok (t, d)) :
    ∃ l, t.Means l ∧ Lexed ('<' :: c.rest) l d.rest := by
  unfold startTag at h
  split at h
  · cases h
  · rename_i written q after hname
    obtain ⟨hnamed, hwritten⟩ := qualifiedName_sound hname
    split at h
    · cases h
    · rename_i tokens closed last htag
      cases h
      exact ⟨_, .startTag hwritten, .startTag hnamed (tagRest_sound htag)⟩

/-- What is read as the end of an element is a tag that ends one. -/
theorem endTag_sound {opened : Nat} (h : endTag opened c = .ok (t, d)) :
    ∃ l, t.Means l ∧ Lexed ('<' :: '/' :: c.rest) l d.rest := by
  unfold endTag at h
  split at h
  · cases h
  · rename_i written after hname
    split at h
    · cases h
    · rename_i last hend
      cases h
      have hspaced := after.spaced_skipBlanks
      rw [rest_of_past? hend] at hspaced
      exact ⟨_, .endTag, .endTag (name?_sound hname) hspaced⟩

/-- What is read up to a less-than sign is a text with its references replaced; were there none, what follows would begin a
tag. -/
theorem text_sound (h : c.text = .ok (t, d)) (hne : c.rest ≠ []) (hlt : ¬"<".toList <+: c.rest) :
    ∃ l, t.Means l ∧ Lexed c.rest l d.rest := by
  obtain ⟨hspelled, hall, hrest⟩ := c.takeWhile_sound (· ≠ '<')
  have hrun : (c.takeWhile (· ≠ '<')).1.chars ≠ [] := by
    intro hnil
    rw [hnil, List.nil_append] at hspelled
    obtain ⟨x, more, hx⟩ := List.exists_cons_of_ne_nil hne
    have hfirst : x = '<' := by simpa using hrest x (by rw [← hspelled, hx]; rfl)
    exact hlt ⟨more, by rw [hx, hfirst]; rfl⟩
  unfold text at h
  simp only at h
  split at h
  · cases h
  · rename_i decoded hdecode
    cases h
    refine ⟨_, .text, ?_⟩
    rw [hspelled]
    refine .text hrun ?_ hrest (Reference.decoded_of_decode hdecode)
    intro hmem
    simpa using hall _ hmem

/-- A token that has been read stands in the source. -/
theorem token_sound (h : c.token = .ok (t, d)) (hne : c.rest ≠ []) : ∃ l, t.Means l ∧ Lexed c.rest l d.rest := by
  unfold token at h
  split at h
  · rename_i hcomment
    obtain ⟨ht, whole, hrest, hwhole⟩ := aside_sound (by decide) h
    rw [isSome_past?, hrest, prefix_append_iff (by decide) hwhole.ends] at hcomment
    rw [hrest]
    exact ⟨.aside, ht, .comment hcomment hwhole⟩
  · rename_i hcomment
    split at h
    · rename_i body hsection
      obtain ⟨text, ht, hbody, hfirst⟩ := verbatim_sound h
      rw [rest_of_past? hsection, hbody]
      exact ⟨.text text, ht, .verbatim hfirst⟩
    · rename_i hsection
      split at h
      · rename_i hdeclaration
        obtain ⟨ht, whole, hrest, hwhole⟩ := aside_sound (by decide) h
        rw [isSome_past?, hrest, prefix_append_iff (by decide) hwhole.ends] at hcomment hdeclaration
        rw [past?_eq_none_iff, hrest, prefix_append_iff (by decide) hwhole.ends] at hsection
        rw [hrest]
        exact ⟨.aside, ht, .declaration hdeclaration hcomment hsection hwhole⟩
      · split at h
        · rename_i hinstruction
          obtain ⟨ht, whole, hrest, hwhole⟩ := aside_sound (by decide) h
          rw [isSome_past?, hrest, prefix_append_iff (by decide) hwhole.ends] at hinstruction
          rw [hrest]
          exact ⟨.aside, ht, .instruction hinstruction hwhole⟩
        · split at h
          · rename_i name hname
            rw [rest_of_past? hname]
            exact endTag_sound h
          · split at h
            · rename_i name hname
              rw [rest_of_past? hname]
              exact startTag_sound h
            · rename_i hlt
              exact text_sound h hne (past?_eq_none_iff.mp hlt)

/-- What does not begin a tag is text. -/
theorem token_text {x : Char} (h : c.rest = x :: rest) (hx : x ≠ '<') : c.token = c.text := by
  have hcomment : c.past? "<!--".toList = none := past?_eq_none h hx.symm
  have hsection : c.past? "<![CDATA[".toList = none := past?_eq_none h hx.symm
  have hdeclaration : c.past? "<!".toList = none := past?_eq_none h hx.symm
  have hinstruction : c.past? "<?".toList = none := past?_eq_none h hx.symm
  have hend : c.past? "</".toList = none := past?_eq_none h hx.symm
  have hstart : c.past? "<".toList = none := past?_eq_none h hx.symm
  simp only [token, hcomment, hsection, hdeclaration, hinstruction, hend, hstart, Option.isSome_none, Bool.false_eq_true,
    if_false]

/-- A text that stands here is read, with its references replaced. -/
theorem text_complete {run meant : List Char} (h : c.rest = run ++ rest) (hne : run ≠ []) (hrun : '<' ∉ run)
    (hrest : Stops (· ≠ '<') rest) (hmeant : Reference.Decoded run meant) :
    ∃ t after, c.token = .ok (t, after) ∧ t.Means (.text meant) ∧ after.rest = rest := by
  obtain ⟨x, more, rfl⟩ := List.exists_cons_of_ne_nil hne
  have hall : ∀ y ∈ x :: more, decide (y ≠ '<') = true := by
    intro y hy
    refine decide_eq_true ?_
    rintro rfl
    exact hrun hy
  refine ⟨.text ⟨c.offset, x :: more⟩ meant, ⟨c.offset + Text.utf8Length (x :: more), rest⟩, ?_, .text, rfl⟩
  rw [token_text h (of_decide_eq_true (hall x List.mem_cons_self)), text]
  simp only [takeWhile_eq h hall hrest, hmeant.decode_eq]

/-- A section that stands here is read as it stands there. -/
theorem verbatim_complete {body : List Char} (h : c.rest = "<![CDATA[".toList ++ (body ++ "]]>".toList ++ rest))
    (hbody : Text.UpToFirst "]]>".toList (body ++ "]]>".toList)) :
    ∃ t after, c.token = .ok (t, after) ∧ t.Means (.text body) ∧ after.rest = rest := by
  obtain ⟨inside, hpast, hinside⟩ := past?_eq_some "<![CDATA[".toList h
  obtain ⟨piece, after, hfound, rfl, hafter⟩ := upTo?_complete (by decide) hinside hbody
  have hcomment : c.past? "<!--".toList = none := by
    rw [past?, h]
    rfl
  refine ⟨.verbatim piece, after, ?_, .verbatim, hafter⟩
  simp only [token, hcomment, hpast, verbatim, hfound, Option.isSome_none, Bool.false_eq_true, if_false]

/-- A declaration that stands here is passed over. -/
theorem declaration_complete {whole : List Char} (h : c.rest = whole ++ rest) (hbegin : "<!".toList <+: whole)
    (hcomment : ¬"<!--".toList <+: whole) (hsection : ¬"<![CDATA[".toList <+: whole)
    (hwhole : Text.UpToFirst ">".toList whole) :
    ∃ t after, c.token = .ok (t, after) ∧ t.Means .aside ∧ after.rest = rest := by
  obtain ⟨t, after, hread, ht, hafter⟩ := aside_complete .unterminatedDeclaration (by decide) h hwhole
  rw [← prefix_append_iff (by decide) hwhole.ends, ← h] at hbegin hcomment hsection
  rw [← isSome_past?] at hbegin
  rw [← past?_eq_none_iff] at hcomment hsection
  refine ⟨t, after, ?_, ht, hafter⟩
  simp only [token, hcomment, hsection, hbegin, hread, Option.isSome_none, Bool.false_eq_true, if_false, if_true]

/-- An instruction that stands here is passed over. -/
theorem instruction_complete {whole : List Char} (h : c.rest = whole ++ rest) (hbegin : "<?".toList <+: whole)
    (hwhole : Text.UpToFirst "?>".toList whole) :
    ∃ t after, c.token = .ok (t, after) ∧ t.Means .aside ∧ after.rest = rest := by
  obtain ⟨t, after, hread, ht, hafter⟩ := aside_complete .unterminatedInstruction (by decide) h hwhole
  obtain ⟨more, rfl⟩ := hbegin
  have hmark : c.rest = '<' :: '?' :: (more ++ rest) := h
  have hcomment : c.past? "<!--".toList = none := past?_tag_eq_none hmark (by decide)
  have hsection : c.past? "<![CDATA[".toList = none := past?_tag_eq_none hmark (by decide)
  have hdeclaration : c.past? "<!".toList = none := past?_tag_eq_none hmark (by decide)
  obtain ⟨_, hinstruction, _⟩ := past?_eq_some (c := c) "<?".toList hmark
  refine ⟨t, after, ?_, ht, hafter⟩
  simp only [token, hcomment, hsection, hdeclaration, hinstruction, hread, Option.isSome_none, Option.isSome_some,
    Bool.false_eq_true, if_false, if_true]

/-- What begins like a name after the character that begins a tag is the tag of an element. -/
theorem token_startTag {x : Char} (h : c.rest = '<' :: x :: rest) (hx : QName.isNameStart x = true) :
    ∃ inside, c.token = startTag c.offset inside ∧ inside.rest = x :: rest := by
  have hmark : '!' ≠ x := (QName.ne_of_isNameStart hx (by decide)).symm
  have hcomment : c.past? "<!--".toList = none := past?_tag_eq_none h hmark
  have hsection : c.past? "<![CDATA[".toList = none := past?_tag_eq_none h hmark
  have hdeclaration : c.past? "<!".toList = none := past?_tag_eq_none h hmark
  have hinstruction : c.past? "<?".toList = none := past?_tag_eq_none h (QName.ne_of_isNameStart hx (by decide)).symm
  have hend : c.past? "</".toList = none := past?_tag_eq_none h (QName.ne_of_isNameStart hx (by decide)).symm
  obtain ⟨inside, hpast, hinside⟩ := past?_eq_some "<".toList h
  refine ⟨inside, ?_, hinside⟩
  simp only [token, hcomment, hsection, hdeclaration, hinstruction, hend, hpast, Option.isSome_none, Bool.false_eq_true,
    if_false]

/-- A tag that begins an element is read. -/
theorem startTag_complete {s afterName : List Char} {q : QName} {attributes : List Attribute} {closed : Bool}
    (h : c.rest = '<' :: s) (hname : Named s q afterName) (htag : TagRest afterName attributes closed rest) :
    ∃ t after, c.token = .ok (t, after) ∧ t.Means (.startTag q attributes closed) ∧ after.rest = rest := by
  obtain ⟨first, more, rfl, hstart⟩ := hname.start
  obtain ⟨inside, htoken, hinside⟩ := token_startTag h hstart
  obtain ⟨written, after, hread, hchars, hafter⟩ := qualifiedName_complete .elementName (hinside ▸ hname)
  obtain ⟨tokens, last, hmore, rfl, hlast⟩ := tagRest_complete c.offset htag hafter
  refine ⟨.startTag c.offset written q tokens closed, last, ?_, .startTag hchars, hlast⟩
  rw [htoken, startTag, hread]
  simp only [hmore]

/-- What a slash begins after the character that begins a tag is the tag that ends an element. -/
theorem token_endTag (h : c.rest = '<' :: '/' :: rest) : ∃ inside, c.token = endTag c.offset inside ∧ inside.rest = rest := by
  have hcomment : c.past? "<!--".toList = none := past?_tag_eq_none h (by decide)
  have hsection : c.past? "<![CDATA[".toList = none := past?_tag_eq_none h (by decide)
  have hdeclaration : c.past? "<!".toList = none := past?_tag_eq_none h (by decide)
  have hinstruction : c.past? "<?".toList = none := past?_tag_eq_none h (by decide)
  obtain ⟨inside, hpast, hinside⟩ := past?_eq_some "</".toList h
  refine ⟨inside, ?_, hinside⟩
  simp only [token, hcomment, hsection, hdeclaration, hinstruction, hpast, Option.isSome_none, Bool.false_eq_true, if_false]

/-- A tag that ends an element is read. -/
theorem endTag_complete {s afterName written : List Char} (h : c.rest = '<' :: '/' :: s) (hname : Name s written afterName)
    (hend : Spaced afterName ('>' :: rest)) :
    ∃ t after, c.token = .ok (t, after) ∧ t.Means (.endTag written) ∧ after.rest = rest := by
  obtain ⟨inside, htoken, hinside⟩ := token_endTag h
  obtain ⟨piece, after, hread, rfl, hafter⟩ := name?_complete (hinside ▸ hname)
  have hskip : after.skipBlanks.rest = ['>'] ++ rest := rest_skipBlanks (hafter ▸ hend) (stops_cons.mpr (by decide))
  obtain ⟨last, hpast, hlast⟩ := past?_eq_some ['>'] hskip
  refine ⟨.endTag c.offset piece, last, ?_, .endTag, hlast⟩
  rw [htoken, endTag, hread]
  simp only [hpast]

/-- A lexeme that stands in the source is read. -/
theorem token_complete {l : Lexeme} (h : Lexed c.rest l rest) :
    ∃ t after, c.token = .ok (t, after) ∧ t.Means l ∧ after.rest = rest := by
  generalize hs : c.rest = s at h
  cases h with
  | text hne hrun hrest hmeant => exact text_complete hs hne hrun hrest hmeant
  | verbatim hbody => exact verbatim_complete hs hbody
  | @comment whole _ hbegin hwhole =>
    obtain ⟨t, after, hread, ht, hafter⟩ := aside_complete .unterminatedComment (by decide) hs hwhole
    have hcomment : (c.past? "<!--".toList).isSome = true := by
      rw [isSome_past?, hs]
      exact hbegin.trans (List.prefix_append whole rest)
    exact ⟨t, after, by rw [token, if_pos hcomment, hread], ht, hafter⟩
  | declaration hbegin hcomment hsection hwhole => exact declaration_complete hs hbegin hcomment hsection hwhole
  | instruction hbegin hwhole => exact instruction_complete hs hbegin hwhole
  | startTag hname htag => exact startTag_complete hs hname htag
  | endTag hname hend => exact endTag_complete hs hname hend

end Cursor

end LiveMarkup
