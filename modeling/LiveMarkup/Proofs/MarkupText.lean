import LiveMarkup.Markup.Printer
import LiveMarkup.Proofs.ReadingOn

/-!
# Printed pieces

What is printed for a text or a value spells it (`Reference.spells_escapeText`, `Reference.spells_escapeValue`), and
what is printed for a tag with legal names is a lexeme (`Grammar.Lexed.printed`, `Grammar.Lexed.closeTag`). So printed markup
is read piece by piece: a stretch of text is heard, whatever lexemes it belongs to (`Cursor.readOn_text`), and a tag is read
past (`Cursor.readOn_emptyTag`, `Cursor.readOn_openTag`, `Cursor.readOn_closeTag`).
-/

namespace LiveMarkup

/-! ## Texts and values -/

namespace Reference

open Markup (escapeChar escapeValueChar)

theorem spells_escapeChar (c : Char) : Spells (escapeChar c) [c] := by
  unfold escapeChar
  split
  · rename_i hc
    subst hc
    exact Spells.reference (show ';' ∉ "amp".toList by decide) rfl
  · split
    · rename_i hc
      subst hc
      exact Spells.reference (show ';' ∉ "lt".toList by decide) rfl
    · split
      · rename_i hc
        subst hc
        exact Spells.reference (show ';' ∉ "gt".toList by decide) rfl
      · rename_i hc _ _
        exact Spells.plain hc

theorem spells_escapeValueChar (c : Char) : Spells (escapeValueChar c) [c] := by
  unfold escapeValueChar
  split
  · rename_i hc
    subst hc
    exact Spells.reference (show ';' ∉ "quot".toList by decide) rfl
  · exact spells_escapeChar c

theorem spells_escapeText (text : String) : Spells (Markup.escapeText text).toList text.toList := by
  rw [Markup.escapeText, String.toList_ofList]
  exact Spells.flatMap spells_escapeChar _

theorem spells_escapeValue (text : String) : Spells (Markup.escapeValue text).toList text.toList := by
  rw [Markup.escapeValue, String.toList_ofList]
  exact Spells.flatMap spells_escapeValueChar _

end Reference

namespace Markup

/-- A character is written as itself, or with the characters of references. -/
theorem mem_escapeChar {c x : Char} (h : x ∈ escapeChar c) : x = c ∧ c ≠ '<' ∨ x ∈ "&ampltg;".toList := by
  unfold escapeChar at h
  split at h
  · exact Or.inr ((show "&amp;".toList ⊆ "&ampltg;".toList by decide) h)
  · split at h
    · exact Or.inr ((show "&lt;".toList ⊆ "&ampltg;".toList by decide) h)
    · split at h
      · exact Or.inr ((show "&gt;".toList ⊆ "&ampltg;".toList by decide) h)
      · rename_i hlt _
        exact Or.inl ⟨List.mem_singleton.mp h, hlt⟩

/-- Text is written without the character that begins a tag. -/
theorem lt_notMem_escapeText (s : String) : '<' ∉ (escapeText s).toList := by
  rw [escapeText, String.toList_ofList, List.mem_flatMap]
  rintro ⟨c, _, hc⟩
  rcases mem_escapeChar hc with ⟨heq, hlt⟩ | hmem
  · exact hlt heq.symm
  · revert hmem
    decide

/-- A value is written without quotation marks. -/
theorem quote_notMem_escapeValue (s : String) : '\x22' ∉ (escapeValue s).toList := by
  rw [escapeValue, String.toList_ofList, List.mem_flatMap]
  rintro ⟨c, _, hc⟩
  unfold escapeValueChar at hc
  split at hc
  · revert hc
    decide
  · rename_i hquote
    rcases mem_escapeChar hc with ⟨heq, _⟩ | hmem
    · exact hquote heq.symm
    · revert hmem
      decide

end Markup

/-! ## Tags -/

/-- The characters of a written attribute. -/
theorem Attribute.toList_written (a : Attribute) :
    a.written.toList =
      ' ' :: (a.name.qualified.toList ++ '=' :: '\x22' :: ((Markup.escapeValue a.value).toList ++ ['\x22'])) := by
  simp [Attribute.written, String.toList_append]
namespace Grammar

variable {name : QName} {attributes : List Attribute} {closed : Bool} {rest : List Char}

theorem Named.of_isLegal (hname : name.isLegal = true) (hrest : Stops QName.isNameChar rest) :
    Named (name.qualified.toList ++ rest) name rest := by
  obtain ⟨first, more, hwritten, hstart, hchars, _⟩ := QName.qualified_of_isLegal hname
  exact ⟨⟨rfl, ⟨first, more, hwritten, hstart⟩, hwritten ▸ hchars, hrest⟩, hname⟩

/-- A written attribute stands before what is left of a tag. -/
theorem TagRest.written {a : Attribute} {after : List Char} (ha : a.name.isLegal = true)
    (hrest : TagRest after attributes closed rest) : TagRest (a.written.toList ++ after) (a :: attributes) closed rest := by
  have hmeant : Reference.Decoded (Markup.escapeValue a.value).toList a.value.toList :=
    Reference.decoded_of_decode ((Reference.spells_escapeValue a.value).decode_eq 0)
  have hvalue : Value ('\x22' :: ((Markup.escapeValue a.value).toList ++ '\x22' :: after)) a.value.toList after :=
    .quoted (.inl rfl) (Markup.quote_notMem_escapeValue a.value) hmeant
  have hequals : Stops QName.isNameChar ('=' :: '\x22' :: ((Markup.escapeValue a.value).toList ++ '\x22' :: after)) :=
    stops_cons.mpr (by decide)
  have hform := AttributeForm.valued (.of_isLegal ha hequals) (.refl _) (.refl _) hvalue
  rw [String.ofList_toList] at hform
  rw [Attribute.toList_written, List.cons_append, List.append_assoc, List.cons_append, List.cons_append, List.append_assoc]
  exact .more rfl (.refl _) hform hrest

/-- What is printed after the name of a tag is the rest of it. -/
theorem TagRest.printed (closed : Bool) (rest : List Char) (hattributes : Attribute.AllLegal attributes) :
    TagRest (attributes.flatMap (fun a => a.written.toList) ++ ((if closed then " />" else ">").toList ++ rest))
      attributes closed rest := by
  induction attributes with
  | nil =>
    cases closed with
    | true => exact .closed ⟨[' '], List.forall_mem_singleton.mpr rfl, rfl⟩
    | false => exact .opened (.refl _)
  | cons a attributes ih =>
    obtain ⟨ha, hattributes⟩ := List.forall_mem_cons.mp hattributes
    rw [List.flatMap_cons, List.append_assoc]
    exact .written ha (ih hattributes)

/-- The printed tag of an element is a lexeme. -/
theorem Lexed.printed (closed : Bool) (rest : List Char) (hname : name.isLegal = true)
    (hattributes : Attribute.AllLegal attributes) :
    Lexed ((if closed then Markup.emptyTag name attributes else Markup.openTag name attributes).toList ++ rest)
      (.startTag name attributes closed) rest := by
  have hstops : Stops QName.isNameChar (attributes.flatMap (fun a => a.written.toList) ++
      ((if closed then " />" else ">").toList ++ rest)) := by
    cases attributes with
    | nil => cases closed <;> exact stops_cons.mpr (by decide)
    | cons a attributes =>
      rw [List.flatMap_cons, Attribute.toList_written]
      exact stops_cons.mpr (by decide)
  have htag := Lexed.startTag (.of_isLegal hname hstops) (.printed closed rest hattributes)
  have hprinted : (if closed then Markup.emptyTag name attributes else Markup.openTag name attributes).toList ++ rest =
      '<' :: (name.qualified.toList ++
        (attributes.flatMap (fun a => a.written.toList) ++ ((if closed then " />" else ">").toList ++ rest))) := by
    cases closed <;>
      simp [Markup.emptyTag, Markup.openTag, Markup.tagHead, String.toList_append, String.toList_join, List.flatMap_map]
  rw [hprinted]
  exact htag

/-- The printed tag that ends an element is a lexeme. -/
theorem Lexed.closeTag (rest : List Char) (hname : name.isLegal = true) :
    Lexed ((Markup.closeTag name).toList ++ rest) (.endTag name.qualified.toList) rest := by
  have htag := Lexed.endTag (Named.of_isLegal hname (stops_cons.mpr (by decide))).written (.refl ('>' :: rest))
  have hprinted : (Markup.closeTag name).toList ++ rest = '<' :: '/' :: (name.qualified.toList ++ '>' :: rest) := by
    simp [Markup.closeTag, String.toList_append]
  rw [hprinted]
  exact htag

end Grammar

/-! ## Reading on -/

namespace Cursor

open Grammar

variable {c : Cursor} {spacing : Spacing} {n : Nesting}

/-- The run of text that stands here, which may be empty, is heard if its references can be read. -/
theorem readOn_run (c : Cursor) (n : Nesting) : c.readOn spacing n =
    match Reference.decode c.offset (c.takeWhile (· ≠ '<')).1.chars with
    | .error e => .error e
    | .ok meant => (c.takeWhile (· ≠ '<')).2.readOn spacing (n.heard meant) := by
  by_cases hrun : ∃ x rest, c.rest = x :: rest ∧ x ≠ '<'
  · obtain ⟨x, rest, hrest, hx⟩ := hrun
    have hne : c.rest ≠ [] := by
      rw [hrest]
      exact List.cons_ne_nil x rest
    have htoken := token_text hrest hx
    rw [text] at htoken
    have hstart : (c.takeWhile (· ≠ '<')).1.start = c.offset := rfl
    generalize c.takeWhile (· ≠ '<') = read at htoken hstart ⊢
    obtain ⟨run, after⟩ := read
    change run.start = c.offset at hstart
    simp only [hstart] at htoken
    cases hdecode : Reference.decode c.offset run.chars with
    | error e =>
      simp only [hdecode] at htoken
      exact readOn_fault hne htoken
    | ok meant =>
      simp only [hdecode] at htoken
      exact readOn_token hne htoken rfl
  · have hread : c.takeWhile (· ≠ '<') = (⟨c.offset, []⟩, c) := by
      refine takeWhile_eq (List.nil_append c.rest).symm (List.forall_mem_nil _) ?_
      intro x hx
      cases hrest : c.rest with
      | nil =>
        rw [hrest] at hx
        cases hx
      | cons y rest =>
        rw [hrest] at hx
        cases hx
        refine decide_eq_false ?_
        intro hne
        exact hrun ⟨_, rest, hrest, hne⟩
    simp only [hread, Reference.decode, Nesting.heard_nil]

/-- Text is heard, whatever follows it. -/
theorem readOn_text (spacing : Spacing) (n : Nesting) {written meant rest : List Char}
    (hspells : Reference.Spells written meant) (hlt : '<' ∉ written) (h : c.rest = written ++ rest) :
    ∃ after : Cursor, after.rest = rest ∧ c.readOn spacing n = after.readOn spacing (n.heard meant) := by
  have hall : ∀ x ∈ written, decide (x ≠ '<') = true := by
    intro x hx
    refine decide_eq_true ?_
    rintro rfl
    exact hlt hx
  refine ⟨⟨c.offset + Text.utf8Length written, rest⟩, rfl, ?_⟩
  rw [readOn_run, readOn_run ⟨c.offset + Text.utf8Length written, rest⟩]
  simp only [takeWhile, h, List.takeWhile_append_of_pos hall, List.dropWhile_append_of_pos hall, hspells c.offset,
    Text.utf8Length_append, Nat.add_assoc]
  cases Reference.decode (c.offset + Text.utf8Length written) (rest.takeWhile fun x => decide (x ≠ '<')) with
  | error e => rfl
  | ok more => simp only [Except.map, Nesting.heard, List.append_assoc]

/-- The printed tag of an element without children puts it down after the text before it. -/
theorem readOn_emptyTag (spacing : Spacing) (n : Nesting) {name : QName} {attributes : List Attribute} {rest : List Char}
    (hname : name.isLegal = true) (hattributes : Attribute.AllLegal attributes)
    (h : c.rest = (Markup.emptyTag name attributes).toList ++ rest) :
    ∃ after : Cursor, after.rest = rest ∧
      c.readOn spacing n = after.readOn spacing ((n.flush spacing).placed (.element name attributes .nil)) := by
  have hlexed := Lexed.printed true rest hname hattributes
  obtain ⟨after, n', hafter, hadvances, hread⟩ := readOn_lexed spacing n (h ▸ hlexed) (by rintro _ ⟨⟩)
  cases hadvances
  exact ⟨after, hafter, hread⟩

/-- The printed tag before the children of an element begins it after the text before it. -/
theorem readOn_openTag (spacing : Spacing) (n : Nesting) {name : QName} {attributes : List Attribute} {rest : List Char}
    (hname : name.isLegal = true) (hattributes : Attribute.AllLegal attributes)
    (h : c.rest = (Markup.openTag name attributes).toList ++ rest) :
    ∃ (after : Cursor) (e : OpenElement), after.rest = rest ∧ e.written.chars = name.qualified.toList ∧
      e.name = name ∧ e.attributes = attributes ∧ e.before = (n.flush spacing).siblings ∧
      c.readOn spacing n = after.readOn spacing ⟨e :: n.opened, [], []⟩ := by
  have hlexed := Lexed.printed false rest hname hattributes
  obtain ⟨after, n', hafter, hadvances, hread⟩ := readOn_lexed spacing n (h ▸ hlexed) (by rintro _ ⟨⟩)
  cases hadvances with
  | @begin e hwritten hbefore => exact ⟨after, e, hafter, hwritten, rfl, rfl, hbefore, hread⟩

/-- The printed tag after the children of an element ends it after the text before it. -/
theorem readOn_closeTag (spacing : Spacing) {name : QName} {e : OpenElement} {outer : List OpenElement} {rest : List Char}
    (hname : name.isLegal = true) (hopened : n.opened = e :: outer) (he : e.written.chars = name.qualified.toList)
    (h : c.rest = (Markup.closeTag name).toList ++ rest) :
    ∃ after : Cursor, after.rest = rest ∧ c.readOn spacing n = after.readOn spacing
      ⟨outer, .element e.name e.attributes (.ofList (n.flush spacing).siblings.reverse) :: e.before, []⟩ := by
  have hlexed := Lexed.closeTag rest hname
  obtain ⟨after, n', hafter, hadvances, hread⟩ := readOn_lexed spacing n (h ▸ hlexed) (by
    rintro _ ⟨⟩
    exact ⟨e, outer, hopened, he⟩)
  cases hadvances with
  | finish hopened' =>
    rw [hopened] at hopened'
    cases hopened'
    exact ⟨after, hafter, hread⟩

end Cursor

end LiveMarkup
