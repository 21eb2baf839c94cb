import LiveMarkup.Proofs.MarkupText

/-!
# Printed markup

A printed forest is its pieces in order, with what the layout puts in front of each: nothing in minified form, and line
breaks and spaces in pretty form (`Forest.laidOut_print`). Reading it takes in the forest with these gaps heard as text
(`Nesting.Takes`), so that what becomes of a printed forest is a matter of texts only (`Forest.parse_print`).
-/

namespace LiveMarkup

/-- The characters that a layout may put in front of a piece. -/
def PrintOptions.IsFiller (options : PrintOptions) (c : Char) : Prop :=
  options.minify = false ∧ (c = '\n' ∨ c = ' ')

/-! ## Laid out -/

/-- The characters are pieces in order, with filler in front of each. -/
inductive Markup.LaidOut (filler : Char → Prop) : List Piece → List Char → Prop
  | nil : LaidOut filler [] []
  | cons {gap : List Char} {p : Piece} {pieces : List Piece} {chars : List Char} (hgap : ∀ c ∈ gap, filler c)
      (hpieces : LaidOut filler pieces chars) : LaidOut filler (p :: pieces) (gap ++ (p.text.toList ++ chars))

/-- The characters are a forest that is written in tags and texts, with filler in front of each. -/
inductive Forest.LaidOut (filler : Char → Prop) : Forest → List Char → Prop
  | nil : LaidOut filler .nil []
  | leaf {gap chars : List Char} {text : String} {next : Forest} (hgap : ∀ c ∈ gap, filler c)
      (hnext : LaidOut filler next chars) :
      LaidOut filler (.leaf text next) (gap ++ ((Markup.escapeText text).toList ++ chars))
  | empty {gap chars : List Char} {name : QName} {attributes : List Attribute} {next : Forest}
      (hgap : ∀ c ∈ gap, filler c) (hnext : LaidOut filler next chars) :
      LaidOut filler (.element name attributes .nil next) (gap ++ ((Markup.emptyTag name attributes).toList ++ chars))
  | element {gap gap' inside chars : List Char} {name : QName} {attributes : List Attribute} {children next : Forest}
      (hgap : ∀ c ∈ gap, filler c) (hchildren : LaidOut filler children inside) (hgap' : ∀ c ∈ gap', filler c)
      (hnext : LaidOut filler next chars) :
      LaidOut filler (.element name attributes children next)
        (gap ++ ((Markup.openTag name attributes).toList ++ (inside ++ (gap' ++ ((Markup.closeTag name).toList ++ chars)))))

namespace Markup

/-- The characters of a line. -/
theorem toList_line (options : PrintOptions) (p : Piece) :
    (line options p).toList = List.replicate (p.depth * options.indent) ' ' ++ p.text.toList := by
  rw [line, String.toList_append, String.toList_ofList]

/-- The characters of lines, all but the first of which follow a break. -/
theorem toList_lines (options : PrintOptions) (p : Piece) (pieces : List Piece) :
    ("\n".intercalate ((p :: pieces).map (line options))).toList =
      (line options p).toList ++ pieces.flatMap fun p => '\n' :: (line options p).toList := by
  induction pieces generalizing p with
  | nil => simp
  | cons next pieces ih =>
    rw [List.map_cons, List.map_cons, String.intercalate_cons_cons, ← List.map_cons, String.toList_append,
      String.toList_append, ih, List.flatMap_cons, List.append_assoc]
    rfl

/-- What a layout makes of pieces is these pieces, with filler in front of each. -/
theorem laidOut_layout (options : PrintOptions) (pieces : List Piece) :
    LaidOut options.IsFiller pieces (layout options pieces).toList := by
  unfold layout
  split
  · induction pieces with
    | nil => exact LaidOut.nil
    | cons p pieces ih =>
      rw [List.map_cons, String.join_cons, String.toList_append, ← List.nil_append (_ ++ _)]
      exact LaidOut.cons (List.forall_mem_nil _) ih
  · rename_i hminify
    have hpretty : options.minify = false := by simpa using hminify
    have hspaces : ∀ n, ∀ c ∈ List.replicate n ' ', options.IsFiller c := by
      intro n c hc
      exact ⟨hpretty, Or.inr (List.eq_of_mem_replicate hc)⟩
    cases pieces with
    | nil => exact LaidOut.nil
    | cons p pieces =>
      rw [toList_lines, toList_line, List.append_assoc]
      refine LaidOut.cons (hspaces _) ?_
      induction pieces with
      | nil => exact LaidOut.nil
      | cons p pieces ih =>
        rw [List.flatMap_cons, toList_line, ← List.cons_append, List.append_assoc]
        refine LaidOut.cons ?_ ih
        exact List.forall_mem_cons.mpr ⟨⟨hpretty, Or.inl rfl⟩, hspaces _⟩

/-- The pieces of a forest are laid out before those of the tasks that follow. -/
theorem laidOut_run {filler : Char → Prop} {f : Forest} {depth : Nat} {tasks : List Task} {chars : List Char}
    (h : LaidOut filler (run (.siblings f depth :: tasks)) chars) :
    ∃ before after, chars = before ++ after ∧ f.LaidOut filler before ∧ LaidOut filler (run tasks) after := by
  induction f generalizing depth tasks chars with
  | nil =>
    rw [run] at h
    exact ⟨[], chars, rfl, Forest.LaidOut.nil, h⟩
  | leaf text next ih =>
    rw [run] at h
    cases h with
    | cons hgap hpieces =>
      obtain ⟨before, after, rfl, hnext, hafter⟩ := ih hpieces
      refine ⟨_, after, ?_, Forest.LaidOut.leaf hgap hnext, hafter⟩
      simp only [List.append_assoc]
  | element name attributes children next ihc ihn =>
    rw [run] at h
    split at h
    · rename_i hempty
      subst hempty
      cases h with
      | cons hgap hpieces =>
        obtain ⟨before, after, rfl, hnext, hafter⟩ := ihn hpieces
        refine ⟨_, after, ?_, Forest.LaidOut.empty hgap hnext, hafter⟩
        simp only [List.append_assoc]
    · cases h with
      | cons hgap hpieces =>
        obtain ⟨inside, rest, rfl, hchildren, hrest⟩ := ihc hpieces
        rw [run] at hrest
        cases hrest with
        | cons hgap' hpieces' =>
          obtain ⟨before, after, rfl, hnext, hafter⟩ := ihn hpieces'
          refine ⟨_, after, ?_, Forest.LaidOut.element hgap hchildren hgap' hnext, hafter⟩
          simp only [List.append_assoc]

end Markup

/-- A printed forest is laid out with the filler that its options allow. -/
theorem Forest.laidOut_print (f : Forest) (options : PrintOptions) :
    f.LaidOut options.IsFiller (f.print options).toList := by
  have hlaidOut : Markup.LaidOut options.IsFiller (Markup.run [.siblings f 0]) (f.print options).toList :=
    Markup.laidOut_layout options f.pieces
  obtain ⟨before, after, hprint, hf, hafter⟩ := Markup.laidOut_run hlaidOut
  rw [Markup.run] at hafter
  cases hafter
  rw [hprint, List.append_nil]
  exact hf

/-! ## Taken in -/

/-- Reading a forest, with filler heard in front of every text and tag, leads from one nesting to another. -/
inductive Nesting.Takes (spacing : Spacing) (filler : Char → Prop) : Nesting → Forest → Nesting → Prop
  | nil {n : Nesting} : Takes spacing filler n .nil n
  | leaf {n n' : Nesting} {gap : List Char} {text : String} {next : Forest} (hgap : ∀ c ∈ gap, filler c)
      (hnext : Takes spacing filler (n.heard (gap ++ text.toList)) next n') :
      Takes spacing filler n (.leaf text next) n'
  | element {n inner n' : Nesting} {gap gap' : List Char} {e : OpenElement} {name : QName} {attributes : List Attribute}
      {children next : Forest} (hgap : ∀ c ∈ gap, filler c)
      (hchildren : Takes spacing filler ⟨e :: n.opened, [], []⟩ children inner) (hgap' : ∀ c ∈ gap', filler c)
      (hnext : Takes spacing filler (((n.heard gap).flush spacing).placed
        (.element name attributes (.ofList ((inner.heard gap').flush spacing).siblings.reverse))) next n') :
      Takes spacing filler n (.element name attributes children next) n'

namespace Nesting

variable {spacing : Spacing} {filler : Char → Prop} {n n' : Nesting} {f : Forest}

/-- Where nothing has been heard since an element began, there are no nodes in it. -/
theorem siblings_flush_begun (opened : List OpenElement) : (flush spacing (heard ⟨opened, [], []⟩ [])).siblings = [] := by
  cases spacing <;> rfl

/-- The elements that are open stay open. -/
theorem Takes.opened (h : Takes spacing filler n f n') : n'.opened = n.opened := by
  induction h with
  | nil => rfl
  | leaf _ _ ih => exact ih
  | element _ _ _ _ _ ih => exact ih

end Nesting

namespace Cursor

variable {filler : Char → Prop} {c : Cursor} {f : Forest}

/-- A forest with legal names that is laid out here is taken in. Inside an empty element nothing is heard, whatever element
might be open. -/
theorem readOn_laidOut (spacing : Spacing) (n : Nesting) {chars rest : List Char}
    (hfiller : ∀ c, filler c → c ≠ '<' ∧ c ≠ '&') (hlegal : f.Legal) (hlaidOut : f.LaidOut filler chars)
    (h : c.rest = chars ++ rest) :
    ∃ (after : Cursor) (n' : Nesting), after.rest = rest ∧ Nesting.Takes spacing filler n f n' ∧
      c.readOn spacing n = after.readOn spacing n' := by
  have hgap : ∀ {gap : List Char}, (∀ x ∈ gap, filler x) → Reference.Spells gap gap ∧ '<' ∉ gap := by
    intro gap hgap
    refine ⟨Reference.Spells.plains fun x hx => (hfiller x (hgap x hx)).2, ?_⟩
    intro hlt
    exact (hfiller _ (hgap _ hlt)).1 rfl
  induction hlaidOut generalizing c n rest with
  | nil => exact ⟨c, n, h, .nil, rfl⟩
  | @leaf gap chars text next hfill hnext ih =>
    obtain ⟨hspells, hlt⟩ := hgap hfill
    have htext : Reference.Spells (gap ++ (Markup.escapeText text).toList) (gap ++ text.toList) :=
      hspells.append (Reference.spells_escapeText text)
    have hrest : c.rest = (gap ++ (Markup.escapeText text).toList) ++ (chars ++ rest) := by
      rw [h]
      simp only [List.append_assoc]
    have htag : '<' ∉ gap ++ (Markup.escapeText text).toList := by
      rw [List.mem_append, not_or]
      exact ⟨hlt, Markup.lt_notMem_escapeText text⟩
    obtain ⟨c₁, hc₁, hheard⟩ := readOn_text spacing n htext htag hrest
    obtain ⟨after, n', hafter, htakes, hread⟩ := ih _ (Forest.legal_leaf.mp hlegal) hc₁
    exact ⟨after, n', hafter, .leaf hfill htakes, hheard.trans hread⟩
  | @empty gap chars name attributes next hfill hnext ih =>
    obtain ⟨hspells, hlt⟩ := hgap hfill
    obtain ⟨hname, hattributes, _, hlegalNext⟩ := Forest.legal_element.mp hlegal
    simp only [List.append_assoc] at h
    obtain ⟨c₁, hc₁, hheard⟩ := readOn_text spacing n hspells hlt h
    obtain ⟨c₂, hc₂, htag⟩ := readOn_emptyTag spacing (n.heard gap) hname hattributes hc₁
    obtain ⟨after, n', hafter, htakes, hread⟩ := ih _ hlegalNext hc₂
    refine ⟨after, n', hafter, ?_, hheard.trans (htag.trans hread)⟩
    refine .element (e := ⟨0, ⟨0, []⟩, name, attributes, []⟩) hfill .nil (List.forall_mem_nil filler) ?_
    rw [Nesting.siblings_flush_begun]
    exact htakes
  | @element gap gap' inside chars name attributes children next hfill hchildren hfill' hnext ihc ihn =>
    obtain ⟨hspells, hlt⟩ := hgap hfill
    obtain ⟨hspells', hlt'⟩ := hgap hfill'
    obtain ⟨hname, hattributes, hlegalChildren, hlegalNext⟩ := Forest.legal_element.mp hlegal
    simp only [List.append_assoc] at h
    obtain ⟨c₁, hc₁, hheard⟩ := readOn_text spacing n hspells hlt h
    obtain ⟨c₂, e, hc₂, hwritten, rfl, rfl, hbefore, hopen⟩ :=
      readOn_openTag spacing (n.heard gap) hname hattributes hc₁
    obtain ⟨c₃, inner, hc₃, hinner, hread⟩ := ihc ⟨e :: n.opened, [], []⟩ hlegalChildren hc₂
    obtain ⟨c₄, hc₄, hheard'⟩ := readOn_text spacing inner hspells' hlt' hc₃
    obtain ⟨c₅, hc₅, hclose⟩ := readOn_closeTag spacing (n := inner.heard gap') hname hinner.opened hwritten hc₄
    rw [hbefore] at hclose
    obtain ⟨after, n', hafter, htakes, hread'⟩ := ihn _ hlegalNext hc₅
    refine ⟨after, n', hafter, .element hfill hinner hfill' htakes, ?_⟩
    rw [hheard, hopen]
    exact hread.trans (hheard'.trans (hclose.trans hread'))

end Cursor

/-- A printed forest with legal names can be read, and what it comes to is what was taken in of it. -/
theorem Forest.parse_print {f : Forest} (h : f.Legal) (options : PrintOptions) (spacing : Spacing) :
    ∃ n, Nesting.Takes spacing options.IsFiller .start f n ∧
      Forest.parse (f.print options) spacing = .ok (.ofList (n.flush spacing).siblings.reverse) := by
  have hfiller : ∀ c, options.IsFiller c → c ≠ '<' ∧ c ≠ '&' := by
    rintro c ⟨_, rfl | rfl⟩ <;> decide
  obtain ⟨after, n, hafter, htakes, hread⟩ := Cursor.readOn_laidOut spacing .start hfiller h
    (f.laidOut_print options) (c := ⟨0, (f.print options).toList⟩) (List.append_nil _).symm
  have hopened : n.opened = [] := htakes.opened
  refine ⟨n, htakes, ?_⟩
  simp only [Forest.parse, Cursor.forest_ofSource, hread, Cursor.readOn_end hafter, Nesting.forest, hopened]

end LiveMarkup
