import LiveMarkup.Proofs.JoinedTexts

/-!
# What can be read

A source can be read exactly if it is content by the grammar, and what it comes to is what is read of the forest that the
content means (`Forest.parse_eq_ok_iff`, `Document.parse_eq_ok_iff_content`).

From the grammar to the reader the proof is by induction on the content: each lexeme is read past, and what has been put
together advances by it (`Cursor.readOn_content`). In the other direction a reader that is somewhere inside the source still
needs all the elements that are open to be ended; `Grammar.Closes` says that of a text, and where a source can be read on it
holds of the rest of it (`Cursor.closes_of_readOn`).
-/

namespace LiveMarkup

open Grammar

/-! ## Content is read -/

/-- Content that stands here is taken in. Inside an empty element nothing is heard, whatever element might be open. -/
theorem Cursor.readOn_content {c : Cursor} {s rest : List Char} {f : Forest} (spacing : Spacing) (n : Nesting)
    (h : Content s f rest) (hs : c.rest = s) :
    ∃ (after : Cursor) (n' : Nesting), after.rest = rest ∧ Nesting.Takes spacing (fun _ => False) n f n' ∧
      c.readOn spacing n = after.readOn spacing n' := by
  have hnothing : ∀ x ∈ ([] : List Char), False := List.forall_mem_nil _
  induction h generalizing c n with
  | nil => exact ⟨c, n, hs, .nil, rfl⟩
  | text htext _ ih =>
    obtain ⟨c₁, n₁, hc₁, hadvances, hread⟩ := readOn_lexed spacing n (hs ▸ htext) (by rintro _ ⟨⟩)
    cases hadvances
    obtain ⟨after, n', hafter, htakes, hread'⟩ := ih _ hc₁
    refine ⟨after, n', hafter, .leaf hnothing ?_, hread.trans hread'⟩
    rwa [List.nil_append, String.toList_ofList]
  | aside haside _ ih =>
    obtain ⟨c₁, n₁, hc₁, hadvances, hread⟩ := readOn_lexed spacing n (hs ▸ haside) (by rintro _ ⟨⟩)
    cases hadvances
    obtain ⟨after, n', hafter, htakes, hread'⟩ := ih _ hc₁
    exact ⟨after, n', hafter, htakes, hread.trans hread'⟩
  | @empty _ _ _ q attributes _ htag _ ih =>
    obtain ⟨c₁, n₁, hc₁, hadvances, hread⟩ := readOn_lexed spacing n (hs ▸ htag) (by rintro _ ⟨⟩)
    cases hadvances
    obtain ⟨after, n', hafter, htakes, hread'⟩ := ih _ hc₁
    refine ⟨after, n', hafter, ?_, hread.trans hread'⟩
    refine .element (e := ⟨0, ⟨0, []⟩, q, attributes, []⟩) hnothing .nil hnothing ?_
    rwa [Nesting.siblings_flush_begun, Nesting.heard_nil]
  | element hbegin _ hend _ ihc ihn =>
    obtain ⟨c₁, n₁, hc₁, hadvances, hread⟩ := readOn_lexed spacing n (hs ▸ hbegin) (by rintro _ ⟨⟩)
    cases hadvances with
    | @begin e hwritten hbefore =>
      obtain ⟨c₂, inner, hc₂, hinner, hread'⟩ := ihc ⟨e :: n.opened, [], []⟩ hc₁
      have hopened : inner.opened = e :: n.opened := hinner.opened
      obtain ⟨c₃, n₃, hc₃, hadvances, hread''⟩ := readOn_lexed spacing inner (hc₂ ▸ hend) (by
        rintro _ ⟨⟩
        exact ⟨e, n.opened, hopened, hwritten⟩)
      cases hadvances with
      | finish hopened' =>
        rw [hopened] at hopened'
        cases hopened'
        obtain ⟨after, n', hafter, htakes, hread'''⟩ := ihn _ hc₃
        refine ⟨after, n', hafter, .element hnothing hinner hnothing ?_,
          hread.trans (hread'.trans (hread''.trans hread'''))⟩
        rw [Nesting.heard_nil, Nesting.heard_nil]
        rwa [hbefore] at htakes

/-- A source that is content is read. -/
theorem Forest.parse_of_content {source : String} {f : Forest} (spacing : Spacing) (h : Content source.toList f []) :
    Forest.parse source spacing = .ok (f.read spacing) := by
  obtain ⟨after, n, hafter, htakes, hread⟩ := Cursor.readOn_content (c := ⟨0, source.toList⟩) spacing .start h rfl
  have hopened : n.opened = [] := htakes.opened
  have hforest : Forest.ofList (n.flush spacing).siblings.reverse = f.read spacing := by
    rw [htakes.siblings_flush_read (fun _ => not_false)]
    exact (ofList_toList _).trans (read_leaf_empty spacing f)
  simp only [Forest.parse, Cursor.forest_ofSource, hread, Cursor.readOn_end hafter, Nesting.forest, hopened, hforest]

/-! ## What is read is content -/

namespace Grammar

/-- Content, with elements in it that are ended without having begun: by these names, and in this order. -/
inductive Closes : List (List Char) → List Char → Prop
  | done {s : List Char} {f : Forest} (h : Content s f []) : Closes [] s
  | close {written : List Char} {outer : List (List Char)} {s beforeEnd after : List Char} {f : Forest}
      (hinside : Content s f beforeEnd) (hend : Lexed beforeEnd (.endTag written) after) (houter : Closes outer after) :
      Closes (written :: outer) s

/-- What may stand before content may stand before the first content of such a text. -/
theorem Closes.prepend {opened : List (List Char)} {s after : List Char} (h : Closes opened after)
    (hpiece : ∀ {f rest}, Content after f rest → ∃ g, Content s g rest) : Closes opened s := by
  cases h with
  | done h =>
    obtain ⟨g, hg⟩ := hpiece h
    exact .done hg
  | close hinside hend houter =>
    obtain ⟨g, hg⟩ := hpiece hinside
    exact .close hg hend houter

end Grammar

/-- Where a source can be read on, the elements that are open are ended. -/
theorem Cursor.closes_of_readOn {c : Cursor} {spacing : Spacing} {n : Nesting} {f : Forest}
    (h : c.readOn spacing n = .ok f) : Closes (n.opened.map fun e => e.written.chars) c.rest := by
  induction hlength : c.rest.length using Nat.strongRecOn generalizing c n with
  | ind _ ih =>
    by_cases hrest : c.rest = []
    · rw [readOn_end hrest, Nesting.forest] at h
      split at h
      · cases h
      · rename_i hopened
        rw [hopened, hrest]
        exact .done .nil
    · obtain ⟨l, after, n', hlexed, hshorter, hadvances, hread⟩ := advances_of_readOn hrest h
      have hcloses := ih _ (hlength ▸ hshorter) hread rfl
      cases hadvances with
      | text => exact hcloses.prepend fun hcontent => ⟨_, .text hlexed hcontent⟩
      | aside => exact hcloses.prepend fun hcontent => ⟨_, .aside hlexed hcontent⟩
      | empty => exact hcloses.prepend fun hcontent => ⟨_, .empty hlexed hcontent⟩
      | @begin e hwritten hbefore =>
        rw [List.map_cons, hwritten] at hcloses
        cases hcloses with
        | close hinside hend houter =>
          exact houter.prepend fun hcontent => ⟨_, .element hlexed hinside hend hcontent⟩
      | finish hopened hwritten =>
        rw [hopened, List.map_cons, hwritten]
        exact .close .nil hlexed hcloses

/-- A source that is read is content. -/
theorem Forest.content_of_parse {source : String} {spacing : Spacing} {f : Forest}
    (h : Forest.parse source spacing = .ok f) : ∃ g, Content source.toList g [] := by
  simp only [Forest.parse, Cursor.forest_ofSource] at h
  split at h
  · cases h
  · rename_i hread
    cases Cursor.closes_of_readOn hread with
    | done hcontent => exact ⟨_, hcontent⟩

/-- A source can be read exactly if it is content. -/
theorem Forest.parse_eq_ok_iff {source : String} {spacing : Spacing} {f : Forest} :
    Forest.parse source spacing = .ok f ↔ ∃ g, Content source.toList g [] ∧ f = g.read spacing := by
  constructor
  · intro h
    obtain ⟨g, hg⟩ := content_of_parse h
    refine ⟨g, hg, ?_⟩
    rw [parse_of_content spacing hg] at h
    exact (Except.ok.inj h).symm
  · rintro ⟨g, hg, rfl⟩
    exact parse_of_content spacing hg

/-- The grammar is unambiguous as far as what is read goes. -/
theorem Grammar.Content.read_unique {source : String} {f g : Forest} (spacing : Spacing) (hf : Content source.toList f [])
    (hg : Content source.toList g []) : f.read spacing = g.read spacing :=
  Except.ok.inj ((Forest.parse_of_content spacing hf).symm.trans (Forest.parse_of_content spacing hg))

/-- A document can be read from a source exactly if the source is content, and it is the document with what is read of the
forest that the content means. -/
theorem Document.parse_eq_ok_iff_content (id : DocumentId) (source : String) (spacing : Spacing) (d : Document) :
    Document.parse id source spacing = .ok d ↔
      ∃ f, Content source.toList f [] ∧ d.forest = f.read spacing ∧ d = ofForest id d.forest := by
  constructor
  · intro h
    obtain ⟨read, hread, rfl⟩ := parse_eq_ok h
    obtain ⟨f, hf, rfl⟩ := Forest.parse_eq_ok_iff.mp hread
    rw [forest_ofForest]
    exact ⟨f, hf, rfl, rfl⟩
  · rintro ⟨f, hf, hforest, hd⟩
    rw [hd, Document.parse, Forest.parse_of_content spacing hf, hforest]

end LiveMarkup
