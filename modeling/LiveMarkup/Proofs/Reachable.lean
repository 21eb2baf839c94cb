import LiveMarkup.Proofs.Updates
import LiveMarkup.Proofs.Applying

/-!
# Documents that calls lead to

A document that a program can have is a new one, or one that was read, after any calls that update it
(`Document.Reachable`). The store of such a document shows the outline that is read off it, and nothing else
(`Reachable.shows`).
-/

namespace LiveMarkup.Document

/-- A document that calls can lead to. -/
inductive Reachable : Document → Prop
  | empty (id : DocumentId) : Reachable (.empty id)
  | parse {id : DocumentId} {source : String} {spacing : Spacing} {d : Document}
      (read : Document.parse id source spacing = .ok d) : Reachable d
  | ofRendered {id : DocumentId} {text : String} {d : Document} (read : Document.ofRendered id text = .ok d) :
      Reachable d
  | merge {d incoming : Document} (before : Reachable d) (other : Reachable incoming) :
      Reachable (d.after (.merge incoming))
  | applyText {d : Document} (before : Reachable d) (text : List Char) : Reachable (d.after (.applyText text))
  | applyEdits {d : Document} (before : Reachable d) (edits : List Edit) : Reachable (d.after (.applyEdits edits))
  | mergeRendered {d : Document} (before : Reachable d) (text : String) : Reachable (d.after (.mergeRendered text))

/-! ## What calls that succeed have done -/

section Success

variable {d d' incoming : Document} {id : DocumentId} {changes : List Change}

/-- A document that is read from markup is made for a forest. -/
theorem parse_eq_ok {source : String} {spacing : Spacing} (h : Document.parse id source spacing = .ok d) :
    ∃ f, Forest.parse source spacing = .ok f ∧ d = ofForest id f := by
  unfold Document.parse at h
  split at h
  · cases h
  · rename_i f hf
    cases h
    exact ⟨f, hf, rfl⟩

/-- The document of a description is read from markup, and keeps the description. -/
theorem document_eq_ok {r : Rendered.Root} (h : r.document id = .ok d) :
    ∃ markup parsed, Document.parse id markup .trimmed = .ok parsed ∧ d.store = parsed.store := by
  unfold Rendered.Root.document at h
  split at h
  · cases h
  · split at h
    · cases h
    · rename_i parsed hparse
      cases h
      exact ⟨_, parsed, hparse, rfl⟩

/-- A document that is made from a text is that of the description in it. -/
theorem ofRendered_eq_ok {text : String} (h : Document.ofRendered id text = .ok d) :
    ∃ r : Rendered.Root, r.document id = .ok d := by
  unfold Document.ofRendered at h
  split at h
  · cases h
  · exact ⟨_, h⟩

/-- Edits that are carried out leave the store that they lead to, and all else as it was. -/
theorem commit_eq_ok {edits : List Edit} (h : d.commit edits = .ok (d', changes)) :
    ∃ store, d.store.applyAll 0 edits = .ok (store, changes) ∧ d' = { d with store } := by
  unfold Document.commit at h
  split at h
  · rename_i store changes' happly
    cases h
    exact ⟨store, happly, rfl⟩
  · cases h

/-- A merge that succeeds carries out the difference. -/
theorem merge_eq_ok (h : d.merge incoming = .ok (d', changes)) :
    ∃ diff, d.compare incoming = .ok diff ∧ d.commit diff.edits = .ok (d', changes) := by
  rw [merge_eq] at h
  split at h
  · cases h
  · rename_i diff hdiff
    exact ⟨diff, hdiff, h⟩

/-- Edits in a text that are carried out have been read. -/
theorem applyText_eq_ok {text : List Char} (h : d.applyText text = .ok (d', changes)) :
    ∃ edits, Edit.decode text = .ok edits ∧ d.commit edits = .ok (d', changes) := by
  rw [applyText_eq] at h
  split at h
  · cases h
  · rename_i edits hedits
    exact ⟨edits, hedits, h⟩

/-- Edits that are carried out have legal names. -/
theorem applyEdits_eq_ok {edits : List Edit} (h : d.applyEdits edits = .ok (d', changes)) :
    Edit.checkNames 0 edits = .ok () ∧ d.commit edits = .ok (d', changes) := by
  rw [applyEdits_eq] at h
  split at h
  · cases h
  · rename_i hnames
    exact ⟨hnames, h⟩

/-- An update of the description is read as markup, and what is read is merged into the document. -/
theorem mergeRendered_eq_ok {text : String} (h : d.mergeRendered text = .ok (d', changes)) :
    ∃ (next : Rendered.Root) (incoming merged : Document), next.document d.id = .ok incoming ∧
      d.merge incoming = .ok (merged, changes) ∧ d'.store = merged.store := by
  rw [mergeRendered_eq] at h
  split at h
  · cases h
  · split at h
    · cases h
    · split at h
      · cases h
      · split at h
        · cases h
        · split at h
          · cases h
          · rename_i hdocument _ merged changes' hmerge
            cases h
            exact ⟨_, _, merged, hdocument, hmerge, rfl⟩

end Success

/-! ## Soundness -/

/-- The forest of a document is that of the outline that its store shows. -/
theorem forest_of_shows {d : Document} {id : DocumentId} {o : Outline} (h : d.store.Shows id o) :
    d.forest = o.forest :=
  congrArg Outline.forest h.outline_eq

/-- What is below the root of a document that is made for a forest is this forest. -/
theorem forest_ofForest (id : DocumentId) (f : Forest) : (ofForest id f).forest = f := by
  obtain ⟨o, hforest, ho⟩ := Store.Shows.graft id f
  exact (forest_of_shows ho).trans hforest

/-- The forest of a document is a matter of the store. -/
theorem forest_congr {d d' : Document} (hstore : d'.store = d.store) : d'.forest = d.forest := by
  rw [Document.forest, Document.forest, Document.outline, Document.outline, Document.root, Document.root, hstore]

/-- The store of the document shows some outline. -/
def Sound (d : Document) : Prop :=
  ∃ o : Outline, d.store.Shows d.id o

namespace Sound

theorem empty (id : DocumentId) : (Document.empty id).Sound :=
  ⟨.nil, Store.Shows.new id⟩

/-- A document that is made for a forest is sound. -/
theorem ofForest (id : DocumentId) (f : Forest) : (Document.ofForest id f).Sound := by
  obtain ⟨o, _, ho⟩ := Store.Shows.graft id f
  refine ⟨o, ?_⟩
  have hid : (Document.ofForest id f).id = id := ho.document
  rw [hid]
  exact ho

/-- A document that is read from markup is sound. -/
theorem parse {id : DocumentId} {source : String} {spacing : Spacing} {d : Document}
    (h : Document.parse id source spacing = .ok d) : d.Sound := by
  obtain ⟨f, _, rfl⟩ := parse_eq_ok h
  exact ofForest id f

/-- Soundness is a matter of the store. -/
theorem congr {d d' : Document} (h : d.Sound) (hstore : d'.store = d.store) : d'.Sound := by
  obtain ⟨o, ho⟩ := h
  refine ⟨o, ?_⟩
  rw [Document.id, hstore]
  exact ho

/-- The document of a description is sound. -/
theorem ofDescription {r : Rendered.Root} {id : DocumentId} {d : Document} (h : r.document id = .ok d) : d.Sound := by
  obtain ⟨markup, parsed, hparse, hstore⟩ := document_eq_ok h
  exact (parse hparse).congr hstore

/-- Edits that are carried out leave a sound document, with the identity it had. -/
theorem commit {d d' : Document} {edits : List Edit} {changes : List Change} (h : d.Sound)
    (hcommit : d.commit edits = .ok (d', changes)) : d'.Sound ∧ d'.id = d.id := by
  obtain ⟨o, ho⟩ := h
  obtain ⟨store, happly, rfl⟩ := commit_eq_ok hcommit
  obtain ⟨o', ho', _⟩ := ho.applyAll_eq_ok happly
  have hid : Document.id { d with store } = d.id := ho'.document
  exact ⟨⟨o', hid ▸ ho'⟩, hid⟩

/-- A merge that succeeds leaves a sound document. -/
theorem merge {d incoming d' : Document} {changes : List Change} (h : d.Sound)
    (hmerge : d.merge incoming = .ok (d', changes)) : d'.Sound := by
  obtain ⟨diff, _, hcommit⟩ := merge_eq_ok hmerge
  exact (h.commit hcommit).1

end Sound

/-- The store of a document that calls lead to shows an outline. -/
theorem Reachable.sound {d : Document} (h : d.Reachable) : d.Sound := by
  induction h with
  | empty id => exact Sound.empty id
  | parse read => exact Sound.parse read
  | ofRendered read =>
    obtain ⟨r, hdocument⟩ := ofRendered_eq_ok read
    exact Sound.ofDescription hdocument
  | merge before other ih _ =>
    refine (Update.merge_allOrNothing _).after_induction ih ?_
    intro d' changes hmerge
    exact ih.merge hmerge
  | applyText before text ih =>
    refine (Update.applyText_allOrNothing text).after_induction ih ?_
    intro d' changes happly
    obtain ⟨edits, _, hcommit⟩ := applyText_eq_ok happly
    exact (ih.commit hcommit).1
  | applyEdits before edits ih =>
    refine (Update.applyEdits_allOrNothing edits).after_induction ih ?_
    intro d' changes happly
    exact (ih.commit (applyEdits_eq_ok happly).2).1
  | mergeRendered before text ih =>
    refine (Update.mergeRendered_allOrNothing text).after_induction ih ?_
    intro d' changes hmerged
    obtain ⟨next, incoming, merged, _, hmerge, hstore⟩ := mergeRendered_eq_ok hmerged
    exact (ih.merge hmerge).congr hstore

/-- The store of a sound document shows the outline that is read off it. -/
theorem Sound.shows {d : Document} (h : d.Sound) : d.store.Shows d.id d.outline := by
  obtain ⟨o, ho⟩ := h
  have houtline : d.outline = o := ho.outline_eq
  rw [houtline]
  exact ho

/-- The store of a document that calls lead to shows the outline that is read off it. -/
theorem Reachable.shows {d : Document} (h : d.Reachable) : d.store.Shows d.id d.outline :=
  h.sound.shows

/-! A list in which one entry has come in the slots of another. -/

/-- A list with an entry and a text. -/
def withEntry (id : DocumentId) : Document :=
  (Document.empty id).after (.applyEdits [.append [] (.element ⟨"", "ul"⟩ [⟨⟨"", "id"⟩, "x"⟩]
    (.element ⟨"", "li"⟩ [⟨⟨"", "class"⟩, "y"⟩] (.leaf "a" .nil) (.leaf "b" .nil)))])

/-- The list after its entry was removed and another one has come behind the text, in the slots of the first. -/
def withOtherEntry (id : DocumentId) : Document :=
  (withEntry id).after (.applyEdits
    [.remove [0, 0], .append [0] (.element ⟨"", "li"⟩ [⟨⟨"", "class"⟩, "z"⟩] (.leaf "c" .nil))])

/-- The list can come about. -/
theorem reachable_withEntry (id : DocumentId) : (withEntry id).Reachable :=
  .applyEdits (.empty id) _

/-- The list with the other entry can come about. -/
theorem reachable_withOtherEntry (id : DocumentId) : (withOtherEntry id).Reachable :=
  .applyEdits (reachable_withEntry id) _

end LiveMarkup.Document
