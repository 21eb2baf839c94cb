import LiveMarkup.Proofs.Convergence
import LiveMarkup.Proofs.ReadingOn

/-!
# Names in documents are legal

Edits with legal names keep the names of a forest legal (`Forest.legal_carryOut`), and a list of edits is read only if its
names are legal (`Edit.checkNames_eq_ok_iff`). Therefore every name in a document that calls lead to is legal
(`Document.Reachable.legal`).
-/

namespace LiveMarkup

/-- All names that the edit would write are legal. -/
def Edit.Legal (e : Edit) : Prop :=
  ∀ entry ∈ e.names, entry.2.isLegal = true

/-- Names are checked successfully exactly if they are legal. -/
theorem Edit.checkNames_eq_ok_iff {number : Nat} {edits : List Edit} :
    checkNames number edits = .ok () ↔ ∀ e ∈ edits, e.Legal := by
  induction edits generalizing number with
  | nil => exact ⟨fun _ => List.forall_mem_nil _, fun _ => rfl⟩
  | cons e rest ih =>
    rw [checkNames, List.forall_mem_cons]
    split
    · rename_i kind name hfind
      have hillegal := List.find?_some hfind
      have hmem := List.mem_of_find?_eq_some hfind
      constructor
      · intro h
        cases h
      · intro h
        rw [h.1 _ hmem] at hillegal
        cases hillegal
    · rename_i hnone
      have hlegal : e.Legal := by
        intro entry hentry
        have h := List.find?_eq_none.mp hnone entry hentry
        simpa using h
      rw [ih]
      exact ⟨fun h => ⟨hlegal, h⟩, fun h => h.2⟩

/-- Edits that are read have legal names. -/
theorem Edit.legal_of_decode {text : List Char} {edits : List Edit} (h : decode text = .ok edits) :
    ∀ e ∈ edits, e.Legal := by
  simp only [decode, bind, Except.bind] at h
  split at h
  · cases h
  · split at h
    · cases h
    · rename_i hnames
      cases h
      exact checkNames_eq_ok_iff.mp hnames

theorem Attribute.forall_names {attributes : List Attribute} :
    (∀ entry ∈ names attributes, entry.2.isLegal = true) ↔ AllLegal attributes := by
  rw [names, List.forall_mem_map]
  rfl

namespace Forest

variable {f g : Forest}

theorem legal_toList (h : f.Legal) : ∀ t ∈ f.toList, t.forest.Legal := by
  rw [← legal_ofList, ofList_toList]
  exact h

theorem legal_below? {path : Path} (h : f.Legal) (hbelow : f.below? path = some g) : g.Legal := by
  induction path generalizing f with
  | nil =>
    cases hbelow
    exact h
  | cons i path ih =>
    obtain ⟨before, after, name, attributes, children, hlist, _, hchildren⟩ := below?_cons_eq_some hbelow
    have ht := legal_toList h (.element name attributes children) (by simp [hlist])
    exact ih (legal_element.mp ht).2.2.1 hchildren

/-- Putting a forest with legal names below a node keeps the names legal. -/
theorem legal_setBelow {path : Path} (h : f.Legal) (hbelow : f.below? path = some g) {new : Forest} (hnew : new.Legal) :
    (f.setBelow path new).Legal := by
  induction path generalizing f with
  | nil => exact hnew
  | cons i path ih =>
    obtain ⟨before, after, name, attributes, children, hlist, rfl, hchildren⟩ := below?_cons_eq_some hbelow
    have hall := legal_toList h
    rw [hlist, List.forall_mem_append, List.forall_mem_cons] at hall
    obtain ⟨hbefore, helement, hafter⟩ := hall
    obtain ⟨hname, hattributes, hold, hnext⟩ := legal_element.mp helement
    have hchanged : (Tree.element name attributes (children.setBelow path new)).forest.Legal :=
      legal_element.mpr ⟨hname, hattributes, ih hold hchildren, hnext⟩
    rw [setBelow_cons hlist]
    refine legal_ofList.mpr ?_
    rw [List.forall_mem_append, List.forall_mem_cons]
    exact ⟨hbefore, hchanged, hafter⟩

/-- Exchanging a tree for trees with legal names keeps the names legal. -/
theorem legal_exchange {path : Path} {change : Tree → Except Illegal (List Tree)} (h : f.Legal)
    (hchange : ∀ t trees, t.forest.Legal → change t = .ok trees → ∀ t' ∈ trees, t'.forest.Legal)
    (hg : f.exchange path change = .ok g) : g.Legal := by
  obtain ⟨p, before, after, trees, t, rfl, hp, htrees, rfl⟩ := exchange_eq_ok hg
  have hall := legal_ofList.mp (legal_below? h hp)
  rw [List.forall_mem_append, List.forall_mem_cons] at hall
  obtain ⟨hbefore, ht, hafter⟩ := hall
  refine legal_setBelow h hp (legal_ofList.mpr ?_)
  rw [List.forall_mem_append, List.forall_mem_append]
  exact ⟨hbefore, hchange t trees ht htrees, hafter⟩

/-- An edit with legal names keeps the names of a forest legal. -/
theorem legal_carryOut {e : Edit} (h : f.Legal) (he : e.Legal) (hg : f.carryOut e = .ok g) : g.Legal := by
  cases e with
  | setAttributes path attributes =>
    refine legal_exchange h ?_ hg
    intro t trees ht htrees
    cases t with
    | leaf text => cases htrees
    | element name as children =>
      cases htrees
      obtain ⟨hname, _, hrest⟩ := legal_element.mp ht
      rw [List.forall_mem_singleton]
      exact legal_element.mpr ⟨hname, Attribute.forall_names.mp he, hrest⟩
  | setText path text =>
    refine legal_exchange h ?_ hg
    intro t trees ht htrees
    cases t with
    | leaf text =>
      cases htrees
      rw [List.forall_mem_singleton]
      exact ht
    | element name as children => cases htrees
  | append path tree =>
    rw [carryOut] at hg
    split at hg
    · cases hg
    · rename_i below hbelow
      cases hg
      refine legal_setBelow h hbelow (legal_ofList.mpr ?_)
      rw [List.forall_mem_append, List.forall_mem_singleton]
      exact ⟨legal_toList (legal_below? h hbelow), he⟩
  | remove path =>
    rw [carryOut] at hg
    split at hg
    · cases hg
    · refine legal_exchange h ?_ hg
      intro t trees _ htrees
      cases htrees
      exact List.forall_mem_nil _
  | replace path tree =>
    rw [carryOut] at hg
    split at hg
    · cases hg
    · refine legal_exchange h ?_ hg
      intro t trees _ htrees
      cases htrees
      rw [List.forall_mem_singleton]
      exact he

/-- Edits with legal names keep the names of a forest legal. -/
theorem legal_carryOutAll {number : Nat} {edits : List Edit} (h : f.Legal) (hedits : ∀ e ∈ edits, e.Legal)
    (hg : f.carryOutAll number edits = .ok g) : g.Legal := by
  induction edits generalizing f number with
  | nil =>
    cases hg
    exact h
  | cons e rest ih =>
    obtain ⟨he, hrest⟩ := List.forall_mem_cons.mp hedits
    rw [carryOutAll] at hg
    split at hg
    · cases hg
    · rename_i k hk
      exact ih (legal_carryOut h he hk) hrest hg

end Forest

namespace Document

namespace Sound

variable {d d' incoming : Document} {changes : List Change}

/-- Edits that are carried out lead to the forest that they lead to on the plain tree. -/
theorem carryOutAll_of_commit (h : d.Sound) {edits : List Edit} (hcommit : d.commit edits = .ok (d', changes)) :
    d.forest.carryOutAll 0 edits = .ok d'.forest := by
  obtain ⟨o, ho⟩ := h
  obtain ⟨store, happly, rfl⟩ := commit_eq_ok hcommit
  obtain ⟨o', ho', hcarried, _⟩ := ho.applyAll_eq_ok happly
  have hforest : Document.forest { d with store } = o'.forest := forest_of_shows ho'
  rw [forest_of_shows ho, hforest]
  exact hcarried

/-- A merge leaves the forest of the other document. -/
theorem forest_of_merge (h : d.Sound) (h' : incoming.Sound) (hmerge : d.merge incoming = .ok (d', changes)) :
    d'.forest = incoming.forest := by
  obtain ⟨diff, hcompare, hcommit⟩ := merge_eq_ok hmerge
  have hcarried := h.carryOutAll_of_commit hcommit
  obtain ⟨o, ho⟩ := h
  obtain ⟨o', ho'⟩ := h'
  rw [compare_of_shows ho ho'] at hcompare
  cases hcompare
  have hleads := (Forest.leads_diff o.forest o'.forest).carryOutAll_eq 0
  rw [forest_of_shows ho, hleads] at hcarried
  rw [forest_of_shows ho']
  exact (Except.ok.inj hcarried).symm

end Sound

/-- The names in a document that is read from markup are legal. -/
theorem legal_parse {id : DocumentId} {source : String} {spacing : Spacing} {d : Document}
    (h : Document.parse id source spacing = .ok d) : d.forest.Legal := by
  obtain ⟨f, hf, rfl⟩ := parse_eq_ok h
  rw [forest_ofForest]
  exact Forest.legal_parse hf

theorem legal_document {r : Rendered.Root} {id : DocumentId} {d : Document} (h : r.document id = .ok d) :
    d.forest.Legal := by
  obtain ⟨markup, parsed, hparse, hstore⟩ := document_eq_ok h
  rw [forest_congr hstore]
  exact legal_parse hparse

/-- Every name in a document that calls lead to is legal. -/
theorem Reachable.legal {d : Document} (h : d.Reachable) : d.forest.Legal := by
  induction h with
  | empty id =>
    rw [forest_of_shows (Store.Shows.new id)]
    exact Forest.legal_nil
  | parse read => exact legal_parse read
  | ofRendered read =>
    obtain ⟨r, hdocument⟩ := ofRendered_eq_ok read
    exact legal_document hdocument
  | merge before other ih hincoming =>
    refine (Update.merge_allOrNothing _).after_induction (P := fun d => d.forest.Legal) ih ?_
    intro d' changes hmerge
    rw [before.sound.forest_of_merge other.sound hmerge]
    exact hincoming
  | applyText before text ih =>
    refine (Update.applyText_allOrNothing text).after_induction (P := fun d => d.forest.Legal) ih ?_
    intro d' changes happly
    obtain ⟨edits, hdecode, hcommit⟩ := applyText_eq_ok happly
    exact Forest.legal_carryOutAll ih (Edit.legal_of_decode hdecode) (before.sound.carryOutAll_of_commit hcommit)
  | applyEdits before edits ih =>
    refine (Update.applyEdits_allOrNothing edits).after_induction (P := fun d => d.forest.Legal) ih ?_
    intro d' changes happly
    obtain ⟨hnames, hcommit⟩ := applyEdits_eq_ok happly
    exact Forest.legal_carryOutAll ih (Edit.checkNames_eq_ok_iff.mp hnames) (before.sound.carryOutAll_of_commit hcommit)
  | mergeRendered before text ih =>
    refine (Update.mergeRendered_allOrNothing text).after_induction (P := fun d => d.forest.Legal) ih ?_
    intro d' changes hmerged
    obtain ⟨next, incoming, merged, hdocument, hmerge, hstore⟩ := mergeRendered_eq_ok hmerged
    rw [forest_congr hstore, before.sound.forest_of_merge (Sound.ofDescription hdocument) hmerge]
    exact legal_document hdocument

end Document

end LiveMarkup
