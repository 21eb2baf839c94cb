import LiveMarkup.Proofs.Refinement
import LiveMarkup.Proofs.Walk

/-!
# Merging converges

Merging one document into another never fails, and leaves the other's tree (`merge_converges`). There is nothing to do, and
nothing is reported, exactly if the two trees are equal already.
-/

namespace LiveMarkup

/-- The edits of a difference lead from the one forest to the other. -/
theorem Forest.leads_diff (old new : Forest) : old.Leads (old.diff new).edits new := by
  have hp : old.below? [] = some (ofList ([] ++ old.toList)) := by
    rw [List.nil_append, ofList_toList]
    rfl
  have hleads := Leads.differences hp new
  rw [setBelow, List.nil_append, ofList_toList] at hleads
  rw [edits_diff]
  exact hleads

/-- Each edit is reported by one change. -/
theorem Store.ReportedAll.length_eq {s s' : Store} {edits : List Edit} {changes : List Change}
    (h : s.ReportedAll edits changes s') : changes.length = edits.length := by
  induction h with
  | nil s => rfl
  | cons done first rest ih => rw [List.length_cons, List.length_cons, ih]

namespace Document

/-- The difference of two sound documents is the difference of their forests. -/
theorem Sound.compare_eq {d incoming : Document} (h : d.Sound) (h' : incoming.Sound) :
    d.compare incoming = .ok (d.forest.diff incoming.forest) :=
  compare_of_shows h.shows h'.shows

/-- The edits of the difference can be carried out, and lead to the other's forest. -/
theorem Sound.applyAll_diff {d : Document} (h : d.Sound) (incoming : Document) :
    ∃ (s' : Store) (o' : Outline) (changes : List Change),
      d.store.applyAll 0 (d.forest.diff incoming.forest).edits = .ok (s', changes) ∧ s'.Shows d.id o' ∧
      o'.forest = incoming.forest := by
  have hleads : d.outline.forest.carryOutAll 0 (d.forest.diff incoming.forest).edits = .ok incoming.forest :=
    (Forest.leads_diff d.forest incoming.forest).carryOutAll_eq 0
  have hall := h.shows.applyAll_spec 0 (d.forest.diff incoming.forest).edits
  rw [hleads] at hall
  obtain ⟨s', o', changes, happly, hs', hforest, _⟩ := hall
  exact ⟨s', o', changes, happly, hs', hforest⟩

/-- The difference of two documents that calls can lead to is the difference of their forests. -/
theorem compare_eq {d incoming : Document} (h : d.Reachable) (h' : incoming.Reachable) :
    d.compare incoming = .ok (d.forest.diff incoming.forest) :=
  h.sound.compare_eq h'.sound

theorem applyAll_diff {d : Document} (h : d.Reachable) (incoming : Document) :
    ∃ (s' : Store) (o' : Outline) (changes : List Change),
      d.store.applyAll 0 (d.forest.diff incoming.forest).edits = .ok (s', changes) ∧ s'.Shows d.id o' ∧
      o'.forest = incoming.forest :=
  h.sound.applyAll_diff incoming

/-- Merging a document into another one never fails, and leaves the other's tree. The difference of the two is empty exactly
if their trees are equal, and then nothing is reported and nothing is changed. -/
theorem merge_converges {d incoming : Document} (h : d.Reachable) (h' : incoming.Reachable) :
    ∃ d' changes, d.merge incoming = .ok (d', changes) ∧ d'.forest = incoming.forest ∧
      ((d.diff incoming).edits = [] ↔ d.forest = incoming.forest) ∧
      (changes = [] ↔ d.forest = incoming.forest) ∧ (d.forest = incoming.forest → d' = d) := by
  have hcompare := compare_eq h h'
  have hempty : (d.forest.diff incoming.forest).edits = [] ↔ d.forest = incoming.forest := by
    rw [Forest.edits_diff]
    exact Forest.differences_eq_nil_iff
  obtain ⟨s', o', changes, happly, hs', hforest⟩ := applyAll_diff h incoming
  have hlength := (h.shows.reportedAll_of_applyAll happly).length_eq
  refine ⟨{ d with store := s' }, changes, ?_, ?_, ?_, ?_, ?_⟩
  · simp only [merge_eq, hcompare, commit, happly]
  · exact (forest_of_shows hs').trans hforest
  · rw [diff, hcompare]
    exact hempty
  · rw [← hempty, ← List.length_eq_zero_iff, hlength, List.length_eq_zero_iff]
  · intro heq
    rw [hempty.mpr heq] at happly
    cases happly
    rfl

/-- A list becomes one with other entries. -/
theorem merge_lists : ∃ d' changes, (withOtherEntry ⟨1⟩).merge (withEntry ⟨2⟩) = .ok (d', changes) ∧
    d'.forest = .element ⟨"", "ul"⟩ [⟨⟨"", "id"⟩, "x"⟩]
      (.element ⟨"", "li"⟩ [⟨⟨"", "class"⟩, "y"⟩] (.leaf "a" .nil) (.leaf "b" .nil)) .nil ∧ changes ≠ [] := by
  obtain ⟨d', changes, hmerge, hforest, _, hchanges, _⟩ :=
    merge_converges (reachable_withOtherEntry ⟨1⟩) (reachable_withEntry ⟨2⟩)
  have hincoming : (withEntry ⟨2⟩).forest = .element ⟨"", "ul"⟩ [⟨⟨"", "id"⟩, "x"⟩]
      (.element ⟨"", "li"⟩ [⟨⟨"", "class"⟩, "y"⟩] (.leaf "a" .nil) (.leaf "b" .nil)) .nil := by
    cbv
  have hother : (withOtherEntry ⟨1⟩).forest = .element ⟨"", "ul"⟩ [⟨⟨"", "id"⟩, "x"⟩]
      (.leaf "b" (.element ⟨"", "li"⟩ [⟨⟨"", "class"⟩, "z"⟩] (.leaf "c" .nil) .nil)) .nil := by
    cbv
  rw [hincoming] at hforest hchanges
  rw [hother] at hchanges
  refine ⟨d', changes, hmerge, hforest, ?_⟩
  intro hnil
  cases hchanges.mp hnil

end Document

end LiveMarkup
