import LiveMarkup.Proofs.Lasting
import LiveMarkup.Proofs.Meeting

/-!
# What an exchange of trees makes of the handles

A merge takes out nothing but what was there before it began, and it takes out nothing twice, so the generation of a slot goes
up by one at most (`Store.Once`). For this it suffices that each edit takes out only what it exchanges, and that this was
there when the merge began. Then what comes with the edit has handles that no node and no attribute had at that time
(`Once.exchange`).
-/

namespace LiveMarkup

/-! ## Slots that are vacated once at most -/

namespace Slots

variable {α : Type} {s₀ s s' : Slots α} {k : SlotKey}

/-- No slot has been vacated but such as held a value to begin with, and none of these more than once. -/
def Once (s₀ s : Slots α) : Prop :=
  ∀ i, s.generation i = s₀.generation i ∧ (s₀.holdsAt i = true → s.holdsAt i = true) ∨
    s.generation i = s₀.generation i + 1 ∧ s₀.holdsAt i = true

namespace Once

theorem refl (s : Slots α) : Once s s :=
  fun _ => Or.inl ⟨rfl, id⟩

/-- It stays so while values are taken out only if they were there to begin with. -/
theorem turns (h : Once s₀ s) (hturns : Turns s s')
    (hgone : ∀ k, (s.get? k).isSome → s'.get? k = none → (s₀.get? k).isSome) : Once s₀ s' := by
  intro i
  rcases hturns.generation i with ⟨hsame, hholds⟩ | ⟨hnext, hheld⟩
  · rw [hsame]
    rcases h i with ⟨hbefore, hheld⟩ | hbefore
    · exact Or.inl ⟨hbefore, hholds ∘ hheld⟩
    · exact Or.inr hbefore
  · -- the value that goes was there to begin with, so the slot has not been vacated before
    have hlive : (s.get? ⟨i, s.generation i⟩).isSome := isSome_get?_iff.mpr ⟨hheld, rfl⟩
    have hdead : s'.get? ⟨i, s.generation i⟩ = none := by
      rw [← Option.not_isSome_iff_eq_none, isSome_get?_iff]
      rintro ⟨_, hgeneration⟩
      rw [hnext] at hgeneration
      simp at hgeneration
    obtain ⟨hheld₀, hgeneration⟩ := isSome_get?_iff.mp (hgone _ hlive hdead)
    change s₀.generation i = s.generation i at hgeneration
    rw [hnext, hgeneration]
    exact Or.inr ⟨rfl, hheld₀⟩

/-- The key of a value that is stored stood for none to begin with. -/
theorem fresh (h : Once s₀ s) (hturns : Turns s s') (hdead : s.get? k = none) (hlive : (s'.get? k).isSome) :
    s₀.get? k = none := by
  rw [← Option.not_isSome_iff_eq_none, isSome_get?_iff] at hdead ⊢
  rintro ⟨hheld, hgeneration⟩
  have hnow := (isSome_get?_iff.mp hlive).2
  rcases h k.index with ⟨hsame, hholds⟩ | ⟨hnext, _⟩
  · exact hdead ⟨hholds hheld, hsame.trans hgeneration⟩
  · -- the slot has been vacated in between, so it is past the generation of the key
    rw [hgeneration] at hnext
    rcases hturns.generation k.index with ⟨hsame', _⟩ | ⟨hnext', _⟩
    · rw [hsame', hnext] at hnow
      simp at hnow
    · rw [hnext', hnext, UInt32.add_assoc] at hnow
      simp at hnow

end Once

end Slots

namespace Store

variable {s₀ s s' : Store}

/-- No slot of the nodes and none of the attributes has been vacated but such as were taken to begin with, and none of these
more than once. -/
structure Once (s₀ s : Store) : Prop where
  document : s.document = s₀.document
  nodes : s₀.nodes.Once s.nodes
  attributes : s₀.attributes.Once s.attributes

namespace Once

theorem refl (s : Store) : Once s s :=
  ⟨rfl, .refl _, .refl _⟩

/-- It stays so while nodes and attributes are taken out only if they were there to begin with. -/
theorem turns (h : Once s₀ s) (hturns : Turns s s')
    (hnodes : ∀ n, (s.node? n).isSome → s'.node? n = none → (s₀.node? n).isSome)
    (hattributes : ∀ a, (s.attribute? a).isSome → s'.attribute? a = none → (s₀.attribute? a).isSome) : Once s₀ s' := by
  refine ⟨hturns.document.trans h.document, h.nodes.turns hturns.nodes ?_, h.attributes.turns hturns.attributes ?_⟩
  · intro k hlive hdead
    have hnode := hnodes ⟨s₀.document, k⟩
    rw [node?, node?, node?, hturns.document, h.document, if_pos rfl, if_pos rfl, if_pos rfl] at hnode
    exact hnode hlive hdead
  · intro k hlive hdead
    have hattribute := hattributes ⟨s₀.document, k⟩
    rw [attribute?, attribute?, attribute?, hturns.document, h.document, if_pos rfl, if_pos rfl, if_pos rfl] at hattribute
    exact hattribute hlive hdead

/-- The handle of a node that is added named none to begin with. -/
theorem fresh_node (h : Once s₀ s) (hturns : Turns s s') {n : NodeRef} (hdead : s.node? n = none)
    (hlive : (s'.node? n).isSome) : s₀.node? n = none := by
  rw [node?, hturns.document] at hlive
  rw [node?] at hdead ⊢
  rw [h.document] at hdead hlive
  split
  · rename_i hdocument
    rw [if_pos hdocument] at hdead hlive
    exact h.nodes.fresh hturns.nodes hdead hlive
  · rfl

/-- The handle of an attribute that is added named none to begin with. -/
theorem fresh_attribute (h : Once s₀ s) (hturns : Turns s s') {a : AttributeRef} (hdead : s.attribute? a = none)
    (hlive : (s'.attribute? a).isSome) : s₀.attribute? a = none := by
  rw [attribute?, hturns.document] at hlive
  rw [attribute?] at hdead ⊢
  rw [h.document] at hdead hlive
  split
  · rename_i hdocument
    rw [if_pos hdocument] at hdead hlive
    exact h.attributes.fresh hturns.attributes hdead hlive
  · rfl

end Once

end Store

/-! ## Trees that are exchanged -/

namespace Outline

/-- All handles of the outline name something in the store. -/
def LiveIn (o : Outline) (s : Store) : Prop :=
  (∀ n ∈ o.nodes, (s.node? n).isSome) ∧ ∀ a ∈ o.attributes, (s.attribute? a).isSome

/-- No handle of the outline names anything in the store. -/
def NewTo (o : Outline) (s : Store) : Prop :=
  (∀ n ∈ o.nodes, s.node? n = none) ∧ ∀ a ∈ o.attributes, s.attribute? a = none

/-- The attributes of an outline are those of its first tree, of what is below it, and of the others. -/
theorem attributes_cons (t : OutlineTree) (o : Outline) :
    (cons t o).attributes = t.attributes.map Prod.fst ++ (t.below.attributes ++ o.attributes) := by
  cases t <;> rfl

/-- The attributes of two lists of trees are those of the one and of the other. -/
theorem attributes_ofList_append (l m : List OutlineTree) :
    (ofList (l ++ m)).attributes = (ofList l).attributes ++ (ofList m).attributes := by
  induction l with
  | nil => rfl
  | cons t l ih => cases t <;> simp [cons, attributes, ih]

variable {o : Outline} {top c : NodeRef} {p : Path} {before old after : List OutlineTree}

/-- The handles of trees at a place are one part of all handles. The others stay when other trees are put there. -/
theorem handles_focus (place : o.place? top p = some (c, ofList (before ++ (old ++ after)))) :
    ∃ (N : Multiset NodeRef) (A : Multiset AttributeRef), ∀ new : List OutlineTree,
      ((top :: (o.setBelow p (ofList (before ++ (new ++ after)))).nodes : List NodeRef) : Multiset NodeRef) =
        ↑(ofList new).nodes + N ∧
      ((o.setBelow p (ofList (before ++ (new ++ after)))).attributes : Multiset AttributeRef) =
        ↑(ofList new).attributes + A := by
  have hroot : Payload.root.isContainer = true := rfl
  obtain ⟨payload, above, N, A, _, hfocus⟩ := focus place hroot none
  refine ⟨c ::ₘ (↑(ofList before).nodes + ↑(ofList after).nodes + N.map Prod.fst),
    ↑(ofList before).attributes + ↑(ofList after).attributes + A.map Prod.fst, ?_⟩
  intro new
  obtain ⟨hentries, hattributes⟩ := hfocus (ofList (before ++ (new ++ after)))
  have hnodes := congrArg (Multiset.map Prod.fst) hentries
  have hrefs := congrArg (Multiset.map Prod.fst) hattributes
  rw [Multiset.map_cons, Multiset.map_cons, Multiset.map_add, map_fst_entries, map_fst_entries, Multiset.cons_coe] at hnodes
  rw [Multiset.map_add, map_fst_attributeEntries, map_fst_attributeEntries] at hrefs
  constructor
  · rw [hnodes, nodes_ofList_append, nodes_ofList_append, ← Multiset.coe_add, ← Multiset.coe_add, Multiset.add_cons]
    congr 1
    abel
  · rw [hrefs, attributes_ofList_append, attributes_ofList_append, ← Multiset.coe_add, ← Multiset.coe_add]
    abel

end Outline

/-- When one part of a multiset is exchanged for another, only members of the one part go, and what comes was not there
before, unless it is of both parts. -/
theorem exchange_parts {α : Type} {all all' old new rest : Multiset α} (hall : all = old + rest)
    (hall' : all' = new + rest) (hnodup : all'.Nodup) :
    (∀ x ∈ all, x ∉ all' → x ∈ old) ∧ ∀ x ∈ new, x ∈ all → x ∈ old := by
  subst hall hall'
  constructor
  · intro x hx hx'
    rcases Multiset.mem_add.mp hx with hold | hrest
    · exact hold
    · exact absurd (Multiset.mem_add.mpr (Or.inr hrest)) hx'
  · intro x hx hall
    rcases Multiset.mem_add.mp hall with hold | hrest
    · exact hold
    · exact absurd hrest (Multiset.disjoint_left.mp (Multiset.nodup_add.mp hnodup).2.2 hx)

namespace Store

variable {s₀ s s' : Store} {d : DocumentId} {o : Outline} {p : Path} {c : NodeRef} {before old new after : List OutlineTree}

/-- No handle comes twice in the trees at a place. -/
theorem Shows.nodup_at_place (h : s.Shows d o)
    (place : o.place? (rootOf d) p = some (c, .ofList (before ++ (old ++ after)))) :
    (Outline.ofList old).nodes.Nodup ∧ (Outline.ofList old).attributes.Nodup := by
  obtain ⟨N, A, hfocus⟩ := Outline.handles_focus place
  obtain ⟨hnodes, hattributes⟩ := hfocus old
  rw [Outline.setBelow_self place] at hnodes hattributes
  have hwalk := Multiset.coe_nodup.mpr h.nodup_walk
  have hrefs := Multiset.coe_nodup.mpr h.nodup_attributeRefs
  rw [hnodes] at hwalk
  rw [hattributes] at hrefs
  exact ⟨Multiset.coe_nodup.mp (Multiset.nodup_add.mp hwalk).1, Multiset.coe_nodup.mp (Multiset.nodup_add.mp hrefs).1⟩

/-- Trees that were there to begin with are exchanged for others. What comes with these has handles that named nothing to
begin with, but for those that the old trees had already. -/
theorem Once.exchange (h₀ : s₀.Once s) (h : s.Shows d o)
    (place : o.place? (rootOf d) p = some (c, .ofList (before ++ (old ++ after)))) (hold : (Outline.ofList old).LiveIn s₀)
    (hturns : s.Turns s') (h' : s'.Shows d (o.setBelow p (.ofList (before ++ (new ++ after))))) :
    s₀.Once s' ∧ (∀ n ∈ (Outline.ofList new).nodes, n ∉ (Outline.ofList old).nodes → s₀.node? n = none) ∧
      ∀ a ∈ (Outline.ofList new).attributes, a ∉ (Outline.ofList old).attributes → s₀.attribute? a = none := by
  obtain ⟨N, A, hfocus⟩ := Outline.handles_focus place
  obtain ⟨hnodes, hattributes⟩ := hfocus old
  obtain ⟨hnodes', hattributes'⟩ := hfocus new
  rw [Outline.setBelow_self place] at hnodes hattributes
  obtain ⟨hgone, hcome⟩ := exchange_parts hnodes hnodes' (Multiset.coe_nodup.mpr h'.nodup_walk)
  obtain ⟨hgone', hcome'⟩ := exchange_parts hattributes hattributes' (Multiset.coe_nodup.mpr h'.nodup_attributeRefs)
  simp only [Multiset.mem_coe, h.mem_nodes_iff, h'.mem_nodes_iff, Option.not_isSome_iff_eq_none] at hgone hcome
  simp only [Multiset.mem_coe, h.mem_attributes_iff, h'.mem_attributes_iff, Option.not_isSome_iff_eq_none] at hgone' hcome'
  refine ⟨h₀.turns hturns ?_ ?_, ?_, ?_⟩
  · intro n hlive hdead
    exact hold.1 n (hgone n hlive hdead)
  · intro a hlive hdead
    exact hold.2 a (hgone' a hlive hdead)
  · intro n hn hnew
    have hdead : s.node? n = none := by
      rw [← Option.not_isSome_iff_eq_none]
      exact fun hlive => hnew (hcome n hn hlive)
    refine h₀.fresh_node hturns hdead (h'.mem_nodes_iff.mp ?_)
    rw [← Multiset.mem_coe, hnodes']
    exact Multiset.mem_add.mpr (Or.inl hn)
  · intro a ha hnew
    have hdead : s.attribute? a = none := by
      rw [← Option.not_isSome_iff_eq_none]
      exact fun hlive => hnew (hcome' a ha hlive)
    refine h₀.fresh_attribute hturns hdead (h'.mem_attributes_iff.mp ?_)
    rw [← Multiset.mem_coe, hattributes']
    exact Multiset.mem_add.mpr (Or.inl ha)

end Store

end LiveMarkup
