import Mathlib
import LiveMarkup.Proofs.Renewing

/-!
# Which handles a merge keeps

A merge keeps the node at every path where the two documents meet, and of the attributes of two elements that match as many as
both have (`Document.merge_keeps_handles`). All other handles that the document had are stale after the merge, and all others
that it has then named nothing before.
-/

namespace LiveMarkup

/-- Two lists that begin alike, as far as both go, agree in as many members as both have. -/
theorem take_min_of_kept {α : Type} {old new : List α} (h : new.take old.length = old.take new.length) :
    new.take (min old.length new.length) = old.take (min old.length new.length) := by
  have hnew : new.take (min old.length new.length) = new.take old.length := List.take_eq_take_iff.mpr (by omega)
  have hold : old.take (min old.length new.length) = old.take new.length := List.take_eq_take_iff.mpr (by omega)
  rw [hnew, hold, h]

namespace Outline

variable {o : Outline} {top : NodeRef} {p : Path} {t : OutlineTree}

/-- The node at the top of a tree stands in the store with its attributes. -/
theorem exists_mem_entries_of_treeAt? (h : o.treeAt? p = some t) :
    ∃ q, (t.node, ⟨t.payload, some q, t.below.tops⟩) ∈ o.entries top := by
  induction p generalizing o top with
  | nil => cases h
  | cons i p ih =>
    cases p with
    | nil => exact ⟨top, mem_entries_of_mem (List.mem_of_getElem? h) top⟩
    | cons j p =>
      rw [treeAt?, Option.bind_eq_some_iff] at h
      obtain ⟨u, hu, hbelow⟩ := h
      obtain ⟨q, hq⟩ := ih hbelow
      exact ⟨q, entries_below_subset (List.mem_of_getElem? hu) top hq⟩

end Outline

namespace Store.Shows

variable {s : Store} {d : DocumentId} {o : Outline} {p : Path} {t : OutlineTree}

/-- A path leads to the node at the top of the tree there. -/
theorem resolve_of_treeAt? (h : s.Shows d o) (ht : o.treeAt? p = some t) : s.resolve p = .ok t.node := by
  have hresolve := h.resolve_eq p
  rw [Outline.find?_of_treeAt? ht] at hresolve
  exact hresolve

/-- The node at the top of the tree at a path is there, with what the tree says. -/
theorem exists_node?_of_treeAt? (h : s.Shows d o) (ht : o.treeAt? p = some t) :
    ∃ q, s.node? t.node = some ⟨t.payload, some q, t.below.tops⟩ := by
  obtain ⟨q, hq⟩ := Outline.exists_mem_entries_of_treeAt? ht
  exact ⟨q, h.node?_eq.mpr (Multiset.mem_cons_of_mem hq)⟩

/-- The node at the top of the tree at a path lists the attributes of the tree. -/
theorem attributesOf_of_treeAt? (h : s.Shows d o) (ht : o.treeAt? p = some t) :
    s.attributesOf t.node = t.attributes.map Prod.fst := by
  obtain ⟨q, hq⟩ := h.exists_node?_of_treeAt? ht
  rw [attributesOf, hq]
  cases t <;> rfl

/-- A node that lists an attribute is below the root, and the attribute is there. -/
theorem mem_of_mem_attributesOf (h : s.Shows d o) {n : NodeRef} {a : AttributeRef} (ha : a ∈ s.attributesOf n) :
    n ∈ o.nodes ∧ (s.attribute? a).isSome := by
  have hbelow : n ∈ o.nodes := by
    rw [attributesOf] at ha
    split at ha
    · rename_i node hnode
      rcases List.mem_cons.mp (h.mem_nodes_iff.mpr (Option.isSome_of_eq_some hnode)) with rfl | hbelow
      · rw [h.root_eq] at hnode
        cases hnode
        cases ha
      · exact hbelow
    · cases ha
  refine ⟨hbelow, h.mem_attributes_iff.mp ?_⟩
  rw [← h.flatMap_attributesOf (fun e he => Multiset.mem_cons_of_mem he)]
  exact List.mem_flatMap.mpr ⟨n, hbelow, ha⟩

/-- An attribute is listed once, and by one node only. -/
theorem listed_attribute (h : s.Shows d o) {m n : NodeRef} {a : AttributeRef} (hm : a ∈ s.attributesOf m)
    (hn : a ∈ s.attributesOf n) : m = n ∧ (s.attributesOf n).Nodup := by
  have hbelow := (h.mem_of_mem_attributesOf hm).1
  have hbelow' := (h.mem_of_mem_attributesOf hn).1
  have hnodup := h.nodup_attributeRefs
  rw [← h.flatMap_attributesOf (fun e he => Multiset.mem_cons_of_mem he), List.nodup_flatMap] at hnodup
  refine ⟨?_, hnodup.1 n hbelow'⟩
  by_contra hne
  have hsymm : Std.Symm (Function.onFun List.Disjoint s.attributesOf) := ⟨fun _ _ hdisjoint => hdisjoint.symm⟩
  exact hnodup.2.forall hbelow hbelow' hne hm hn

end Store.Shows

namespace Document

/-- The handle names an attribute of the document. -/
def HasAttribute (d : Document) (a : AttributeRef) : Prop :=
  ∃ v, d.attributeOf a = .ok v

/-- The node is at a path where the two documents meet. -/
def KeepsNode (d incoming : Document) (n : NodeRef) : Prop :=
  ∃ p, d.forest.Meets incoming.forest p ∧ d.store.resolve p = .ok n

/-- The attribute is one of an element that matches the other document's at a path where the two meet, and the other element
has as many attributes. -/
def KeepsAttribute (d incoming : Document) (a : AttributeRef) : Prop :=
  ∃ p t t' n refs, d.forest.Meets incoming.forest p ∧ d.forest.treeAt? p = some t ∧ incoming.forest.treeAt? p = some t' ∧
    t.Matches t' ∧ d.store.resolve p = .ok n ∧ d.attributeRefs n = .ok refs ∧ a ∈ refs.take t'.attributes.length

/-- What becomes of the handles of a document when another one is merged into it. -/
structure HandlesKept (d incoming d' : Document) : Prop where
  /-- The node at a path where the two meet stays, whether it matches or is replaced. -/
  nodes : ∀ p, d.forest.Meets incoming.forest p → ∃ n, d.store.resolve p = .ok n ∧ d'.store.resolve p = .ok n
  /-- If two elements match there, of the attributes as many as both have stay in order; those left over are stale, and those
  that come are new. -/
  attributes : ∀ p t t', d.forest.Meets incoming.forest p → d.forest.treeAt? p = some t →
    incoming.forest.treeAt? p = some t' → t.Matches t' → ∃ n old now, d.store.resolve p = .ok n ∧
      d.attributeRefs n = .ok old ∧ d'.attributeRefs n = .ok now ∧ old.length = t.attributes.length ∧
      now.length = t'.attributes.length ∧
      now.take (min old.length now.length) = old.take (min old.length now.length) ∧
      (∀ a ∈ old.drop now.length, d'.attributeOf a = .error (.invalidAttribute a)) ∧
      ∀ a ∈ now.drop old.length, d.attributeOf a = .error (.invalidAttribute a)
  /-- The other nodes that there were are stale. -/
  stale_nodes : ∀ n, d.Has n → ¬ d.KeepsNode incoming n → d'.node n = .error (.invalidHandle n)
  /-- The other attributes that there were are stale. -/
  stale_attributes : ∀ a, d.HasAttribute a → ¬ d.KeepsAttribute incoming a →
    d'.attributeOf a = .error (.invalidAttribute a)
  /-- The other nodes that there are now were not there before. -/
  new_nodes : ∀ n, d'.Has n → ¬ d.KeepsNode incoming n → d.node n = .error (.invalidHandle n)
  /-- The other attributes that there are now were not there before. -/
  new_attributes : ∀ a, d'.HasAttribute a → ¬ d.KeepsAttribute incoming a → d.attributeOf a = .error (.invalidAttribute a)

/-- A handle is refused exactly if it names no node. -/
theorem node_eq_error_iff {d : Document} {n : NodeRef} : d.node n = .error (.invalidHandle n) ↔ d.store.node? n = none := by
  rw [node]
  cases d.store.node? n <;> simp

/-- A handle is refused exactly if it names no attribute. -/
theorem attributeOf_eq_error_iff {d : Document} {a : AttributeRef} :
    d.attributeOf a = .error (.invalidAttribute a) ↔ d.store.attribute? a = none := by
  rw [attributeOf]
  cases d.store.attribute? a <;> simp

/-- A handle is accepted exactly if it names an attribute. -/
theorem hasAttribute_iff {d : Document} {a : AttributeRef} : d.HasAttribute a ↔ (d.store.attribute? a).isSome := by
  rw [HasAttribute, attributeOf]
  cases d.store.attribute? a <;> simp

theorem attributeRefs_of_treeAt? {d : Document} {id : DocumentId} {o : Outline} {p : Path} {t : OutlineTree}
    (h : d.store.Shows id o) (ht : o.treeAt? p = some t) : d.attributeRefs t.node = .ok (t.attributes.map Prod.fst) := by
  obtain ⟨q, hq⟩ := h.exists_node?_of_treeAt? ht
  simp only [attributeRefs, get, node, hq, bind, Except.bind, pure, Except.pure]
  cases t <;> rfl

/-- The document after the merge shows the other one's forest, and its trees are those of the document before it renewed. -/
structure Merged (d incoming d' : Document) (o o' : Outline) : Prop where
  before : d.store.Shows d.id o
  after : d'.store.Shows d.id o'
  forest : o'.forest = incoming.forest
  renewed : Outline.Renewed d.store o.toList o'.toList

namespace Merged

variable {d incoming d' : Document} {o o' : Outline} {p : Path} {t t' : OutlineTree} {a : AttributeRef}

/-- What the two documents have at a path where trees come to be compared. -/
theorem of_compared (h : d.Merged incoming d' o o') (hcompared : Outline.Compared o.toList o'.toList p t t') :
    (d.forest.Meets incoming.forest p ∧ d.forest.treeAt? p = some t.tree ∧ incoming.forest.treeAt? p = some t'.tree) ∧
      (d.store.resolve p = .ok t.node ∧ d'.store.resolve p = .ok t.node) ∧
      d.attributeRefs t.node = .ok (t.attributes.map Prod.fst) ∧
      d'.attributeRefs t.node = .ok (t'.attributes.map Prod.fst) := by
  obtain ⟨hold, hnew, hmeets⟩ := hcompared.meets
  rw [Outline.ofList_toList] at hold hnew
  rw [Outline.ofList_toList, Outline.ofList_toList, h.forest, ← forest_of_shows h.before] at hmeets
  have hnode := (h.renewed.of_compared hcompared).1
  have hresolve' := h.after.resolve_of_treeAt? hnew
  have hrefs' := attributeRefs_of_treeAt? h.after hnew
  rw [hnode] at hresolve' hrefs'
  refine ⟨⟨hmeets, ?_, ?_⟩, ⟨h.before.resolve_of_treeAt? hold, hresolve'⟩, attributeRefs_of_treeAt? h.before hold, hrefs'⟩
  · rw [forest_of_shows h.before, Outline.treeAt?_forest, hold, Option.map_some]
  · rw [← h.forest, Outline.treeAt?_forest, hnew, Option.map_some]

/-- Where the two documents meet below the root, trees come to be compared. -/
theorem exists_compared (h : d.Merged incoming d' o o') (hp : p ≠ []) (hmeets : d.forest.Meets incoming.forest p) :
    ∃ t t', Outline.Compared o.toList o'.toList p t t' := by
  refine Outline.exists_compared hp ?_
  rw [Outline.ofList_toList, Outline.ofList_toList, h.forest, ← forest_of_shows h.before]
  exact hmeets

/-- A node that is there before the merge and after it is kept. -/
theorem keepsNode (h : d.Merged incoming d' o o') {n : NodeRef} (hbefore : (d.store.node? n).isSome)
    (hafter : (d'.store.node? n).isSome) : d.KeepsNode incoming n := by
  rcases List.mem_cons.mp (h.after.mem_nodes_iff.mpr hafter) with rfl | hbelow
  · exact ⟨[], Forest.meets_nil _ _, h.before.resolve_eq []⟩
  · rw [← o'.ofList_toList] at hbelow
    obtain ⟨p, t, t', hcompared, rfl⟩ := h.renewed.exists_compared_of_node hbelow hbefore
    obtain ⟨⟨hmeets, _⟩, ⟨hresolve, _⟩, _⟩ := h.of_compared hcompared
    rw [(h.renewed.of_compared hcompared).1]
    exact ⟨p, hmeets, hresolve⟩

/-- An attribute that is there before the merge and after it is one of those that two elements share. -/
theorem exists_compared_of_attribute (h : d.Merged incoming d' o o') (hbefore : (d.store.attribute? a).isSome)
    (hafter : (d'.store.attribute? a).isSome) : ∃ p t t', Outline.Compared o.toList o'.toList p t t' ∧
      t.tree.Matches t'.tree ∧ a ∈ (t.attributes.map Prod.fst).take t'.attributes.length := by
  have hlisted := h.after.mem_attributes_iff.mpr hafter
  rw [← o'.ofList_toList] at hlisted
  obtain ⟨p, t, t', hcompared, hmatches, ha⟩ := h.renewed.exists_compared_of_attribute hlisted hbefore
  rw [((h.renewed.of_compared hcompared).2 hmatches).kept] at ha
  exact ⟨p, t, t', hcompared, hmatches, ha⟩

/-- An attribute that is there before the merge and after it is kept. -/
theorem keepsAttribute (h : d.Merged incoming d' o o') (hbefore : (d.store.attribute? a).isSome)
    (hafter : (d'.store.attribute? a).isSome) : d.KeepsAttribute incoming a := by
  obtain ⟨p, t, t', hcompared, hmatches, ha⟩ := h.exists_compared_of_attribute hbefore hafter
  obtain ⟨⟨hmeets, hold, hnew⟩, ⟨hresolve, _⟩, hrefs, _⟩ := h.of_compared hcompared
  refine ⟨p, t.tree, t'.tree, t.node, _, hmeets, hold, hnew, hmatches, hresolve, hrefs, ?_⟩
  rw [OutlineTree.attributes_tree, List.length_map]
  exact ha

/-- An attribute that an element has beyond those that it keeps is not there after the merge: if it were, some element would
keep it, but that element could be no other. -/
theorem attribute?_eq_none_of_surplus (h : d.Merged incoming d' o o')
    (hcompared : Outline.Compared o.toList o'.toList p t t')
    (ha : a ∈ (t.attributes.map Prod.fst).drop t'.attributes.length) : d'.store.attribute? a = none := by
  have hold := h.before.attributesOf_of_treeAt? (o.ofList_toList ▸ hcompared.meets.1)
  have hlisted : a ∈ d.store.attributesOf t.node := hold ▸ List.mem_of_mem_drop ha
  rw [← Option.not_isSome_iff_eq_none]
  intro hafter
  obtain ⟨q, u, u', hother, _, hkept⟩ :=
    h.exists_compared_of_attribute (h.before.mem_of_mem_attributesOf hlisted).2 hafter
  have hold' := h.before.attributesOf_of_treeAt? (o.ofList_toList ▸ hother.meets.1)
  have hlisted' : a ∈ d.store.attributesOf u.node := hold' ▸ List.mem_of_mem_take hkept
  obtain ⟨hsame, hnodup⟩ := h.before.listed_attribute hlisted hlisted'
  have hnow := (h.of_compared hcompared).2.2.2
  have hnow' := (h.of_compared hother).2.2.2
  rw [hsame, hnow', Except.ok.injEq] at hnow
  have hlength : u'.attributes.length = t'.attributes.length := by
    rw [← List.length_map Prod.fst, hnow, List.length_map]
  rw [← hold, hsame] at ha
  rw [← hold', hlength] at hkept
  exact List.disjoint_take_drop hnodup (Nat.le_refl _) hkept ha

/-- What becomes of the handles in a merge. -/
theorem handlesKept (h : d.Merged incoming d' o o') : d.HandlesKept incoming d' := by
  refine ⟨?_, ?_, ?_, ?_, ?_, ?_⟩
  · intro p hmeets
    by_cases hp : p = []
    · subst hp
      exact ⟨Store.rootOf d.id, h.before.resolve_eq [], h.after.resolve_eq []⟩
    · obtain ⟨t, t', hcompared⟩ := h.exists_compared hp hmeets
      exact ⟨t.node, (h.of_compared hcompared).2.1⟩
  · intro p t t' hmeets ht ht' hmatches
    have hp : p ≠ [] := by
      rintro rfl
      cases ht
    obtain ⟨u, u', hcompared⟩ := h.exists_compared hp hmeets
    obtain ⟨⟨_, hu, hu'⟩, ⟨hresolve, _⟩, hrefs, hrefs'⟩ := h.of_compared hcompared
    rw [ht, Option.some.injEq] at hu
    rw [ht', Option.some.injEq] at hu'
    subst hu hu'
    have hkeeps := (h.renewed.of_compared hcompared).2 hmatches
    refine ⟨u.node, _, _, hresolve, hrefs, hrefs', ?_, ?_, ?_, ?_, ?_⟩
    · rw [OutlineTree.attributes_tree, List.length_map, List.length_map]
    · rw [OutlineTree.attributes_tree, List.length_map, List.length_map]
    · refine take_min_of_kept ?_
      rw [List.length_map, List.length_map]
      exact hkeeps.kept
    · intro a ha
      rw [List.length_map] at ha
      exact attributeOf_eq_error_iff.mpr (h.attribute?_eq_none_of_surplus hcompared ha)
    · intro a ha
      rw [List.length_map] at ha
      exact attributeOf_eq_error_iff.mpr (hkeeps.fresh a ha)
  · intro n hbefore hnot
    rw [node_eq_error_iff, ← Option.not_isSome_iff_eq_none]
    exact fun hafter => hnot (h.keepsNode (has_iff.mp hbefore) hafter)
  · intro a hbefore hnot
    rw [attributeOf_eq_error_iff, ← Option.not_isSome_iff_eq_none]
    exact fun hafter => hnot (h.keepsAttribute (hasAttribute_iff.mp hbefore) hafter)
  · intro n hafter hnot
    rw [node_eq_error_iff, ← Option.not_isSome_iff_eq_none]
    exact fun hbefore => hnot (h.keepsNode hbefore (has_iff.mp hafter))
  · intro a hafter hnot
    rw [attributeOf_eq_error_iff, ← Option.not_isSome_iff_eq_none]
    exact fun hbefore => hnot (h.keepsAttribute hbefore (hasAttribute_iff.mp hafter))

end Merged

/-- A merge never fails, and keeps the handles that it should, and no others. -/
theorem merge_keeps_handles {d incoming : Document} (h : d.Reachable) (h' : incoming.Reachable) :
    ∃ d' changes, d.merge incoming = .ok (d', changes) ∧ d.HandlesKept incoming d' := by
  have hshows := h.shows
  obtain ⟨edits, changes, made, s', hexchange, hs', hforest, hmerge⟩ := exists_exchange h h'
  have hlive : (Outline.ofList d.outline.toList).LiveIn d.store := by
    rw [Outline.ofList_toList]
    exact ⟨fun n hn => hshows.mem_nodes_iff.mp (List.mem_cons_of_mem _ hn), fun a ha => hshows.mem_attributes_iff.mp ha⟩
  have hmerged : d.Merged incoming { d with store := s' } d.outline (.ofList made) := by
    refine ⟨hshows, hs', hforest, ?_⟩
    rw [Outline.toList_ofList]
    exact (hexchange.renewed (.refl d.store) hlive).2
  exact ⟨{ d with store := s' }, changes, hmerge, hmerged.handlesKept⟩

/-- An element with two attributes, and a text. -/
def withTwoAttributes : Document :=
  (Document.empty ⟨1⟩).after (.applyEdits
    [.append [] (.element ⟨"", "a"⟩ [⟨⟨"", "x"⟩, "1"⟩, ⟨⟨"", "y"⟩, "2"⟩] .nil), .append [] (.leaf "b")])

/-- Two elements with one attribute each. -/
def withOneAttributeEach : Document :=
  (Document.empty ⟨2⟩).after (.applyEdits
    [.append [] (.element ⟨"", "a"⟩ [⟨⟨"", "x"⟩, "3"⟩] .nil), .append [] (.element ⟨"", "b"⟩ [⟨⟨"", "y"⟩, "2"⟩] .nil)])

/-- The first element loses an attribute, whose slot is then taken by that of an element that comes in place of the text. -/
theorem kept_while_attribute_slot_is_reused : ∃ d' changes,
    withTwoAttributes.merge withOneAttributeEach = .ok (d', changes) ∧
    withTwoAttributes.store.resolve [1] = .ok ⟨⟨1⟩, ⟨2, 0⟩⟩ ∧ d'.store.resolve [1] = .ok ⟨⟨1⟩, ⟨2, 0⟩⟩ ∧
    withTwoAttributes.attributeRefs ⟨⟨1⟩, ⟨1, 0⟩⟩ = .ok [⟨⟨1⟩, ⟨0, 0⟩⟩, ⟨⟨1⟩, ⟨1, 0⟩⟩] ∧
    d'.attributeRefs ⟨⟨1⟩, ⟨1, 0⟩⟩ = .ok [⟨⟨1⟩, ⟨0, 0⟩⟩] ∧
    d'.attributeOf ⟨⟨1⟩, ⟨1, 0⟩⟩ = .error (.invalidAttribute ⟨⟨1⟩, ⟨1, 0⟩⟩) := by
  have hbefore : withTwoAttributes.Reachable := .applyEdits (.empty ⟨1⟩) _
  have hother : withOneAttributeEach.Reachable := .applyEdits (.empty ⟨2⟩) _
  obtain ⟨d', changes, hmerge, hkept⟩ := merge_keeps_handles hbefore hother
  have hforest : withTwoAttributes.forest =
      .element ⟨"", "a"⟩ [⟨⟨"", "x"⟩, "1"⟩, ⟨⟨"", "y"⟩, "2"⟩] .nil (.leaf "b" .nil) := by
    cbv
  have hforest' : withOneAttributeEach.forest =
      .element ⟨"", "a"⟩ [⟨⟨"", "x"⟩, "3"⟩] .nil (.element ⟨"", "b"⟩ [⟨⟨"", "y"⟩, "2"⟩] .nil .nil) := by
    cbv
  have hfirst : withTwoAttributes.store.resolve [0] = .ok ⟨⟨1⟩, ⟨1, 0⟩⟩ := by cbv
  have hsecond : withTwoAttributes.store.resolve [1] = .ok ⟨⟨1⟩, ⟨2, 0⟩⟩ := by cbv
  have hrefs : withTwoAttributes.attributeRefs ⟨⟨1⟩, ⟨1, 0⟩⟩ = .ok [⟨⟨1⟩, ⟨0, 0⟩⟩, ⟨⟨1⟩, ⟨1, 0⟩⟩] := by cbv
  have hmeets : withTwoAttributes.forest.Meets withOneAttributeEach.forest [1] := by
    rw [hforest, hforest']
    exact Forest.meets_cons rfl rfl (Or.inl rfl)
  have hmeets' : withTwoAttributes.forest.Meets withOneAttributeEach.forest [0] := by
    rw [hforest, hforest']
    exact Forest.meets_cons rfl rfl (Or.inl rfl)
  obtain ⟨n, hn, hn'⟩ := hkept.nodes [1] hmeets
  cases hsecond.symm.trans hn
  have ht : withTwoAttributes.forest.treeAt? [0] =
      some (.element ⟨"", "a"⟩ [⟨⟨"", "x"⟩, "1"⟩, ⟨⟨"", "y"⟩, "2"⟩] .nil) := by
    rw [hforest]
    rfl
  have ht' : withOneAttributeEach.forest.treeAt? [0] = some (.element ⟨"", "a"⟩ [⟨⟨"", "x"⟩, "3"⟩] .nil) := by
    rw [hforest']
    rfl
  obtain ⟨m, old, now, hm, hold, hnow, _, hlength, htake, hstale, _⟩ := hkept.attributes [0] _ _ hmeets' ht ht' rfl
  cases hfirst.symm.trans hm
  cases hrefs.symm.trans hold
  have hone : now.length = 1 := hlength
  rw [hone] at htake hstale
  obtain ⟨a, rfl⟩ := List.length_eq_one_iff.mp hone
  cases htake
  exact ⟨d', changes, hmerge, hsecond, hn', hrefs, hnow, hstale _ List.mem_cons_self⟩

end Document

end LiveMarkup
