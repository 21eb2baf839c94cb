import LiveMarkup.Proofs.LegalNames
import LiveMarkup.Proofs.Matching
import LiveMarkup.Proofs.Untouched

/-!
# Asking for attributes

A written name asks for the attributes with one name (`Attribute.isNamed_iff`): what stands before its first colon is the
namespace, and that may be nothing. So a legal name with a namespace is asked for by the way it is written only, but one without
a namespace also by a colon and the name (`QName.asked_eq_iff`).

An element may have several attributes with one name. A lookup gives the first of them and a selector is content with any, so the
two agree exactly where those that are asked for have one value (`Attribute.find?_agrees_iff`).
-/

namespace LiveMarkup

/-! ## Names that are asked for -/

namespace QName

/-- The name that a written name asks for. -/
def asked (written : String) : QName :=
  match splitColon? written.toList with
  | some (space, base) => ⟨.ofList space, .ofList base⟩
  | none => .plain written

variable {q : QName} {written : String}

/-- No part of a legal name has a colon in it. -/
theorem colon_notMem_of_isLegal (h : q.isLegal = true) : ':' ∉ q.space.toList ∧ ':' ∉ q.base.toList := by
  simp only [isLegal, Bool.and_eq_true, Bool.or_eq_true] at h
  obtain ⟨⟨-, hbase⟩, hspace⟩ := h
  refine ⟨?_, (isPart_iff.mp hbase).2.1⟩
  rcases hspace with hempty | hpart
  · rw [String.isEmpty_iff.mp hempty]
    exact List.not_mem_nil
  · exact (isPart_iff.mp hpart).2.1

/-- A name in a namespace is written with a colon. -/
theorem toList_qualified_of_ne (h : q.space ≠ "") : q.qualified.toList = q.space.toList ++ ':' :: q.base.toList := by
  rw [qualified, if_neg (mt String.isEmpty_iff.mp h), String.toList_append, String.toList_append]
  simp

/-- A text with a colon asks for the namespace before the first colon and the name after it. -/
theorem asked_of_split {space base : String} (hspace : ':' ∉ space.toList)
    (h : written.toList = space.toList ++ ':' :: base.toList) : asked written = ⟨space, base⟩ := by
  rw [asked, h, splitColon?_append hspace]
  simp only [String.ofList_toList]

/-- A legal name is asked for by the way it is written, and without a namespace also by a colon before it. -/
theorem asked_eq_iff (h : q.isLegal = true) :
    q = asked written ↔ written = q.qualified ∨ q.space = "" ∧ written = ":" ++ q.base := by
  obtain ⟨hspace, hbase⟩ := colon_notMem_of_isLegal h
  constructor
  · intro hasked
    rw [asked] at hasked
    split at hasked
    · rename_i space base hsplit
      have hwritten := (splitColon?_eq_some hsplit).1
      subst hasked
      by_cases hempty : String.ofList space = ""
      · have hnil : space = [] := by rw [← String.toList_ofList (l := space), hempty, String.toList_empty]
        refine Or.inr ⟨hempty, String.toList_injective ?_⟩
        simp [hwritten, hnil]
      · refine Or.inl (String.toList_injective ?_)
        rw [toList_qualified_of_ne hempty, String.toList_ofList, String.toList_ofList, hwritten]
    · subst hasked
      exact Or.inl rfl
  · rintro (rfl | ⟨hempty, rfl⟩)
    · by_cases hempty : q.space = ""
      · obtain ⟨space, base⟩ := q
        subst hempty
        rw [qualified, if_pos (String.isEmpty_iff.mpr rfl), asked, splitColon?_of_notMem hbase]
        rfl
      · exact (asked_of_split hspace (toList_qualified_of_ne hempty)).symm
    · refine (asked_of_split hspace ?_).symm
      rw [hempty, String.toList_append]
      rfl

end QName

/-- A written name asks for the attributes with one name. -/
theorem Attribute.isNamed_iff {a : Attribute} {written : String} : a.isNamed written = true ↔ a.name = .asked written := by
  obtain ⟨⟨space, base⟩, value⟩ := a
  rw [isNamed, QName.asked]
  cases QName.splitColon? written.toList with
  | none => simp [QName.plain]
  | some parts => simp [← String.toList_inj]

/-! ## The first attribute and any attribute -/

namespace Attribute

/-- All attributes that a written name asks for have one value. -/
def OneValue (written : String) (attributes : List Attribute) : Prop :=
  ∀ a ∈ attributes, ∀ b ∈ attributes, a.isNamed written = true → b.isNamed written = true → a.value = b.value

variable {attributes : List Attribute} {written : String} {a : Attribute}

/-- What is found is one of the attributes, and is asked for. -/
theorem mem_of_find? (h : attributes.find? (·.isNamed written) = some a) : a ∈ attributes ∧ a.isNamed written = true := by
  have hnamed := List.find?_some h
  exact ⟨List.mem_of_find?_eq_some h, hnamed⟩

/-- Where an attribute is asked for one is found. -/
theorem exists_find? (ha : a ∈ attributes) (hnamed : a.isNamed written = true) :
    ∃ first, attributes.find? (·.isNamed written) = some first :=
  Option.isSome_iff_exists.mp (by simpa using ⟨a, ha, hnamed⟩)

/-- The first attribute that is asked for has each value that any of them has exactly if they all have one value. -/
theorem find?_agrees_iff :
    (∀ value, (∃ a ∈ attributes, a.isNamed written = true ∧ a.value = value) ↔
      ∃ a, attributes.find? (·.isNamed written) = some a ∧ a.value = value) ↔ OneValue written attributes := by
  constructor
  · intro h a ha b hb hnamed hnamed'
    obtain ⟨first, hfirst, hvalue⟩ := (h a.value).mp ⟨a, ha, hnamed, rfl⟩
    obtain ⟨first', hfirst', hvalue'⟩ := (h b.value).mp ⟨b, hb, hnamed', rfl⟩
    obtain rfl : first = first' := Option.some.inj (hfirst.symm.trans hfirst')
    exact hvalue.symm.trans hvalue'
  · intro hone value
    constructor
    · rintro ⟨a, ha, hnamed, rfl⟩
      obtain ⟨first, hfirst⟩ := exists_find? ha hnamed
      obtain ⟨hmem, hnamed'⟩ := mem_of_find? hfirst
      exact ⟨first, hfirst, hone first hmem a ha hnamed' hnamed⟩
    · rintro ⟨a, hfirst, rfl⟩
      obtain ⟨hmem, hnamed⟩ := mem_of_find? hfirst
      exact ⟨a, hmem, hnamed, rfl⟩

end Attribute

/-- The names of the attributes in an outline are legal if the names of its forest are. -/
theorem Outline.legal_of_mem_attributeEntries {o : Outline} {r : AttributeRef} {a : Attribute} (h : o.forest.Legal)
    (ha : (r, a) ∈ o.attributeEntries) : a.name.isLegal = true := by
  induction o with
  | nil => cases Multiset.notMem_zero _ ha
  | leaf n text next ih => exact ih (Forest.legal_leaf.mp h) ha
  | element n name pairs children next ihc ihn =>
    obtain ⟨-, hattributes, hchildren, hnext⟩ := Forest.legal_element.mp h
    rcases Multiset.mem_add.mp ha with hown | hrest
    · exact hattributes a (List.mem_map_of_mem (Multiset.mem_coe.mp hown))
    · rcases Multiset.mem_add.mp hrest with hbelow | hafter
      · exact ihc hchildren hbelow
      · exact ihn hnext hafter

namespace Document

variable {d : Document} {n : NodeRef} {r : AttributeRef} {a : Attribute} {attributes : List Attribute} {written : String}

/-- The names of attributes are legal in every document that calls lead to. -/
theorem Reachable.legal_attribute (h : d.Reachable) (ha : d.attributeOf r = .ok a) : a.name.isLegal = true :=
  Outline.legal_of_mem_attributeEntries h.legal (h.shows.attribute?_eq.mp (attributeOf_eq_ok_iff.mp ha))

/-- The attributes of a document are asked for by their names as they are written, as elements are. Those without a namespace
are also asked for by a colon and the name, and by nothing else. No written name asks for attributes with two names. -/
theorem attributes_asked_for (h : d.Reachable) (ha : d.attributeOf r = .ok a) :
    (∀ written, a.isNamed written = true ↔
      written = a.name.qualified ∨ a.name.space = "" ∧ written = ":" ++ a.name.base) ∧
    (∀ written other b, d.attributeOf other = .ok b → a.isNamed written = true → b.isNamed written = true → a.name = b.name) ∧
    (∀ written written', a.isNamed written = true → a.isNamed written' = true →
      written = written' ∨ a.name.space = "" ∧ (written = ":" ++ written' ∨ written' = ":" ++ written)) ∧
    ∀ n written, (Selector.tag written).matchesNode d n = true ↔
      ∃ name refs, d.get n = .ok (.element name refs) ∧ written = name.qualified := by
  have hnamed : ∀ written, a.isNamed written = true ↔
      written = a.name.qualified ∨ a.name.space = "" ∧ written = ":" ++ a.name.base := fun written =>
    Attribute.isNamed_iff.trans (QName.asked_eq_iff (h.legal_attribute ha))
  have hplain : a.name.space = "" → a.name.qualified = a.name.base := fun hspace => if_pos (String.isEmpty_iff.mpr hspace)
  refine ⟨hnamed, ?_, ?_, ?_⟩
  · intro written other b _ hasked hasked'
    exact (Attribute.isNamed_iff.mp hasked).trans (Attribute.isNamed_iff.mp hasked').symm
  · intro written written' hasked hasked'
    rcases (hnamed written).mp hasked with rfl | ⟨hspace, rfl⟩ <;>
      rcases (hnamed written').mp hasked' with rfl | ⟨hspace', rfl⟩
    · exact Or.inl rfl
    · exact Or.inr ⟨hspace', Or.inr (by rw [hplain hspace'])⟩
    · exact Or.inr ⟨hspace, Or.inl (by rw [hplain hspace])⟩
    · exact Or.inl rfl
  · intro n written
    constructor
    · intro hmatches
      obtain ⟨name, refs, above, children, hnode⟩ := Selector.isElement_of_matches hmatches
      rw [Selector.matchesNode_of_element hnode, beq_iff_eq] at hmatches
      refine ⟨name, refs, ?_, hmatches.symm⟩
      rw [get, node_eq_ok_iff.mpr hnode]
      rfl
    · rintro ⟨name, refs, hget, rfl⟩
      obtain ⟨⟨payload, above, children⟩, hnode, hpayload⟩ := exists_of_bind_eq_ok hget
      cases hpayload
      rw [Selector.matchesNode_of_element (node_eq_ok_iff.mp hnode)]
      exact beq_self_eq_true _

/-- A link with a namespaced attribute and two attributes of one name. -/
def linkWithTwoIds : Document :=
  (Document.empty ⟨1⟩).after (.applyEdits [.append [] (.element ⟨"", "a"⟩
    [⟨⟨"xlink", "href"⟩, "#top"⟩, ⟨⟨"", "id"⟩, "x"⟩, ⟨⟨"", "id"⟩, "y"⟩] .nil)])

theorem linkWithTwoIds_reachable : linkWithTwoIds.Reachable :=
  .applyEdits (.empty ⟨1⟩) _

/-- The target of the link is asked for with its namespace, and not without. -/
theorem target_asked_for_with_namespace :
    linkWithTwoIds.attributeOf ⟨⟨1⟩, ⟨0, 0⟩⟩ = .ok ⟨⟨"xlink", "href"⟩, "#top"⟩ ∧
    Attribute.isNamed ⟨⟨"xlink", "href"⟩, "#top"⟩ "xlink:href" = true ∧
    Attribute.isNamed ⟨⟨"xlink", "href"⟩, "#top"⟩ "href" = false := by
  have ha : linkWithTwoIds.attributeOf ⟨⟨1⟩, ⟨0, 0⟩⟩ = .ok ⟨⟨"xlink", "href"⟩, "#top"⟩ := by cbv
  have hnamed := (attributes_asked_for linkWithTwoIds_reachable ha).1
  refine ⟨ha, (hnamed _).mpr (Or.inl (by decide)), ?_⟩
  rw [← Bool.not_eq_true, hnamed]
  decide

/-- An attribute without a namespace is also asked for by a colon and its name, which is not how it is written. -/
theorem colon_before_name_asks_for_attribute :
    ∃ d r a, Reachable d ∧ d.attributeOf r = .ok a ∧ a.isNamed ":id" = true ∧ a.name.qualified = "id" :=
  ⟨linkWithTwoIds, ⟨⟨1⟩, ⟨1, 0⟩⟩, ⟨⟨"", "id"⟩, "x"⟩, linkWithTwoIds_reachable, by cbv, by decide, by decide⟩

/-! ## Lookups and selectors -/

/-- Every node of a document that calls lead to has its attributes listed. -/
theorem Reachable.exists_attributes (h : d.Reachable) (hn : d.Has n) : ∃ attributes, d.attributes n = .ok attributes := by
  by_cases hroot : n = d.root
  · subst hroot
    refine ⟨[], ?_⟩
    rw [attributes, attributeRefs, h.get_root]
    rfl
  · obtain ⟨t, q, rfl, hcarried⟩ := h.exists_tree hn hroot
    exact ⟨_, attributes_of_carries hcarried⟩

/-- The lookup gives the first of the attributes that is asked for. -/
theorem attributeNamed_of_attributes (hattributes : d.attributes n = .ok attributes) (written : String) :
    d.attributeNamed n written = .ok (attributes.find? (·.isNamed written)) := by
  rw [attributeNamed, hattributes]
  rfl

/-- A node is matched by the value of an attribute if any attribute that is asked for has this value. -/
theorem matchesNode_equals_iff (hattributes : d.attributes n = .ok attributes) (written value : String) :
    (Selector.hasAttribute written (.equals value)).matchesNode d n = true ↔
      ∃ a ∈ attributes, a.isNamed written = true ∧ a.value = value := by
  simp [Selector.matchesNode_hasAttribute, Selector.attributePasses_iff, hattributes, ValueTest.passes]

/-- What has an id is matched by it. -/
theorem matchesNode_of_byId {value : String} (hid : d.byId value = some n) :
    (Selector.hasAttribute "id" (.equals value)).matchesNode d n = true := by
  have hfound : n ∈ d.outline.nodes.filter ((Selector.id value).matchesNode d) :=
    List.mem_of_mem_take (List.mem_of_mem_head? hid)
  rw [Selector.matchesNode_hasAttribute, ← Selector.matchesNode_id]
  exact (List.mem_filter.mp hfound).2

/-- A selector is content with any attribute that the written name asks for, and a lookup gives the first of them. So what is
looked up is matched, and lookups agree with selectors at a node exactly if the attributes that are asked for have one value.
What has an id has an attribute that is looked up as `id`, and this gives the id if all such attributes have one value. -/
theorem lookups_agree_with_selectors (h : d.Reachable) (hn : d.Has n) (written : String) :
    ∃ attributes, d.attributes n = .ok attributes ∧
      (∀ value, (Selector.hasAttribute written (.equals value)).matchesNode d n = true ↔
        ∃ a ∈ attributes, a.isNamed written = true ∧ a.value = value) ∧
      (∃ found, d.attributeNamed n written = .ok found ∧ found = attributes.find? (fun a => a.isNamed written) ∧
        (found = none ↔ ∀ a ∈ attributes, a.isNamed written = false) ∧
        ∀ a, found = some a → (Selector.hasAttribute written (.equals a.value)).matchesNode d n = true) ∧
      ((∀ value, (Selector.hasAttribute written (.equals value)).matchesNode d n = true ↔
        ∃ a, d.attributeNamed n written = .ok (some a) ∧ a.value = value) ↔ Attribute.OneValue written attributes) ∧
      ∀ value, d.byId value = some n → ∃ a, d.attributeNamed n "id" = .ok (some a) ∧
        (Attribute.OneValue "id" attributes → a.value = value) := by
  obtain ⟨attributes, hattributes⟩ := h.exists_attributes hn
  have hlookup := attributeNamed_of_attributes hattributes
  have hmatches := matchesNode_equals_iff hattributes
  refine ⟨attributes, hattributes, hmatches written, ⟨_, hlookup written, rfl, ?_, ?_⟩, ?_, ?_⟩
  · simp
  · intro a hfirst
    obtain ⟨hmem, hnamed⟩ := Attribute.mem_of_find? hfirst
    exact (hmatches written a.value).mpr ⟨a, hmem, hnamed, rfl⟩
  · simp only [hmatches, hlookup, Except.ok.injEq]
    exact Attribute.find?_agrees_iff
  · intro value hid
    obtain ⟨a, ha, hnamed, rfl⟩ := (hmatches "id" value).mp (matchesNode_of_byId hid)
    obtain ⟨first, hfirst⟩ := Attribute.exists_find? ha hnamed
    obtain ⟨hmem, hnamed'⟩ := Attribute.mem_of_find? hfirst
    exact ⟨first, by rw [hlookup, hfirst], fun hone => hone first hmem a ha hnamed' hnamed⟩

/-- The target of the link is looked up, and the link is selected by it. -/
theorem link_selected_by_target :
    linkWithTwoIds.Has ⟨⟨1⟩, ⟨1, 0⟩⟩ ∧
    (∀ value, (Selector.hasAttribute "xlink:href" (.equals value)).matchesNode linkWithTwoIds ⟨⟨1⟩, ⟨1, 0⟩⟩ = true ↔
      ∃ a, linkWithTwoIds.attributeNamed ⟨⟨1⟩, ⟨1, 0⟩⟩ "xlink:href" = .ok (some a) ∧ a.value = value) := by
  have hn : linkWithTwoIds.Has ⟨⟨1⟩, ⟨1, 0⟩⟩ := ⟨_, by cbv⟩
  obtain ⟨attributes, hattributes, -, -, hagree, -⟩ := lookups_agree_with_selectors linkWithTwoIds_reachable hn "xlink:href"
  have hlisted : linkWithTwoIds.attributes ⟨⟨1⟩, ⟨1, 0⟩⟩ =
      .ok [⟨⟨"xlink", "href"⟩, "#top"⟩, ⟨⟨"", "id"⟩, "x"⟩, ⟨⟨"", "id"⟩, "y"⟩] := by cbv
  obtain rfl := Except.ok.inj (hlisted.symm.trans hattributes)
  refine ⟨hn, hagree.mpr ?_⟩
  unfold Attribute.OneValue
  decide

/-- An element with two ids is matched and found by the second of them, which a lookup does not give. -/
theorem second_id_is_not_looked_up :
    ∃ d n a, Reachable d ∧ d.IsElement n ∧ (Selector.hasAttribute "id" (.equals "y")).matchesNode d n = true ∧
      d.byId "y" = some n ∧ d.attributeNamed n "id" = .ok (some a) ∧ a.value ≠ "y" :=
  ⟨linkWithTwoIds, ⟨⟨1⟩, ⟨1, 0⟩⟩, ⟨⟨"", "id"⟩, "x"⟩, linkWithTwoIds_reachable, ⟨_, _, _, _, by cbv⟩, by cbv, by cbv, by cbv,
    by decide⟩

end Document

end LiveMarkup
