import Mathlib
import LiveMarkup.Proofs.Reachable

/-!
# Consistency

The nodes of a document that calls can lead to hang together (`Document.Consistent`): every node but the root is listed once,
by its parent, a walk from the root meets every node and every attribute once, both are counted right, and the slots that
are free to be used again are the vacant ones.
-/

namespace LiveMarkup

/-- The attributes that a node lists, none if the handle names no node. -/
def Store.attributesOf (s : Store) (n : NodeRef) : List AttributeRef :=
  match s.node? n with
  | some node => node.payload.attributes
  | none => []

/-- The list of free slots holds each vacant slot once and no occupied one. -/
def Slots.ListsVacant {α : Type} (s : Slots α) : Prop :=
  s.vacant.Nodup ∧ ∀ i, i ∈ s.vacant ↔ ∃ slot, s.slots[i]? = some slot ∧ slot.value = none

/-- The nodes and attributes of a document hang together. -/
structure Document.Consistent (d : Document) : Prop where
  /-- Slot zero holds the root, which has no parent. -/
  root_slot : ∃ children, d.root.index = 0 ∧
    d.store.nodes.slots[0]? = some ⟨d.root.key.generation, some ⟨.root, none, children⟩⟩
  /-- There is no other root. -/
  root_unique : ∀ n node, d.store.node? n = some node → node.payload = .root → n = d.root
  /-- Every other node has a parent, which is there, may have children and lists the node once; no other node lists it. -/
  listed_once : ∀ n node, d.store.node? n = some node → n ≠ d.root → ∃ p above, node.parent = some p ∧
    d.store.node? p = some above ∧ above.payload.isContainer = true ∧ above.children.count n = 1 ∧
    ∀ m other, d.store.node? m = some other → m ≠ p → n ∉ other.children
  /-- Texts have no children. -/
  leaf_childless : ∀ n node, d.store.node? n = some node → node.payload.isContainer = false → node.children = []
  /-- The walk from the root, in document order, meets every node once, and lists every attribute once. -/
  walk : ∃ below, d.descendants d.root = .ok below ∧ (d.root :: below).Nodup ∧
    (∀ n, n ∈ d.root :: below ↔ (d.store.node? n).isSome) ∧ d.nodeCount = 1 + below.length ∧
    ((d.root :: below).flatMap d.store.attributesOf).Nodup ∧
    (∀ a, a ∈ (d.root :: below).flatMap d.store.attributesOf ↔ (d.store.attribute? a).isSome) ∧
    d.attributeCount = ((d.root :: below).map fun n => (d.store.attributesOf n).length).sum
  /-- The free slots for nodes are the vacant ones. -/
  vacant_nodes : d.store.nodes.ListsVacant
  /-- The free slots for attributes are the vacant ones. -/
  vacant_attributes : d.store.attributes.ListsVacant

namespace Outline

/-- No entry of an outline is a root. -/
theorem payload_ne_root {o : Outline} {p n : NodeRef} {node : Node} (h : (n, node) ∈ o.entries p) :
    node.payload ≠ .root := by
  induction o generalizing p with
  | nil => cases Multiset.notMem_zero _ h
  | leaf m text next ih =>
    rcases Multiset.mem_cons.mp h with he | hnext
    · cases he
      exact nofun
    · exact ih hnext
  | element m name attributes children next ihc ihn =>
    rcases Multiset.mem_cons.mp h with he | hrest
    · cases he
      exact nofun
    · rcases Multiset.mem_add.mp hrest with hbelow | hnext
      · exact ihc hbelow
      · exact ihn hnext

/-- A node that is listed at the top of an outline is an entry with the parent of the outline. -/
theorem exists_mem_entries_of_mem_tops {o : Outline} {c : NodeRef} (h : c ∈ o.tops) (p : NodeRef) :
    ∃ child, (c, child) ∈ o.entries p ∧ child.parent = some p := by
  obtain ⟨t, ht, rfl⟩ := List.mem_map.mp h
  exact ⟨_, mem_entries_of_mem ht p, rfl⟩

/-- A node that an entry lists is an entry with that parent, and only elements list nodes. -/
theorem exists_mem_entries_of_mem_children {o : Outline} {p q c : NodeRef} {node : Node} (h : (q, node) ∈ o.entries p)
    (hc : c ∈ node.children) :
    node.payload.isContainer = true ∧ ∃ child, (c, child) ∈ o.entries p ∧ child.parent = some q := by
  induction o generalizing p with
  | nil => cases Multiset.notMem_zero _ h
  | leaf m text next ih =>
    rcases Multiset.mem_cons.mp h with he | hnext
    · cases he
      cases hc
    · obtain ⟨hcontainer, child, hchild, hparent⟩ := ih hnext
      exact ⟨hcontainer, child, Multiset.mem_cons_of_mem hchild, hparent⟩
  | element m name attributes children next ihc ihn =>
    have hof : ∀ child, (c, child) ∈ children.entries m ∨ (c, child) ∈ next.entries p →
        (c, child) ∈ (element m name attributes children next).entries p := by
      intro child hchild
      exact Multiset.mem_cons_of_mem (Multiset.mem_add.mpr hchild)
    rcases Multiset.mem_cons.mp h with he | hrest
    · cases he
      obtain ⟨child, hchild, hparent⟩ := exists_mem_entries_of_mem_tops hc q
      exact ⟨rfl, child, hof child (Or.inl hchild), hparent⟩
    · rcases Multiset.mem_add.mp hrest with hbelow | hnext
      · obtain ⟨hcontainer, child, hchild, hparent⟩ := ihc hbelow
        exact ⟨hcontainer, child, hof child (Or.inl hchild), hparent⟩
      · obtain ⟨hcontainer, child, hchild, hparent⟩ := ihn hnext
        exact ⟨hcontainer, child, hof child (Or.inr hchild), hparent⟩

/-- All lists of children of an outline together, the list of its tops among them, list each node once. -/
theorem bind_children_entries (o : Outline) (p : NodeRef) :
    (o.tops : Multiset NodeRef) + (o.entries p).bind (fun e => (e.2.children : Multiset NodeRef)) = o.nodes := by
  induction o generalizing p with
  | nil => rfl
  | leaf m text next ih =>
    have htops : ((leaf m text next).tops : Multiset NodeRef) = m ::ₘ ↑next.tops := rfl
    rw [htops, entries, nodes, Multiset.cons_bind, ← Multiset.cons_coe, ← ih p, Multiset.coe_nil, Multiset.zero_add,
      Multiset.cons_add]
  | element m name attributes children next ihc ihn =>
    have htops : ((element m name attributes children next).tops : Multiset NodeRef) = m ::ₘ ↑next.tops := rfl
    rw [htops, entries, nodes, Multiset.cons_bind, Multiset.add_bind, ← Multiset.cons_coe, ← Multiset.coe_add, ← ihc m,
      ← ihn p, Multiset.cons_add]
    congr 1
    abel

end Outline

namespace Store

variable {s : Store} {d : DocumentId} {o : Outline}

/-- The attributes that the nodes of an outline list are those of the outline, in document order. -/
theorem Holds.flatMap_attributesOf {N : Multiset (NodeRef × Node)} {A : Multiset (AttributeRef × Attribute)}
    (h : s.Holds d N A) {p : NodeRef} (hentries : o.entries p ⊆ N) : o.nodes.flatMap s.attributesOf = o.attributes := by
  induction o generalizing p with
  | nil => rfl
  | leaf n text next ih =>
    have hnode : s.node? n = some ⟨.leaf text, some p, []⟩ := h.node?_eq.mpr (hentries (Multiset.mem_cons_self _ _))
    have hnext : next.entries p ⊆ N := fun e he => hentries (Multiset.mem_cons_of_mem he)
    rw [Outline.nodes, List.flatMap_cons, Store.attributesOf, hnode, ih hnext]
    rfl
  | element n name pairs children next ihc ihn =>
    have hnode : s.node? n = some ⟨.element name (pairs.map Prod.fst), some p, children.tops⟩ :=
      h.node?_eq.mpr (hentries (Multiset.mem_cons_self _ _))
    have hbelow : children.entries n ⊆ N := fun e he =>
      hentries (Multiset.mem_cons_of_mem (Multiset.mem_add.mpr (Or.inl he)))
    have hnext : next.entries p ⊆ N := fun e he =>
      hentries (Multiset.mem_cons_of_mem (Multiset.mem_add.mpr (Or.inr he)))
    rw [Outline.nodes, List.flatMap_cons, List.flatMap_append, Store.attributesOf, hnode, ihc hbelow, ihn hnext]
    rfl

namespace Shows

/-- A handle names a node exactly if it is the root or below it. -/
theorem mem_nodes_iff (h : s.Shows d o) {n : NodeRef} : n ∈ rootOf d :: o.nodes ↔ (s.node? n).isSome := by
  have hkeys : Multiset.map Prod.fst ((rootOf d, (⟨.root, none, o.tops⟩ : Node)) ::ₘ o.entries (rootOf d)) =
      ↑(rootOf d :: o.nodes) := by
    rw [Multiset.map_cons, Outline.map_fst_entries, Multiset.cons_coe]
  rw [← Multiset.mem_coe, ← hkeys, Multiset.mem_map, Option.isSome_iff_exists]
  constructor
  · rintro ⟨⟨m, node⟩, hmem, rfl⟩
    exact ⟨node, h.node?_eq.mpr hmem⟩
  · rintro ⟨node, hnode⟩
    exact ⟨(n, node), h.node?_eq.mp hnode, rfl⟩

/-- A handle names an attribute exactly if an element lists it. -/
theorem mem_attributes_iff (h : s.Shows d o) {a : AttributeRef} : a ∈ o.attributes ↔ (s.attribute? a).isSome := by
  rw [← Multiset.mem_coe, ← Outline.map_fst_attributeEntries, Multiset.mem_map, Option.isSome_iff_exists]
  constructor
  · rintro ⟨⟨b, v⟩, hmem, rfl⟩
    exact ⟨v, h.attribute?_eq.mpr hmem⟩
  · rintro ⟨v, hv⟩
    exact ⟨(a, v), h.attribute?_eq.mp hv, rfl⟩

/-- The root and the nodes below it are all different. -/
theorem nodup_walk (h : s.Shows d o) : (rootOf d :: o.nodes).Nodup := by
  have hkeys := h.nodup_nodes
  rw [Multiset.map_cons, Outline.map_fst_entries, Multiset.cons_coe] at hkeys
  exact Multiset.coe_nodup.mp hkeys

/-- No attribute is listed twice. -/
theorem nodup_attributeRefs (h : s.Shows d o) : o.attributes.Nodup := by
  have hkeys := h.nodup_attributes
  rw [Outline.map_fst_attributeEntries] at hkeys
  exact Multiset.coe_nodup.mp hkeys

/-- A node below the root is listed by one node, its parent, and once by it, since all lists together hold the nodes below the
root, each of them once. -/
theorem listed_once (h : s.Shows d o) {n : NodeRef} {node : Node} (hnode : s.node? n = some node) (hn : n ≠ rootOf d) :
    ∃ p above, node.parent = some p ∧ s.node? p = some above ∧ above.payload.isContainer = true ∧
      above.children.count n = 1 ∧ ∀ m other, s.node? m = some other → m ≠ p → n ∉ other.children := by
  have hall : Multiset.bind ((rootOf d, (⟨.root, none, o.tops⟩ : Node)) ::ₘ o.entries (rootOf d))
      (fun e => (e.2.children : Multiset NodeRef)) = o.nodes := by
    rw [Multiset.cons_bind, ← o.bind_children_entries (rootOf d)]
  have hmem : n ∈ o.nodes := by
    have hwalk := h.mem_nodes_iff.mpr (Option.isSome_of_eq_some hnode)
    exact (List.mem_cons.mp hwalk).resolve_left hn
  have hcount : o.nodes.count n = 1 := List.count_eq_one_of_mem (List.nodup_cons.mp h.nodup_walk).2 hmem
  rw [← Multiset.coe_count, ← hall] at hcount
  rw [← Multiset.mem_coe, ← hall] at hmem
  obtain ⟨⟨p, above⟩, hp, hlisted⟩ := Multiset.mem_bind.mp hmem
  have hlink : above.payload.isContainer = true ∧ node.parent = some p := by
    rcases Multiset.mem_cons.mp hp with he | hbelow
    · cases he
      obtain ⟨child, hchild, hparent⟩ := Outline.exists_mem_entries_of_mem_tops hlisted (rootOf d)
      have hfound := h.node?_eq.mpr (Multiset.mem_cons_of_mem hchild)
      rw [hnode] at hfound
      cases hfound
      exact ⟨rfl, hparent⟩
    · obtain ⟨hcontainer, child, hchild, hparent⟩ := Outline.exists_mem_entries_of_mem_children hbelow hlisted
      have hfound := h.node?_eq.mpr (Multiset.mem_cons_of_mem hchild)
      rw [hnode] at hfound
      cases hfound
      exact ⟨hcontainer, hparent⟩
  obtain ⟨rest, hrest⟩ := Multiset.exists_cons_of_mem hp
  rw [hrest, Multiset.cons_bind, Multiset.count_add, Multiset.coe_count] at hcount
  change above.children.count n + (rest.bind fun e => (e.2.children : Multiset NodeRef)).count n = 1 at hcount
  have hpos : 0 < above.children.count n := List.count_pos_iff.mpr hlisted
  refine ⟨p, above, hlink.2, h.node?_eq.mpr hp, hlink.1, by omega, ?_⟩
  intro m other hother hm hin
  have hmem' := h.node?_eq.mp hother
  rw [hrest] at hmem'
  have hm' : (m, other) ∈ rest := (Multiset.mem_cons.mp hmem').resolve_left (fun he => hm (Prod.mk.inj he).1)
  have hzero : n ∈ rest.bind fun e => (e.2.children : Multiset NodeRef) :=
    Multiset.mem_bind.mpr ⟨(m, other), hm', Multiset.mem_coe.mpr hin⟩
  have := Multiset.count_pos.mpr hzero
  omega

end Shows

end Store

namespace Document

/-- A document whose store shows an outline is consistent. -/
theorem consistent_of_shows {d : Document} {o : Outline} (h : d.store.Shows d.id o) : d.Consistent := by
  have hroot : d.root = Store.rootOf d.id := h.root
  have hattributes : (d.root :: o.nodes).flatMap d.store.attributesOf = o.attributes := by
    have hbelow := h.flatMap_attributesOf (fun e he => Multiset.mem_cons_of_mem he)
    rw [List.flatMap_cons, hbelow, hroot, Store.attributesOf, h.root_eq]
    rfl
  have hslot := Slots.getElem?_of_get? (s := d.store.nodes) (k := ⟨0, 0⟩) (a := ⟨.root, none, o.tops⟩)
    (by simpa [Store.node?, Store.rootOf, h.document] using h.root_eq)
  refine ⟨⟨o.tops, rfl, hslot⟩, ?_, ?_, ?_, ⟨o.nodes, ?_, ?_, ?_, ?_, ?_, ?_, ?_⟩, ?_, ?_⟩
  · intro n node hnode hpayload
    rcases Multiset.mem_cons.mp (h.node?_eq.mp hnode) with he | hbelow
    · rw [hroot]
      exact (Prod.mk.inj he).1
    · exact absurd hpayload (Outline.payload_ne_root hbelow)
  · intro n node hnode hn
    exact h.listed_once hnode (hroot ▸ hn)
  · intro n node hnode hleaf
    rcases Multiset.mem_cons.mp (h.node?_eq.mp hnode) with he | hbelow
    · cases he
      cases hleaf
    · refine List.eq_nil_iff_forall_not_mem.mpr ?_
      intro c hc
      rw [(Outline.exists_mem_entries_of_mem_children hbelow hc).1] at hleaf
      cases hleaf
  · have hchildren : d.children d.root = .ok o.tops := by
      simp only [Document.children, Document.node, hroot, h.root_eq]
      rfl
    have houtline : d.store.outline o.tops = o := h.outline_tops
    simp only [Document.descendants, Document.outlineBelow, hchildren, bind, Except.bind, houtline]
    rfl
  · rw [hroot]
    exact h.nodup_walk
  · intro n
    rw [hroot]
    exact h.mem_nodes_iff
  · rw [Document.nodeCount, h.count_nodes, Multiset.card_cons, ← Multiset.card_map Prod.fst, Outline.map_fst_entries,
      Multiset.coe_card, Nat.add_comm]
  · rw [hattributes]
    exact h.nodup_attributeRefs
  · intro a
    rw [hattributes]
    exact h.mem_attributes_iff
  · rw [Document.attributeCount, h.count_attributes, ← Multiset.card_map Prod.fst, Outline.map_fst_attributeEntries,
      Multiset.coe_card, ← hattributes, List.length_flatMap]
  · exact ⟨h.sound_nodes.nodup_vacant, h.sound_nodes.mem_vacant⟩
  · exact ⟨h.sound_attributes.nodup_vacant, h.sound_attributes.mem_vacant⟩

/-- Every document that calls can lead to is consistent. -/
theorem consistent_of_reachable {d : Document} (h : d.Reachable) : d.Consistent :=
  consistent_of_shows h.shows

/-- A list with an entry in the slots of another one is consistent: it has the new handle, and not the old one. -/
theorem consistent_with_slot_used_again : (withOtherEntry ⟨1⟩).Consistent ∧
    (withOtherEntry ⟨1⟩).children ⟨⟨1⟩, ⟨1, 0⟩⟩ = .ok [⟨⟨1⟩, ⟨4, 0⟩⟩, ⟨⟨1⟩, ⟨3, 1⟩⟩] ∧
    (withOtherEntry ⟨1⟩).node ⟨⟨1⟩, ⟨3, 0⟩⟩ = .error (.invalidHandle ⟨⟨1⟩, ⟨3, 0⟩⟩) := by
  refine ⟨consistent_of_reachable (reachable_withOtherEntry ⟨1⟩), ?_, ?_⟩
  · cbv
  · cbv

end Document

end LiveMarkup
