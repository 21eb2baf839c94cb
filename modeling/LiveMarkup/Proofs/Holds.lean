import Mathlib.Algebra.Order.Group.Multiset
import Mathlib.Tactic.Abel
import LiveMarkup.Proofs.Outline
import LiveMarkup.Proofs.Slots
import LiveMarkup.Store.Mutate

/-!
# What a store holds

`Store.Holds` says which nodes and attributes a store has, by their handles, as two multisets. Each step of a change is
described by what it does to the entries that it touches; all others are carried along as they are. So a node that is
changed, freed or added stands at the head of the multiset, and the rest of it may be anything.
-/

namespace LiveMarkup

/-- The store of a document has these nodes and attributes and no others, and both kinds of slots are sound. -/
structure Store.Holds (s : Store) (d : DocumentId) (nodes : Multiset (NodeRef × Node))
    (attributes : Multiset (AttributeRef × Attribute)) : Prop where
  document : s.document = d
  nodes_eq : s.nodes.entries.map (fun e => ((⟨d, e.1⟩ : NodeRef), e.2)) = nodes
  attributes_eq : s.attributes.entries.map (fun e => ((⟨d, e.1⟩ : AttributeRef), e.2)) = attributes
  sound_nodes : s.nodes.Sound
  sound_attributes : s.attributes.Sound

/-- An entry of slots under other names for their keys is an entry of the slots. -/
theorem Slots.entries_eq_of_map {α ρ : Type} {s : Slots α} {f : SlotKey → ρ} {r : ρ} {a : α} {rest : Multiset (ρ × α)}
    (h : s.entries.map (fun e => (f e.1, e.2)) = (r, a) ::ₘ rest) :
    ∃ k others, f k = r ∧ s.entries = (k, a) ::ₘ others ∧ others.map (fun e => (f e.1, e.2)) = rest := by
  have hmem : (r, a) ∈ s.entries.map (fun e => (f e.1, e.2)) := by simp [h]
  obtain ⟨⟨k, b⟩, hk, he⟩ := Multiset.mem_map.mp hmem
  simp only [Prod.mk.injEq] at he
  obtain ⟨rfl, rfl⟩ := he
  obtain ⟨others, hothers⟩ := Multiset.exists_cons_of_mem hk
  refine ⟨k, others, rfl, hothers, ?_⟩
  rw [hothers, Multiset.map_cons] at h
  exact (Multiset.cons_inj_right _).mp h

/-- Keys of slots under other names are all different, if different keys have different names. -/
theorem Slots.nodup_names {α ρ : Type} (s : Slots α) {f : SlotKey → ρ} (hf : ∀ j k, f j = f k → j = k) :
    ((s.entries.map (fun e => (f e.1, e.2))).map Prod.fst).Nodup := by
  rw [Multiset.map_map]
  have he : s.entries.map (Prod.fst ∘ fun e => (f e.1, e.2)) = (s.entries.map Prod.fst).map f := by
    rw [Multiset.map_map]
    rfl
  rw [he]
  exact s.nodup_keys.map hf

namespace Store

variable {s : Store} {d : DocumentId} {N : Multiset (NodeRef × Node)} {A : Multiset (AttributeRef × Attribute)}

namespace Holds

/-- The handle of the root. -/
theorem root (h : s.Holds d N A) : s.root = rootOf d := by
  rw [Store.root, h.document]

/-- A handle names a node exactly if the store holds it. -/
theorem node?_eq (h : s.Holds d N A) {n : NodeRef} {node : Node} : s.node? n = some node ↔ (n, node) ∈ N := by
  rw [← h.nodes_eq, node?, h.document, Multiset.mem_map]
  obtain ⟨document, key⟩ := n
  constructor
  · intro hn
    split at hn
    · rename_i hd
      exact ⟨(key, node), Slots.mem_entries.mpr hn, by simp [← hd]⟩
    · simp at hn
  · rintro ⟨⟨k, a⟩, hk, he⟩
    simp only [Prod.mk.injEq, NodeRef.mk.injEq] at he
    obtain ⟨⟨rfl, rfl⟩, rfl⟩ := he
    rw [if_pos rfl]
    exact Slots.mem_entries.mp hk

/-- A handle names an attribute exactly if the store holds it. -/
theorem attribute?_eq (h : s.Holds d N A) {a : AttributeRef} {v : Attribute} : s.attribute? a = some v ↔ (a, v) ∈ A := by
  rw [← h.attributes_eq, attribute?, h.document, Multiset.mem_map]
  obtain ⟨document, key⟩ := a
  constructor
  · intro hn
    split at hn
    · rename_i hd
      exact ⟨(key, v), Slots.mem_entries.mpr hn, by simp [← hd]⟩
    · simp at hn
  · rintro ⟨⟨k, b⟩, hk, he⟩
    simp only [Prod.mk.injEq, AttributeRef.mk.injEq] at he
    obtain ⟨⟨rfl, rfl⟩, rfl⟩ := he
    rw [if_pos rfl]
    exact Slots.mem_entries.mp hk

/-- A node that the store holds is found. -/
theorem node_eq (h : s.Holds d N A) {n : NodeRef} {node : Node} (hn : (n, node) ∈ N) : s.node n = .ok node := by
  rw [Store.node, h.node?_eq.mpr hn]

/-- No two nodes have one handle. -/
theorem nodup_nodes (h : s.Holds d N A) : (N.map Prod.fst).Nodup := by
  rw [← h.nodes_eq]
  refine s.nodes.nodup_names (f := fun k => (⟨d, k⟩ : NodeRef)) ?_
  intro j k he
  exact (NodeRef.mk.inj he).2

/-- No two attributes have one handle. -/
theorem nodup_attributes (h : s.Holds d N A) : (A.map Prod.fst).Nodup := by
  rw [← h.attributes_eq]
  refine s.attributes.nodup_names (f := fun k => (⟨d, k⟩ : AttributeRef)) ?_
  intro j k he
  exact (AttributeRef.mk.inj he).2

/-- All nodes are nodes of the document. -/
theorem document_of_mem (h : s.Holds d N A) {n : NodeRef} {node : Node} (hn : (n, node) ∈ N) : n.document = d := by
  rw [← h.nodes_eq, Multiset.mem_map] at hn
  obtain ⟨_, _, he⟩ := hn
  rw [← (Prod.mk.inj he).1]

/-- The nodes are counted right. -/
theorem count_nodes (h : s.Holds d N A) : s.nodes.count = N.card := by
  rw [h.sound_nodes.count_eq, ← h.nodes_eq, Multiset.card_map]

/-- The attributes are counted right. -/
theorem count_attributes (h : s.Holds d N A) : s.attributes.count = A.card := by
  rw [h.sound_attributes.count_eq, ← h.attributes_eq, Multiset.card_map]

/-! ## Nodes -/

variable {n p : NodeRef} {node : Node}

/-- Changing a node exchanges its entry. -/
theorem modifyNode (h : s.Holds d ((n, node) ::ₘ N) A) (f : Node → Node) :
    (s.modifyNode n f).Holds d ((n, f node) ::ₘ N) A := by
  obtain ⟨k, others, rfl, hothers, hrest⟩ := Slots.entries_eq_of_map h.nodes_eq
  simp only [Store.modifyNode, h.document, if_pos]
  refine ⟨rfl, ?_, h.attributes_eq, h.sound_nodes.modify _ _, h.sound_attributes⟩
  rw [Slots.entries_modify f hothers, Multiset.map_cons, hrest]

/-- A node that is added as the last child of another is there, without children, and its parent lists it last. -/
theorem link (h : s.Holds d ((p, node) ::ₘ N) A) (payload : Payload) :
    (s.link p payload).1.Holds d ((p, { node with children := node.children ++ [(s.link p payload).2] }) ::ₘ
      ((s.link p payload).2, ⟨payload, some p, []⟩) ::ₘ N) A := by
  have hadded : ({ s with nodes := (s.nodes.insert ⟨payload, some p, []⟩).1 } : Store).Holds d
      ((p, node) ::ₘ ((s.link p payload).2, ⟨payload, some p, []⟩) ::ₘ N) A := by
    refine ⟨h.document, ?_, h.attributes_eq, h.sound_nodes.insert _, h.sound_attributes⟩
    rw [h.sound_nodes.entries_insert, Multiset.map_cons, h.nodes_eq, Multiset.cons_swap]
    simp only [Store.link, h.document]
  exact hadded.modifyNode _

/-- A node below the root can be freed. -/
theorem freeNode (h : s.Holds d ((n, node) ::ₘ N) A) (hroot : n ≠ rootOf d) :
    ∃ s', s.freeNode n = .ok (s', node) ∧ s'.Holds d N A := by
  obtain ⟨k, others, rfl, hothers, hrest⟩ := Slots.entries_eq_of_map h.nodes_eq
  obtain ⟨nodes, hremove, hentries, hsound⟩ := h.sound_nodes.remove? hothers
  refine ⟨{ s with nodes }, ?_, h.document, ?_, h.attributes_eq, hsound, h.sound_attributes⟩
  · rw [Store.freeNode, h.root, if_neg hroot, h.document, if_pos rfl, hremove]
  · rw [hentries, hrest]

/-! ## Attributes -/

/-- Attributes that are stored are there. -/
theorem addAttributes (h : s.Holds d N A) (l : List Attribute) :
    ∃ pairs : List (AttributeRef × Attribute), (s.addAttributes l).2 = pairs.map Prod.fst ∧ pairs.map Prod.snd = l ∧
      (s.addAttributes l).1.Holds d N (pairs + A) := by
  induction l generalizing s A with
  | nil => exact ⟨[], rfl, rfl, by simpa [Store.addAttributes] using h⟩
  | cons a rest ih =>
    have hadded : ({ s with attributes := (s.attributes.insert a).1 } : Store).Holds d N
        (((⟨d, (s.attributes.insert a).2⟩ : AttributeRef), a) ::ₘ A) := by
      refine ⟨h.document, h.nodes_eq, ?_, h.sound_nodes, h.sound_attributes.insert _⟩
      rw [h.sound_attributes.entries_insert, Multiset.map_cons, h.attributes_eq]
    obtain ⟨pairs, hfst, hsnd, hpairs⟩ := ih hadded
    refine ⟨(⟨d, (s.attributes.insert a).2⟩, a) :: pairs, ?_, ?_, ?_⟩
    · simp only [Store.addAttributes, List.map_cons, ← hfst, hpairs.document]
    · simp [hsnd]
    · rw [← Multiset.cons_coe, Multiset.cons_add, ← Multiset.add_cons]
      exact hpairs

/-- An attribute that is there can be freed. -/
theorem freeAttribute {a : AttributeRef} {v : Attribute} (h : s.Holds d N ((a, v) ::ₘ A)) :
    ∃ s', s.freeAttribute a = .ok s' ∧ s'.Holds d N A := by
  obtain ⟨k, others, rfl, hothers, hrest⟩ := Slots.entries_eq_of_map h.attributes_eq
  obtain ⟨attributes, hremove, hentries, hsound⟩ := h.sound_attributes.remove? hothers
  refine ⟨{ s with attributes }, ?_, h.document, h.nodes_eq, ?_, h.sound_nodes, hsound⟩
  · rw [Store.freeAttribute, h.document, if_pos rfl, hremove]
  · rw [hentries, hrest]

/-- Attributes that are there can be freed one after the other. -/
theorem freeAttributes {pairs : List (AttributeRef × Attribute)} (h : s.Holds d N (pairs + A)) :
    ∃ s', s.freeAttributes (pairs.map Prod.fst) = .ok s' ∧ s'.Holds d N A := by
  induction pairs generalizing s with
  | nil => exact ⟨s, rfl, by simpa using h⟩
  | cons pair rest ih =>
    rw [← Multiset.cons_coe, Multiset.cons_add] at h
    obtain ⟨s₁, hfree, h₁⟩ := h.freeAttribute
    obtain ⟨s₂, hrest, h₂⟩ := ih h₁
    refine ⟨s₂, ?_, h₂⟩
    rw [List.map_cons, Store.freeAttributes, hfree]
    exact hrest

/-- An attribute that is there can be given new content. -/
theorem updateAttribute {a : AttributeRef} {v : Attribute} (h : s.Holds d N ((a, v) ::ₘ A)) (new : Attribute) :
    ∃ s', s.updateAttribute a new = .ok s' ∧ s'.Holds d N ((a, new) ::ₘ A) := by
  have hfound : s.attribute? a = some v := h.attribute?_eq.mpr (by simp)
  obtain ⟨k, others, rfl, hothers, hrest⟩ := Slots.entries_eq_of_map h.attributes_eq
  refine ⟨{ s with attributes := s.attributes.modify k fun _ => new }, ?_, h.document, h.nodes_eq, ?_, h.sound_nodes,
    h.sound_attributes.modify _ _⟩
  · rw [Store.updateAttribute, hfound]
  · rw [Slots.entries_modify _ hothers, Multiset.map_cons, hrest]

end Holds

end Store

end LiveMarkup
