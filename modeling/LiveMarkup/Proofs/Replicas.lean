import Mathlib.Logic.Equiv.Basic
import LiveMarkup.Proofs.Consistency
import LiveMarkup.Proofs.Refinement
import LiveMarkup.Proofs.Renaming

/-!
# Replicas

A replica of a document has the same slots, with the same generations and the same free slots, under an identity of its own
(`Document.Replicates`). All handles in a document that calls lead to name that document (`Store.Shows.node_of`), so edits
that are carried out on it are carried out on every replica with the same effect (`Document.Replicates.commit`).
-/

namespace LiveMarkup

/-- All handles in the node name one document. -/
structure Node.Of (d : DocumentId) (node : Node) : Prop where
  parent : ∀ p ∈ node.parent, p.document = d
  children : ∀ c ∈ node.children, c.document = d
  attributes : ∀ a ∈ node.payload.attributes, a.document = d

/-- All handles in the change name one document. -/
structure Change.Of (d : DocumentId) (c : Change) : Prop where
  node : c.node.document = d
  parent : ∀ p ∈ c.parent?, p.document = d

section Congr

variable {f g : DocumentId → DocumentId} {d : DocumentId}

/-- Handles of nodes depend only on the new name of their document. -/
theorem NodeRef.renamed_congr {n : NodeRef} (h : f d = g d) (hn : n.document = d) : n.renamed f = n.renamed g := by
  rw [renamed, renamed, hn, h]

/-- Handles of attributes depend only on the new name of their document. -/
theorem AttributeRef.renamed_congr {a : AttributeRef} (h : f d = g d) (ha : a.document = d) :
    a.renamed f = a.renamed g := by
  rw [renamed, renamed, ha, h]

/-- It only matters how the one document is renamed that the handles of a node name. -/
theorem Node.renamed_congr {node : Node} (h : f d = g d) (hnode : node.Of d) : node.renamed f = node.renamed g := by
  obtain ⟨payload, parent, children⟩ := node
  have hpayload : payload.renamed f = payload.renamed g := by
    cases payload with
    | root => rfl
    | leaf text => rfl
    | element name attributes =>
      rw [Payload.renamed, Payload.renamed]
      exact congrArg _ (List.map_congr_left fun a ha => AttributeRef.renamed_congr h (hnode.attributes a ha))
  have hparent : parent.map (NodeRef.renamed f) = parent.map (NodeRef.renamed g) :=
    Option.map_congr fun p hp => NodeRef.renamed_congr h (hnode.parent p hp)
  have hchildren : children.map (NodeRef.renamed f) = children.map (NodeRef.renamed g) :=
    List.map_congr_left fun c hc => NodeRef.renamed_congr h (hnode.children c hc)
  rw [renamed, renamed, hpayload, hparent, hchildren]

/-- Changes depend only on the new name of their document. -/
theorem Change.renamed_congr {c : Change} (h : f d = g d) (hc : c.Of d) : c.renamed f = c.renamed g := by
  have hnode := NodeRef.renamed_congr h hc.node
  cases c with
  | updated node => exact congrArg _ hnode
  | added node parent => exact congrArg₂ added hnode (NodeRef.renamed_congr h (hc.parent parent rfl))
  | removed node parent => exact congrArg₂ removed hnode (NodeRef.renamed_congr h (hc.parent parent rfl))
  | replaced node parent => exact congrArg₂ replaced hnode (NodeRef.renamed_congr h (hc.parent parent rfl))

end Congr

namespace Store.Shows

variable {s s' : Store} {d : DocumentId} {o o' : Outline}

/-- A node that is there has a handle of the document. -/
theorem document_of_node? (h : s.Shows d o) {n : NodeRef} {node : Node} (hnode : s.node? n = some node) :
    n.document = d :=
  h.document_of_mem (h.node?_eq.mp hnode)

theorem document_of_isSome (h : s.Shows d o) {n : NodeRef} (hn : (s.node? n).isSome) : n.document = d := by
  obtain ⟨node, hnode⟩ := Option.isSome_iff_exists.mp hn
  exact h.document_of_node? hnode

/-- The nodes of the outline have handles of the document. -/
theorem document_of_mem_nodes (h : s.Shows d o) {n : NodeRef} (hn : n ∈ o.nodes) : n.document = d :=
  h.document_of_isSome (h.mem_nodes_iff.mp (List.mem_cons_of_mem _ hn))

/-- An attribute that is there has a handle of the document. -/
theorem document_of_attribute? (h : s.Shows d o) {a : AttributeRef} (ha : (s.attribute? a).isSome) : a.document = d := by
  by_cases hdocument : a.document = s.document
  · exact hdocument.trans h.document
  · rw [attribute?, if_neg hdocument] at ha
    cases ha

/-- The handles in every node of a document name that document. -/
theorem node_of (h : s.Shows d o) {n : NodeRef} {node : Node} (hnode : s.node? n = some node) : node.Of d := by
  rcases Multiset.mem_cons.mp (h.node?_eq.mp hnode) with he | hbelow
  · cases he
    refine ⟨nofun, ?_, nofun⟩
    intro c hc
    exact h.document_of_mem_nodes (o.tops_sublist_nodes.subset hc)
  · have hn : n ∈ o.nodes := by
      rw [← Multiset.mem_coe, ← Outline.map_fst_entries (rootOf d) o]
      exact Multiset.mem_map_of_mem Prod.fst hbelow
    refine ⟨?_, ?_, ?_⟩
    · intro p hp
      have hne : n ≠ rootOf d := by
        rintro rfl
        exact h.root_notMem hn
      obtain ⟨p', above, hparent, habove, _⟩ := h.listed_once hnode hne
      rw [hparent] at hp
      cases hp
      exact h.document_of_node? habove
    · intro c hc
      obtain ⟨_, child, hchild, _⟩ := Outline.exists_mem_entries_of_mem_children hbelow hc
      exact h.document_of_mem (Multiset.mem_cons_of_mem hchild)
    · intro a ha
      refine h.document_of_attribute? (h.mem_attributes_iff.mp ?_)
      rw [← h.flatMap_attributesOf (fun e he => Multiset.mem_cons_of_mem he), List.mem_flatMap]
      refine ⟨n, hn, ?_⟩
      rw [attributesOf, hnode]
      exact ha

/-- The handles in the nodes that a node lists name the document. -/
theorem document_of_mem_childrenOf (h : s.Shows d o) {n c : NodeRef} (hc : c ∈ s.childrenOf n) : c.document = d := by
  rw [childrenOf] at hc
  split at hc
  · rename_i node hnode
    exact (h.node_of hnode).children c hc
  · cases hc

/-- The parent of a node has a handle of the document. -/
theorem document_of_parentOf? (h : s.Shows d o) {n p : NodeRef} (hp : s.parentOf? n = some p) : p.document = d := by
  rw [parentOf?, Option.bind_eq_some_iff] at hp
  obtain ⟨node, hnode, hparent⟩ := hp
  exact (h.node_of hnode).parent p hparent

/-- A node that a path leads to has a handle of the document. -/
theorem document_of_nodeAt? (h : s.Shows d o) {path : Path} {n : NodeRef} (hn : s.nodeAt? path = some n) :
    n.document = d := by
  rw [h.nodeAt?_eq] at hn
  rcases Outline.place?_of_find? hn with ⟨_, rfl⟩ | ⟨q, c, before, t, after, _, place, rfl⟩
  · rfl
  · have hmem : t.node ∈ (Outline.ofList (before ++ t :: after)).nodes := by
      refine (Outline.tops_sublist_nodes _).subset ?_
      rw [Outline.tops_ofList, List.map_append, List.map_cons]
      exact List.mem_append_right _ List.mem_cons_self
    exact h.document_of_mem_nodes (Outline.nodes_subset_of_place? place hmem)

/-- What is reported of an edit names the document. -/
theorem change_of (h : s.Shows d o) (h' : s'.Shows d o') {e : Edit} {c : Change} (hreported : s.Reported s' e c) :
    c.Of d := by
  cases hreported with
  | setAttributes attributes leads => exact ⟨h.document_of_nodeAt? leads, nofun⟩
  | setText text leads => exact ⟨h.document_of_nodeAt? leads, nofun⟩
  | append tree leads fresh last =>
    rename_i path n child
    have hchild : child ∈ s'.childrenOf n := last ▸ List.mem_append_right _ List.mem_cons_self
    refine ⟨h'.document_of_mem_childrenOf hchild, ?_⟩
    rintro p ⟨⟩
    exact h.document_of_nodeAt? leads
  | remove leads parent =>
    refine ⟨h.document_of_nodeAt? leads, ?_⟩
    rintro p ⟨⟩
    exact h.document_of_parentOf? parent
  | replace tree leads parent =>
    refine ⟨h.document_of_nodeAt? leads, ?_⟩
    rintro p ⟨⟩
    exact h.document_of_parentOf? parent

/-- What is reported of edits names the document. -/
theorem changes_of (h : s.Shows d o) {edits : List Edit} {changes : List Change}
    (hreported : s.ReportedAll edits changes s') : ∀ c ∈ changes, c.Of d := by
  induction hreported generalizing o with
  | nil s => exact List.forall_mem_nil _
  | cons done first rest ih =>
    rename_i s s₁ s₂ e c edits changes
    rcases h.carriesOut e with ⟨t, o₁, c', hfirst, h₁, _⟩ | ⟨_, reason, hfault⟩ | ⟨_, hfault⟩
    · rw [done] at hfirst
      cases hfirst
      exact List.forall_mem_cons.mpr ⟨h.change_of h₁ first, ih h₁⟩
    · rw [done] at hfault
      cases hfault
    · rw [done] at hfault
      cases hfault

/-- It only matters how the document itself is renamed. -/
theorem renamed_congr (h : s.Shows d o) {f g : DocumentId → DocumentId} (hfg : f d = g d) : s.renamed f = s.renamed g := by
  have hdocument : f s.document = g s.document := by rw [h.document, hfg]
  have hnodes : s.nodes.map (Node.renamed f) = s.nodes.map (Node.renamed g) := by
    rw [Slots.map, Slots.map]
    congr 1
    refine Array.map_congr_left ?_
    intro slot hslot
    obtain ⟨i, hi⟩ := Array.mem_iff_getElem?.mp hslot
    refine congrArg (Slot.mk slot.generation) (Option.map_congr ?_)
    intro node hnode
    have hfound : s.node? ⟨s.document, ⟨i, slot.generation⟩⟩ = some node := by
      rw [node?, if_pos rfl, Slots.get?, hi]
      exact (if_pos rfl).trans hnode
    exact Node.renamed_congr hfg (h.node_of hfound)
  rw [renamed, renamed, hdocument, hnodes]

end Store.Shows

namespace Document

/-- The document has the slots of another one, with the same contents, generations and free slots, under its own identity. -/
def Replicates (r d : Document) : Prop :=
  r.store = d.store.renamed fun _ => r.id

variable {r d d' : Document} {o : Outline}

/-- A replica has the same tree. -/
theorem Replicates.forest_eq (h : r.Replicates d) (hshows : d.store.Shows d.id o) : r.forest = d.forest := by
  have hswap : r.store = d.store.renamed (Equiv.swap d.id r.id) :=
    h.trans (hshows.renamed_congr (Equiv.swap_apply_left d.id r.id).symm)
  have hinjective := (Equiv.swap d.id r.id).injective
  rw [Document.forest, Document.outline, Document.root, hswap, Store.root_renamed, Store.childrenOf_renamed hinjective,
    Store.outline_renamed hinjective, Outline.forest_renamed]
  rfl

/-- Edits that are carried out on a document are carried out on a replica with the same effect: on the handles of the document,
renaming every document is the same as exchanging two, which loses nothing. -/
theorem Replicates.commit (h : r.Replicates d) (hshows : d.store.Shows d.id o) {edits : List Edit} {changes : List Change}
    (hcommit : d.commit edits = .ok (d', changes)) :
    ∃ r', r.commit edits = .ok (r', changes.map (Change.renamed fun _ => r.id)) ∧ r'.id = r.id ∧ r'.Replicates d' := by
  obtain ⟨store, happly, rfl⟩ := commit_eq_ok hcommit
  obtain ⟨o', hshows', _⟩ := hshows.applyAll_eq_ok happly
  have hreported := hshows.reportedAll_of_applyAll happly
  have hfg : Equiv.swap d.id r.id d.id = r.id := Equiv.swap_apply_left d.id r.id
  have hbefore : r.store = d.store.renamed (Equiv.swap d.id r.id) := h.trans (hshows.renamed_congr hfg.symm)
  have hafter : store.renamed (Equiv.swap d.id r.id) = store.renamed fun _ => r.id := hshows'.renamed_congr hfg
  have hchanges : changes.map (Change.renamed (Equiv.swap d.id r.id)) = changes.map (Change.renamed fun _ => r.id) :=
    List.map_congr_left fun c hc => Change.renamed_congr hfg (hshows.changes_of hreported c hc)
  have hmirror := Store.mirrors_applyAll (Equiv.swap d.id r.id).injective d.store 0 edits _ happly
  rw [← hbefore, Prod.map, hafter, hchanges] at hmirror
  refine ⟨{ r with store := store.renamed fun _ => r.id }, ?_, rfl, rfl⟩
  simp only [Document.commit, hmirror]

end Document

end LiveMarkup
