import LiveMarkup.Proofs.Mirror
import LiveMarkup.Proofs.Shows
import LiveMarkup.Proofs.Walk

/-!
# Following an edit

What an edit leaves behind lasts, in a later store, if the nodes that it has touched or made are still there as it left them
(`Outline.Lasting`). A mirror that shows a document before the edit follows the change and shows it after the edit, although
it reads only the later store (`Mirror.Holds.follow`).
-/

namespace LiveMarkup

/-! ## The mirror of a store -/

namespace Outline

/-- The root, with the outline below it, as a mirror has them. -/
def mirroredRoot (o : Outline) : Multiset (Nat × Mirrored) :=
  (0, ⟨.root, o.indices⟩) ::ₘ o.mirrored

end Outline

namespace Store

variable {s : Store} {d : DocumentId} {o : Outline}

theorem mirroredAt?_eq (s : Store) (i : Nat) :
    s.mirroredAt? i = (s.nodes.entryAt i).map fun e => s.mirroredOf e.2 := by
  rw [mirroredAt?, Slots.entryAt]
  cases s.nodes.slots[i]? with
  | none => rfl
  | some slot => cases h : slot.value <;> simp [h]

/-- The nodes that a store holds for an outline, as a mirror has them. -/
theorem Holds.map_mirroredOf {N : Multiset (NodeRef × Node)} {A : Multiset (AttributeRef × Attribute)}
    (h : s.Holds d N A) (hattributes : o.attributeEntries ⊆ A) (p : NodeRef) :
    (o.entries p).map (fun e => (e.1.index, s.mirroredOf e.2)) = o.mirrored := by
  induction o generalizing p with
  | nil => rfl
  | leaf n text next ih =>
    rw [Outline.entries, Outline.mirrored, Multiset.map_cons, ih hattributes]
    rfl
  | element n name pairs children next ihc ihn =>
    have hpairs : ↑pairs ⊆ A := fun e he => hattributes (Multiset.mem_add.mpr (Or.inl he))
    have hbelow : children.attributeEntries ⊆ A := fun e he =>
      hattributes (Multiset.mem_add.mpr (Or.inr (Multiset.mem_add.mpr (Or.inl he))))
    have hnext : next.attributeEntries ⊆ A := fun e he =>
      hattributes (Multiset.mem_add.mpr (Or.inr (Multiset.mem_add.mpr (Or.inr he))))
    have hnode : s.mirroredOf ⟨.element name (pairs.map Prod.fst), some p, children.tops⟩ =
        ⟨.element name pairs, children.indices⟩ := by
      rw [mirroredOf, faceOf, h.filterMap_attribute? hpairs]
      rfl
    rw [Outline.entries, Outline.mirrored, Multiset.map_cons, Multiset.map_add, ihc hbelow, ihn hnext, hnode]

/-- The nodes of a store that shows an outline, as a mirror has them. -/
theorem Shows.map_mirroredOf (h : s.Shows d o) :
    s.nodes.entries.map (fun e => (e.1.index, s.mirroredOf e.2)) = o.mirroredRoot := by
  have hentries := congrArg (Multiset.map fun e => (e.1.index, s.mirroredOf e.2)) h.nodes_eq
  rw [Multiset.map_map, Multiset.map_cons, Holds.map_mirroredOf h (Multiset.Subset.refl _)] at hentries
  exact hentries

/-- There is one node in a slot. -/
theorem Shows.nodup_mirroredRoot (h : s.Shows d o) : (o.mirroredRoot.map Prod.fst).Nodup := by
  rw [← h.map_mirroredOf, Multiset.map_map]
  have hentries : s.nodes.entries.Nodup := .of_map Prod.fst s.nodes.nodup_keys
  refine hentries.map_on ?_
  rintro ⟨j, a⟩ ha ⟨k, b⟩ hb hindex
  have hj := Slots.entryAt_eq_some_iff.mpr ⟨rfl, Slots.mem_entries.mp ha⟩
  have hk := Slots.entryAt_eq_some_iff.mpr ⟨hindex, Slots.mem_entries.mp hb⟩
  exact Option.some_inj.mp (hj.symm.trans hk)

end Store

/-- What a mirror has in a slot is what the document has there. -/
theorem Document.lookup_mirror (d : Document) (i : Nat) : d.mirror.lookup i = d.store.mirroredAt? i := by
  have hkeys : ((List.range d.store.nodes.slots.size).filterMap fun i =>
      (d.store.mirroredAt? i).map (Sigma.mk (β := fun _ : Nat => Mirrored) i)).NodupKeys := by
    rw [List.nodupKeys_iff_pairwise, List.pairwise_filterMap]
    refine List.nodup_range.imp ?_
    rintro i j hij a ha b hb
    obtain ⟨_, _, rfl⟩ := Option.map_eq_some_iff.mp ha
    obtain ⟨_, _, rfl⟩ := Option.map_eq_some_iff.mp hb
    exact hij
  refine Option.ext fun node => ?_
  rw [mirror, Finmap.dlookup_list_toFinmap, ← Option.mem_def, List.mem_dlookup_iff hkeys, List.mem_filterMap]
  constructor
  · rintro ⟨j, _, hj⟩
    obtain ⟨other, hother, he⟩ := Option.map_eq_some_iff.mp hj
    cases he
    exact hother
  · intro hi
    refine ⟨i, List.mem_range.mpr ?_, by rw [hi]; rfl⟩
    rw [Store.mirroredAt?, Option.map_eq_some_iff] at hi
    obtain ⟨_, hslot, _⟩ := hi
    obtain ⟨slot, hslot, _⟩ := Option.bind_eq_some_iff.mp hslot
    exact (Array.getElem?_eq_some_iff.mp hslot).1

/-- The mirror of a document shows the outline that its store shows. -/
theorem Document.mirror_holds {d : Document} {id : DocumentId} {o : Outline} (h : d.store.Shows id o) :
    d.mirror.Holds o.mirroredRoot := by
  refine ⟨h.nodup_mirroredRoot, ?_⟩
  intro i node
  rw [d.lookup_mirror, Store.mirroredAt?_eq, ← h.map_mirroredOf, Multiset.mem_map, Option.map_eq_some_iff]
  constructor
  · rintro ⟨⟨k, a⟩, hentry, rfl⟩
    obtain ⟨rfl, hget⟩ := Slots.entryAt_eq_some_iff.mp hentry
    exact ⟨(k, a), Slots.mem_entries.mpr hget, rfl⟩
  · rintro ⟨⟨k, a⟩, hmem, he⟩
    cases he
    exact ⟨(k, a), Slots.entryAt_eq_some_iff.mpr ⟨rfl, Slots.mem_entries.mp hmem⟩, rfl⟩

/-! ## Places in a mirror -/

namespace Outline

variable {o b : Outline} {top c : NodeRef} {p : Path} {before after : List OutlineTree} {t : OutlineTree}

theorem indices_ofList (l : List OutlineTree) : (ofList l).indices = l.map fun t => t.node.index := by
  rw [indices, tops_ofList, List.map_map]
  rfl

/-- The slots of nodes are a matter of the nodes at the top. -/
theorem indices_exchange (before after : List OutlineTree) {t t' : OutlineTree} (h : t'.node = t.node) :
    (ofList (before ++ t' :: after)).indices = (ofList (before ++ t :: after)).indices := by
  rw [indices_ofList, indices_ofList, List.map_append, List.map_append, List.map_cons, List.map_cons, h]

/-- If there is one node in a slot, the nodes at the top are in different ones. -/
theorem nodup_indices {M : Multiset (Nat × Mirrored)} (h : ((o.mirrored + M).map Prod.fst).Nodup) : o.indices.Nodup := by
  rw [Multiset.map_add, map_fst_mirrored] at h
  exact (Multiset.coe_nodup.mp (Multiset.nodup_add.mp h).1).sublist (o.tops_sublist_nodes.map NodeRef.index)

/-- Of nodes in different slots, one is taken out by its slot. -/
theorem erase_indices (h : (ofList (before ++ t :: after)).indices.Nodup) :
    (ofList (before ++ t :: after)).indices.erase t.node.index = (ofList (before ++ after)).indices := by
  rw [indices_ofList, List.map_append, List.map_cons] at h ⊢
  have hfirst : t.node.index ∉ before.map fun u => u.node.index := by
    intro hmem
    exact (List.nodup_append.mp h).2.2 _ hmem _ List.mem_cons_self rfl
  rw [List.erase_append_right _ hfirst, List.erase_cons_head, indices_ofList, List.map_append]

/-- Of what a mirror has of an outline and the node it is below, the node at a place with everything below it is one part.
The rest stays as it is when another outline is put there. -/
theorem mirrored_focus (h : o.place? top p = some (c, b)) (face : Face) :
    ∃ (face' : Face) (M : Multiset (Nat × Mirrored)), ∀ new : Outline,
      (top.index, (⟨face, (o.setBelow p new).indices⟩ : Mirrored)) ::ₘ (o.setBelow p new).mirrored =
        (c.index, ⟨face', new.indices⟩) ::ₘ (new.mirrored + M) := by
  induction p generalizing o top face with
  | nil =>
    cases h
    refine ⟨face, 0, ?_⟩
    intro new
    rw [setBelow, Multiset.add_zero]
  | cons i p ih =>
    obtain ⟨before, after, n, name, attributes, children, hlist, rfl, hchildren⟩ := place?_cons_eq_some h
    obtain ⟨face', M, hfocus⟩ := ih hchildren (.element name attributes)
    refine ⟨face', (top.index, ⟨face, o.indices⟩) ::ₘ ((ofList before).mirrored + (ofList after).mirrored + M), ?_⟩
    intro new
    have hindices : (o.setBelow (before.length :: p) new).indices = o.indices := by
      rw [setBelow_cons hlist, ← ofList_toList o, hlist]
      exact indices_exchange before after rfl
    rw [hindices, setBelow_cons hlist, mirrored_ofList_append, ofList_cons, mirrored_cons, OutlineTree.mirrored,
      OutlineTree.node, OutlineTree.face, OutlineTree.below, hfocus new]
    rw [Multiset.cons_add, Multiset.add_cons, Multiset.add_cons, Multiset.cons_swap]
    congr 2
    abel

/-- At a place below the root. -/
theorem mirroredRoot_focus {d : DocumentId} (h : o.place? (Store.rootOf d) p = some (c, b)) :
    ∃ (face : Face) (M : Multiset (Nat × Mirrored)), ∀ new : Outline,
      (o.setBelow p new).mirroredRoot = (c.index, ⟨face, new.indices⟩) ::ₘ (new.mirrored + M) :=
  mirrored_focus h .root

/-- One tree with everything below it is one part of what a mirror has. The rest stays as it is when there is another tree in
its place with the same node at the top. -/
theorem mirroredRoot_focus_tree {d : DocumentId}
    (h : o.place? (Store.rootOf d) p = some (c, ofList (before ++ t :: after))) :
    ∃ R : Multiset (Nat × Mirrored), ∀ t' : OutlineTree, t'.node = t.node →
      (o.setBelow p (ofList (before ++ t' :: after))).mirroredRoot = t'.mirrored + R := by
  obtain ⟨face, M, hfocus⟩ := mirroredRoot_focus h
  refine ⟨(c.index, ⟨face, (ofList (before ++ t :: after)).indices⟩) ::ₘ
    ((ofList before).mirrored + (ofList after).mirrored + M), ?_⟩
  intro t' hnode
  rw [hfocus, indices_exchange before after hnode, mirrored_ofList_append, ofList_cons, mirrored_cons, Multiset.add_cons]
  congr 1
  abel

end Outline

/-! ## What is read off a later document -/

namespace Store.Carries

variable {s : Store} {p : NodeRef} {next : Outline} {t : OutlineTree}

/-- What a host shows of the first tree's node. -/
theorem faceOf_payload (h : s.Carries p (.cons t next)) : s.faceOf t.payload = t.face := by
  cases t with
  | leaf n text => rfl
  | element n name pairs below =>
    obtain ⟨d, N, A, hs, _, hA⟩ := h
    have hpairs : ↑pairs ⊆ A := by
      intro e he
      refine Multiset.mem_of_le hA ?_
      rw [Outline.attributeEntries_cons, OutlineTree.attributeEntries]
      exact Multiset.mem_add.mpr (Or.inl (Multiset.mem_add.mpr (Or.inl he)))
    rw [OutlineTree.payload, faceOf, hs.filterMap_attribute? hpairs, OutlineTree.face]

end Store.Carries

namespace Document

variable {d : Document} {p : NodeRef} {t : OutlineTree}

theorem outlineFrom_of_carries (h : d.store.Carries p (.ofList [t])) : d.outlineFrom t.node = .ok (.ofList [t]) := by
  have htops := h.outline_tops
  rw [Outline.tops_ofList] at htops
  simp only [outlineFrom, node, h.node?, bind, Except.bind]
  exact congrArg Except.ok htops

theorem face_of_carries (h : d.store.Carries p (.ofList [t])) : d.face t.node = .ok t.face := by
  simp only [face, get_of_carries h, bind, Except.bind, h.faceOf_payload]
  rfl

theorem outlineBelow_of_carries (h : d.store.Carries p (.ofList [t])) : d.outlineBelow t.node = .ok t.below := by
  simp only [outlineBelow, children_of_carries h, bind, Except.bind, h.below.outline_tops]
  rfl

theorem descendants_of_carries (h : d.store.Carries p (.ofList [t])) : d.descendants t.node = .ok t.below.nodes := by
  rw [descendants, outlineBelow_of_carries h]
  rfl

end Document

/-! ## One edit -/

namespace Outline

/-- What an edit leaves behind, as reported by a change, is still there in a later store. -/
inductive Lasting (last : Document) (top : NodeRef) (o : Outline) : Change → Outline → Prop
  /-- The node is shown as the edit has left it. -/
  | updated {p : Path} {c : NodeRef} {before after : List OutlineTree} {t : OutlineTree} (t' : OutlineTree)
      (place : o.place? top p = some (c, ofList (before ++ t :: after))) (node : t'.node = t.node)
      (below : t'.below = t.below) (shown : last.face t.node = .ok t'.face) :
      Lasting last top o (.updated t.node) (o.setBelow p (ofList (before ++ t' :: after)))
  /-- The tree is there below its parent. -/
  | added {p : Path} {c : NodeRef} {b : Outline} (t : OutlineTree) (place : o.place? top p = some (c, b))
      (parent : (last.store.node? c).isSome) (carried : last.store.Carries c (ofList [t])) :
      Lasting last top o (.added t.node c) (o.setBelow p (ofList (b.toList ++ [t])))
  /-- The parent is there. -/
  | removed {p : Path} {c : NodeRef} {before after : List OutlineTree} {t : OutlineTree}
      (place : o.place? top p = some (c, ofList (before ++ t :: after))) (parent : (last.store.node? c).isSome) :
      Lasting last top o (.removed t.node c) (o.setBelow p (ofList (before ++ after)))
  /-- The new tree is there below its parent. -/
  | replaced {p : Path} {c : NodeRef} {before after : List OutlineTree} {t : OutlineTree} (t' : OutlineTree)
      (place : o.place? top p = some (c, ofList (before ++ t :: after))) (node : t'.node = t.node)
      (parent : (last.store.node? c).isSome) (carried : last.store.Carries c (ofList [t'])) :
      Lasting last top o (.replaced t.node c) (o.setBelow p (ofList (before ++ t' :: after)))

end Outline

namespace Mirror.Holds

variable {m : Mirror} {last : Document} {d : DocumentId} {o : Outline} {p : Path} {c : NodeRef}
  {before after : List OutlineTree} {t : OutlineTree}

section AtTree

variable (h : m.Holds o.mirroredRoot) (place : o.place? (Store.rootOf d) p = some (c, .ofList (before ++ t :: after)))

include h place

/-- A node is shown as it is in the end. -/
theorem follow_updated (t' : OutlineTree) (node : t'.node = t.node) (below : t'.below = t.below)
    (shown : last.face t.node = .ok t'.face) :
    ∃ m', m.follow last (.updated t.node) = .ok m' ∧
      m'.Holds (o.setBelow p (.ofList (before ++ t' :: after))).mirroredRoot := by
  obtain ⟨R, hfocus⟩ := Outline.mirroredRoot_focus_tree place
  rw [← Outline.setBelow_self place, hfocus t rfl, OutlineTree.mirrored, Multiset.cons_add] at h
  obtain ⟨m', hchange, hm'⟩ := h.change fun node => { node with face := t'.face }
  refine ⟨m', ?_, ?_⟩
  · simp only [Mirror.follow, shown, MirrorFault.ofDocument, bind, Except.bind, hchange]
  · rw [hfocus t' node, OutlineTree.mirrored, node, below, Multiset.cons_add]
    exact hm'

/-- A node is taken off its parent and deleted with everything below it. -/
theorem follow_removed : ∃ m', m.follow last (.removed t.node c) = .ok m' ∧
    m'.Holds (o.setBelow p (.ofList (before ++ after))).mirroredRoot := by
  obtain ⟨face, M, hfocus⟩ := Outline.mirroredRoot_focus place
  rw [← Outline.setBelow_self place, hfocus] at h
  obtain ⟨m₁, hchange, h₁⟩ := h.change fun node => { node with children := node.children.erase t.node.index }
  have hindices : (Outline.ofList (before ++ t :: after)).indices.erase t.node.index =
      (Outline.ofList (before ++ after)).indices := by
    have hnodup := h.nodup
    rw [Multiset.map_cons] at hnodup
    exact Outline.erase_indices (Outline.nodup_indices (Multiset.nodup_cons.mp hnodup).2)
  have hrest : (c.index, (⟨face, (Outline.ofList (before ++ t :: after)).indices.erase t.node.index⟩ : Mirrored)) ::ₘ
      ((Outline.ofList (before ++ t :: after)).mirrored + M) =
      (Outline.ofList [t]).mirrored + (o.setBelow p (.ofList (before ++ after))).mirroredRoot := by
    rw [hfocus, hindices, Outline.mirrored_ofList_append, Outline.mirrored_ofList_append, Outline.ofList_cons,
      Outline.ofList_cons, Outline.mirrored_cons, Outline.mirrored_cons, Outline.ofList_nil, Outline.mirrored,
      Multiset.add_cons]
    congr 1
    abel
  rw [hrest] at h₁
  obtain ⟨m₂, hdelete, h₂⟩ := h₁.delete
  rw [Outline.indices_ofList] at hdelete
  refine ⟨m₂, ?_, h₂⟩
  simp only [Mirror.follow, bind, Except.bind, hchange]
  exact hdelete

/-- What is below a node is deleted, and the tree that is there in the end is copied. -/
theorem follow_replaced (t' : OutlineTree) (node : t'.node = t.node) (carried : last.store.Carries c (.ofList [t']))
    (hnodup : ((o.setBelow p (.ofList (before ++ t' :: after))).mirroredRoot.map Prod.fst).Nodup) :
    ∃ m', m.follow last (.replaced t.node c) = .ok m' ∧
      m'.Holds (o.setBelow p (.ofList (before ++ t' :: after))).mirroredRoot := by
  obtain ⟨R, hfocus⟩ := Outline.mirroredRoot_focus_tree place
  rw [← Outline.setBelow_self place, hfocus t rfl, OutlineTree.mirrored, Multiset.cons_add] at h
  rw [hfocus t' node, OutlineTree.mirrored, Multiset.cons_add, node, ← Multiset.add_cons] at hnodup ⊢
  have hface : last.face t.node = .ok t'.face := node ▸ Document.face_of_carries carried
  have hbelow : last.outlineBelow t.node = .ok t'.below := node ▸ Document.outlineBelow_of_carries carried
  have hnode := h.nodeAt_eq
  rw [← Multiset.add_cons] at h
  obtain ⟨m₁, hdelete, h₁⟩ := h.delete
  obtain ⟨m₂, hchange, h₂⟩ := h₁.change fun _ => ⟨t'.face, t'.below.indices⟩
  obtain ⟨m₃, hcopy, h₃⟩ := h₂.copy hnodup
  refine ⟨m₃, ?_, h₃⟩
  simp only [Mirror.follow, hface, hbelow, MirrorFault.ofDocument, bind, Except.bind, hnode, hdelete, hchange]
  exact hcopy

end AtTree

/-- A tree that is there in the end is copied as the last below its parent. -/
theorem follow_added {b : Outline} (h : m.Holds o.mirroredRoot) (place : o.place? (Store.rootOf d) p = some (c, b))
    (carried : last.store.Carries c (.ofList [t]))
    (hnodup : ((o.setBelow p (.ofList (b.toList ++ [t]))).mirroredRoot.map Prod.fst).Nodup) :
    ∃ m', m.follow last (.added t.node c) = .ok m' ∧
      m'.Holds (o.setBelow p (.ofList (b.toList ++ [t]))).mirroredRoot := by
  obtain ⟨face, M, hfocus⟩ := Outline.mirroredRoot_focus place
  rw [← Outline.setBelow_self place, hfocus] at h
  have hindices : (Outline.ofList (b.toList ++ [t])).indices = b.indices ++ [t.node.index] := by
    rw [Outline.indices_ofList, List.map_append, ← Outline.indices_ofList, Outline.ofList_toList]
    rfl
  have hcopied : (o.setBelow p (.ofList (b.toList ++ [t]))).mirroredRoot = (Outline.ofList [t]).mirrored +
      (c.index, ⟨face, b.indices ++ [t.node.index]⟩) ::ₘ (b.mirrored + M) := by
    rw [hfocus, hindices, Outline.mirrored_ofList_append, Outline.ofList_toList, Multiset.add_cons]
    congr 1
    abel
  rw [hcopied] at hnodup ⊢
  obtain ⟨m₁, hchange, h₁⟩ := h.change fun node => { node with children := node.children ++ [t.node.index] }
  obtain ⟨m₂, hcopy, h₂⟩ := h₁.copy hnodup
  refine ⟨m₂, ?_, h₂⟩
  simp only [Mirror.follow, Document.outlineFrom_of_carries carried, MirrorFault.ofDocument, bind, Except.bind, hchange]
  exact hcopy

/-- A mirror follows an edit, given a later document in which what the edit has left behind is still there. -/
theorem follow {s' : Store} {o' : Outline} {change : Change} (h : m.Holds o.mirroredRoot) (h' : s'.Shows d o')
    (hlasting : o.Lasting last (Store.rootOf d) change o') :
    ∃ m', m.follow last change = .ok m' ∧ m'.Holds o'.mirroredRoot := by
  cases hlasting with
  | updated t' place node below shown => exact h.follow_updated place t' node below shown
  | added t place parent carried => exact h.follow_added place carried h'.nodup_mirroredRoot
  | removed place parent => exact h.follow_removed place
  | replaced t' place node parent carried => exact h.follow_replaced place t' node carried h'.nodup_mirroredRoot

end Mirror.Holds

end LiveMarkup
