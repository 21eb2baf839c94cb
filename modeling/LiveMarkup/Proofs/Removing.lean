import LiveMarkup.Proofs.Building

/-!
# Removing what is below a node

The nodes of an outline are freed in document order, with their attributes, and nothing else is touched
(`Holds.freeSubtrees`). No node and no attribute is met twice or found missing, since the store holds each of them once.
-/

namespace LiveMarkup

/-- Nodes that are linked to a parent, each of them once and none seen before, pass as its children. -/
theorem Store.checkChildren_eq_ok {s : Store} {parent : NodeRef} {seen children : List NodeRef}
    (hlinked : ∀ n ∈ children, ∃ node, s.node n = .ok node ∧ node.parent = some parent) (hnodup : children.Nodup)
    (hseen : ∀ n ∈ children, n ∉ seen) : s.checkChildren parent seen children = .ok () := by
  induction children generalizing seen with
  | nil => rfl
  | cons n rest ih =>
    obtain ⟨node, hnode, hparent⟩ := hlinked n List.mem_cons_self
    obtain ⟨hn, hrest⟩ := List.nodup_cons.mp hnodup
    have hnext : s.checkChildren parent (n :: seen) rest = .ok () := by
      refine ih (fun m hm => hlinked m (List.mem_cons_of_mem n hm)) hrest ?_
      intro m hm hmem
      rcases List.mem_cons.mp hmem with rfl | hmem
      · exact hn hm
      · exact hseen m (List.mem_cons_of_mem n hm) hmem
    rw [Store.checkChildren, hnode]
    change (if node.parent ≠ some parent then _ else if n ∈ seen then _ else _) = _
    rw [if_neg (fun hne => hne hparent), if_neg (hseen n List.mem_cons_self)]
    exact hnext

/-- Taking one member out of a list without repetitions leaves what was before it and what was after it. -/
theorem filter_ne_of_nodup {α : Type} [DecidableEq α] {l m : List α} {a : α} (h : (l ++ a :: m).Nodup) :
    (l ++ a :: m).filter (· ≠ a) = l ++ m := by
  have hl : a ∉ l := fun ha => (List.nodup_append.mp h).2.2 a ha a List.mem_cons_self rfl
  have herase := h.erase_eq_filter a
  rw [List.erase_append_right _ hl, List.erase_cons_head] at herase
  rw [herase]
  refine List.filter_congr ?_
  intro b _
  by_cases hb : b = a <;> simp [hb]

namespace Store.Holds

variable {s : Store} {d : DocumentId} {N : Multiset (NodeRef × Node)} {A : Multiset (AttributeRef × Attribute)}

/-- The tops of an outline that a store holds are all different. -/
theorem nodup_tops {o : Outline} {c p : NodeRef} {node : Node} (h : s.Holds d ((c, node) ::ₘ (o.entries p + N)) A) :
    o.tops.Nodup := by
  have hall := h.nodup_nodes
  rw [Multiset.map_cons, Multiset.map_add, Outline.map_fst_entries] at hall
  have hnodes := (Multiset.nodup_add.mp (Multiset.nodup_cons.mp hall).2).1
  exact (Multiset.coe_nodup.mp hnodes).sublist o.tops_sublist_nodes

/-- A node is freed together with its attributes, and what was below it is next. -/
theorem freeSubtrees_cons {n : NodeRef} {node : Node} {pairs : List (AttributeRef × Attribute)}
    (h : s.Holds d ((n, node) ::ₘ N) (pairs + A)) (hroot : n ≠ rootOf d)
    (hpairs : node.payload.attributes = pairs.map Prod.fst) (rest : List NodeRef) :
    ∃ s' : Store, s.freeSubtrees (n :: rest) = s'.freeSubtrees (node.children ++ rest) ∧ s'.Holds d N A := by
  obtain ⟨s₁, hfree, h₁⟩ := h.freeNode hroot
  obtain ⟨s₂, hclear, h₂⟩ := h₁.freeAttributes
  refine ⟨s₂, ?_, h₂⟩
  rw [Store.freeSubtrees]
  split
  · rename_i e he
    rw [hfree] at he
    cases he
  · rename_i s' node' he
    rw [hfree] at he
    cases he
    rw [hpairs]
    split
    · rename_i e he
      rw [hclear] at he
      cases he
    · rename_i s'' he
      rw [hclear] at he
      cases he
      rfl

/-- The nodes of an outline are freed with their attributes before whatever else is to be freed. -/
theorem freeSubtrees (o : Outline) (parent : NodeRef) (h : s.Holds d (o.entries parent + N) (o.attributeEntries + A))
    (hroot : rootOf d ∉ o.nodes) (rest : List NodeRef) :
    ∃ s' : Store, s.freeSubtrees (o.tops ++ rest) = s'.freeSubtrees rest ∧ s'.Holds d N A := by
  induction o generalizing s parent N A rest with
  | nil => exact ⟨s, rfl, by simpa [Outline.entries, Outline.attributeEntries] using h⟩
  | leaf n text next ih =>
    simp only [Outline.nodes, List.mem_cons, not_or] at hroot
    rw [Outline.entries, Outline.attributeEntries, Multiset.cons_add] at h
    rw [← Multiset.zero_add (next.attributeEntries + A), ← Multiset.coe_nil] at h
    obtain ⟨s₁, hs₁, h₁⟩ := h.freeSubtrees_cons (Ne.symm hroot.1) rfl (next.tops ++ rest)
    obtain ⟨s₂, hs₂, h₂⟩ := ih parent h₁ hroot.2 rest
    exact ⟨s₂, hs₁.trans hs₂, h₂⟩
  | element n name pairs children next ihc ihn =>
    simp only [Outline.nodes, List.mem_cons, List.mem_append, not_or] at hroot
    rw [Outline.entries, Outline.attributeEntries, Multiset.cons_add, Multiset.add_assoc, Multiset.add_assoc,
      Multiset.add_assoc] at h
    obtain ⟨s₁, hs₁, h₁⟩ := h.freeSubtrees_cons (Ne.symm hroot.1) rfl (next.tops ++ rest)
    obtain ⟨s₂, hs₂, h₂⟩ := ihc n h₁ hroot.2.1 (next.tops ++ rest)
    obtain ⟨s₃, hs₃, h₃⟩ := ihn parent h₂ hroot.2.2 rest
    exact ⟨s₃, (hs₁.trans hs₂).trans hs₃, h₃⟩

/-- The trees of an outline can be freed one after the other. -/
theorem freeEach (o : Outline) (parent : NodeRef) (h : s.Holds d (o.entries parent + N) (o.attributeEntries + A))
    (hroot : rootOf d ∉ o.nodes) : ∃ s', s.freeEach o.tops = .ok s' ∧ s'.Holds d N A := by
  obtain ⟨trees, rfl⟩ : ∃ trees, o = Outline.ofList trees := ⟨o.toList, o.ofList_toList.symm⟩
  induction trees generalizing s with
  | nil => exact ⟨s, rfl, by simpa [Outline.entries, Outline.attributeEntries] using h⟩
  | cons t trees ih =>
    have hsplit : Outline.ofList (t :: trees) = Outline.ofList ([t] ++ trees) := rfl
    rw [hsplit, Outline.nodes_ofList_append, List.mem_append, not_or] at hroot
    rw [hsplit, Outline.entries_ofList_append, Outline.attributeEntries_ofList_append, Multiset.add_assoc,
      Multiset.add_assoc] at h
    obtain ⟨s₁, hs₁, h₁⟩ := h.freeSubtrees (Outline.ofList [t]) parent hroot.1 []
    obtain ⟨s₂, hs₂, h₂⟩ := ih h₁ hroot.2
    refine ⟨s₂, ?_, h₂⟩
    have hdone : s₁.freeSubtrees [] = .ok s₁ := by rw [Store.freeSubtrees]
    rw [Outline.tops_ofList, List.append_nil, hdone] at hs₁
    rw [Outline.tops_ofList] at hs₂
    rw [Outline.tops_ofList, List.map_cons, Store.freeEach]
    rw [List.map_cons, List.map_nil] at hs₁
    rw [hs₁]
    exact hs₂

/-- A node can be given a part of its children as its new children; the others stay in the store, not listed. -/
theorem setChildren {c : NodeRef} {payload : Payload} {above : Option NodeRef} {trees kept : List OutlineTree}
    (h : s.Holds d ((c, ⟨payload, above, (Outline.ofList trees).tops⟩) ::ₘ ((Outline.ofList trees).entries c + N)) A)
    (hc : payload.isContainer = true) (hsub : kept.Sublist trees) :
    ∃ s', s.setChildren c (kept.map OutlineTree.node) = .ok s' ∧
      s'.Holds d ((c, ⟨payload, above, (Outline.ofList kept).tops⟩) ::ₘ ((Outline.ofList trees).entries c + N)) A := by
  have hnode : s.node c = .ok ⟨payload, above, (Outline.ofList trees).tops⟩ := h.node_eq (Multiset.mem_cons_self _ _)
  have hnodup : (trees.map OutlineTree.node).Nodup := by
    rw [← Outline.tops_ofList]
    exact h.nodup_tops
  have hcheck : s.checkChildren c [] (kept.map OutlineTree.node) = .ok () := by
    refine Store.checkChildren_eq_ok ?_ (hnodup.sublist (hsub.map _)) (fun _ _ => List.not_mem_nil)
    intro n hn
    obtain ⟨t, ht, rfl⟩ := List.mem_map.mp hn
    have hmem : (t.node, ⟨t.payload, some c, t.below.tops⟩) ∈ (Outline.ofList trees).entries c :=
      Outline.mem_entries_of_mem (by rw [Outline.toList_ofList]; exact hsub.mem ht) c
    exact ⟨_, h.node_eq (Multiset.mem_cons_of_mem (Multiset.mem_add.mpr (Or.inl hmem))), rfl⟩
  refine ⟨s.modifyNode c fun node => { node with children := kept.map OutlineTree.node }, ?_, ?_⟩
  · simp only [Store.setChildren, hnode]
    change (if payload.isContainer = true then _ else _) = _
    rw [if_pos hc, hcheck]
    rfl
  · have hs := h.modifyNode fun node => { node with children := kept.map OutlineTree.node }
    rw [Outline.tops_ofList kept]
    exact hs

/-- A tree below a node can be removed: its entries go, and the node no longer lists it. -/
theorem remove {c : NodeRef} {payload : Payload} {above : Option NodeRef} {before after : List OutlineTree}
    {t : OutlineTree}
    (h : s.Holds d ((c, ⟨payload, above, (Outline.ofList (before ++ t :: after)).tops⟩) ::ₘ
      ((Outline.ofList (before ++ t :: after)).entries c + N)) ((Outline.ofList (before ++ t :: after)).attributeEntries + A))
    (hc : payload.isContainer = true) (hroot : rootOf d ∉ (Outline.ofList [t]).nodes) :
    ∃ s', s.remove t.node = .ok (s', c) ∧
      s'.Holds d ((c, ⟨payload, above, (Outline.ofList (before ++ after)).tops⟩) ::ₘ
        ((Outline.ofList (before ++ after)).entries c + N)) ((Outline.ofList (before ++ after)).attributeEntries + A) := by
  have hnode : s.node t.node = .ok ⟨t.payload, some c, t.below.tops⟩ := by
    refine h.node_eq (Multiset.mem_cons_of_mem (Multiset.mem_add.mpr (Or.inl ?_)))
    exact Outline.mem_entries_of_mem (by simp) c
  have habove : s.node c = .ok ⟨payload, above, (Outline.ofList (before ++ t :: after)).tops⟩ :=
    h.node_eq (Multiset.mem_cons_self _ _)
  have hne : t.node ≠ rootOf d := by
    rintro he
    refine hroot ?_
    rw [← he]
    cases t <;> simp [Outline.cons, Outline.nodes, OutlineTree.node]
  have hfilter : (Outline.ofList (before ++ t :: after)).tops.filter (· ≠ t.node) =
      (before ++ after).map OutlineTree.node := by
    have hnodup := h.nodup_tops
    rw [Outline.tops_ofList, List.map_append, List.map_cons] at hnodup ⊢
    rw [filter_ne_of_nodup hnodup, List.map_append]
  have hsub : (before ++ after).Sublist (before ++ t :: after) :=
    (List.Sublist.refl before).append (List.sublist_cons_self t after)
  obtain ⟨s₁, hset, h₁⟩ := h.setChildren hc hsub
  have hentries : (Outline.ofList (before ++ t :: after)).entries c =
      (Outline.ofList [t]).entries c + (Outline.ofList (before ++ after)).entries c := by
    have hcons : before ++ t :: after = before ++ ([t] ++ after) := rfl
    rw [hcons, Outline.entries_ofList_append, Outline.entries_ofList_append, Outline.entries_ofList_append]
    abel
  have hattributes : (Outline.ofList (before ++ t :: after)).attributeEntries =
      (Outline.ofList [t]).attributeEntries + (Outline.ofList (before ++ after)).attributeEntries := by
    have hcons : before ++ t :: after = before ++ ([t] ++ after) := rfl
    rw [hcons, Outline.attributeEntries_ofList_append, Outline.attributeEntries_ofList_append,
      Outline.attributeEntries_ofList_append]
    abel
  rw [hentries, hattributes, Multiset.add_assoc, Multiset.add_assoc, ← Multiset.add_cons] at h₁
  obtain ⟨s₂, hfree, h₂⟩ := h₁.freeSubtrees (Outline.ofList [t]) c hroot []
  rw [Store.freeSubtrees, Outline.tops_ofList, List.append_nil] at hfree
  refine ⟨s₂, ?_, h₂⟩
  have hshorter : ¬ ((before ++ after).map OutlineTree.node).length = (Outline.ofList (before ++ t :: after)).tops.length := by
    simp [Outline.tops_ofList]
  have hfreed : s₁.freeSubtrees [t.node] = .ok s₂ := hfree
  rw [Store.remove, if_neg (by rw [h.root]; exact hne), hnode]
  simp only [bind, Except.bind, habove, hfilter, if_neg hshorter, hset, hfreed]

end Store.Holds

end LiveMarkup
