import LiveMarkup.Edit.Apply
import LiveMarkup.Document.Basic
import LiveMarkup.Proofs.Changing
import LiveMarkup.Proofs.Places

/-!
# Stores that show an outline

The store of a sound document holds its root, an outline below the root, and nothing else (`Store.Shows`). What is read off
such a store is that outline (`Shows.outline_eq`), and a path leads to the node at its place in it (`Shows.resolve_eq`).
-/

namespace LiveMarkup

/-- The store holds a root with an outline below it and nothing else. -/
def Store.Shows (s : Store) (d : DocumentId) (o : Outline) : Prop :=
  s.Holds d ((rootOf d, ⟨.root, none, o.tops⟩) ::ₘ o.entries (rootOf d)) o.attributeEntries

namespace Outline

/-- The node that a path leads to from a node that the outline is below. -/
def find? : Outline → (top : NodeRef) → Path → Option NodeRef
  | _, top, [] => some top
  | o, _, i :: path => o.toList[i]?.bind fun t => t.below.find? t.node path

/-- The most nodes that follow or contain each other. -/
def span : Outline → Nat
  | nil => 0
  | leaf _ _ next => next.span + 1
  | element _ _ _ children next => max children.span next.span + 1

/-- No chain of nodes is longer than the nodes are many. -/
theorem span_le_length_nodes (o : Outline) : o.span ≤ o.nodes.length := by
  induction o with
  | nil => exact Nat.le_refl _
  | leaf n text next ih => simpa [span, nodes] using ih
  | element n name attributes children next ihc ihn =>
    simp only [span, nodes, List.length_cons, List.length_append]
    omega

/-- The trees of an outline and what is below them are entries of it. -/
theorem entries_below_subset {o : Outline} {t : OutlineTree} (h : t ∈ o.toList) (p : NodeRef) :
    t.below.entries t.node ⊆ o.entries p := by
  obtain ⟨before, after, hsplit⟩ := List.append_of_mem h
  intro e he
  rw [← ofList_toList o, hsplit, entries_ofList_append, ofList_cons, entries_cons, OutlineTree.entries]
  simp only [Multiset.mem_add, Multiset.mem_cons]
  exact Or.inr (Or.inl (Or.inr he))

/-- A path with a last step leads from the place before it to one of the nodes there. -/
theorem find?_concat (o : Outline) (top : NodeRef) (p : Path) (i : Nat) :
    o.find? top (p ++ [i]) = (o.place? top p).bind fun place => place.2.toList[i]?.map OutlineTree.node := by
  induction p generalizing o top with
  | nil =>
    simp only [List.nil_append, find?, place?, Option.bind_some]
    cases o.toList[i]? <;> rfl
  | cons j p ih =>
    rw [List.cons_append, find?, place?]
    cases o.toList[j]? with
    | none => rfl
    | some t =>
      cases t with
      | leaf n text =>
        simp only [Option.bind_some, OutlineTree.below, OutlineTree.below?, Option.bind_none]
        cases p <;> rfl
      | element n name attributes children => exact ih children n

end Outline

namespace Store

variable {s : Store} {d : DocumentId} {o : Outline}

namespace Holds

variable {N : Multiset (NodeRef × Node)} {A : Multiset (AttributeRef × Attribute)}

/-- A path is followed to the node at its place; where it leads nowhere, it does not fit. -/
theorem follow_eq (h : s.Holds d N A) (path : Path) {top : NodeRef} {node : Node} (hnode : (top, node) ∈ N)
    (htops : node.children = o.tops) (hentries : o.entries top ⊆ N) (taken : Nat) (rest : Path) :
    match o.find? top rest with
    | some n => s.follow path top taken rest = .ok n
    | none => ∃ reason, s.follow path top taken rest = .error (.misfit reason) := by
  induction rest generalizing o top node taken with
  | nil => rfl
  | cons i rest ih =>
    have hchild : node.children[i]? = o.toList[i]?.map OutlineTree.node := by
      rw [htops, Outline.tops, List.getElem?_map]
    simp only [Outline.find?, Store.follow, h.node_eq hnode, EditFault.ofStore, bind, Except.bind, hchild]
    cases ht : o.toList[i]? with
    | none =>
      cases node.payload with
      | root => exact ⟨_, rfl⟩
      | leaf text => exact ⟨_, rfl⟩
      | element name attributes => exact ⟨_, rfl⟩
    | some t =>
      have hmem : t ∈ o.toList := List.mem_of_getElem? ht
      have hbelow : t.below.entries t.node ⊆ N := fun e he => hentries (Outline.entries_below_subset hmem top he)
      exact ih (hentries (Outline.mem_entries_of_mem hmem top)) rfl hbelow (taken + 1)

/-- The attributes that a node lists are read with their content. -/
theorem filterMap_attribute? (h : s.Holds d N A) {pairs : List (AttributeRef × Attribute)} (hpairs : ↑pairs ⊆ A) :
    ((pairs.map Prod.fst).filterMap fun a => (s.attribute? a).map (a, ·)) = pairs := by
  induction pairs with
  | nil => rfl
  | cons pair pairs ih =>
    obtain ⟨a, v⟩ := pair
    have hfound : s.attribute? a = some v := h.attribute?_eq.mpr (hpairs (by simp))
    have hrest : (↑pairs : Multiset (AttributeRef × Attribute)) ⊆ A := fun e he => hpairs (by simp_all)
    rw [List.map_cons, List.filterMap_cons_some (b := (a, v)) (by rw [hfound]; rfl), ih hrest]

/-- An outline that a store holds is read off it, if the limit allows. -/
theorem read_eq (h : s.Holds d N A) {top : NodeRef} (hentries : o.entries top ⊆ N) (hattributes : o.attributeEntries ⊆ A)
    {limit : Nat} (hlimit : o.span < limit) : s.read limit o.tops = o := by
  induction o generalizing top limit with
  | nil =>
    cases limit with
    | zero => exact absurd hlimit (Nat.not_lt_zero _)
    | succ limit => rfl
  | leaf n text next ih =>
    cases limit with
    | zero => exact absurd hlimit (Nat.not_lt_zero _)
    | succ limit =>
      have hnode : s.node? n = some ⟨.leaf text, some top, []⟩ := h.node?_eq.mpr (hentries (by simp [Outline.entries]))
      have hnext : next.entries top ⊆ N := fun e he => hentries (Multiset.mem_cons_of_mem he)
      have hspan : next.span < limit := by
        simp only [Outline.span] at hlimit
        omega
      have hrest := ih hnext hattributes hspan
      change s.read (limit + 1) (n :: next.tops) = _
      rw [Store.read, hnode]
      simp only [hrest]
  | element n name pairs children next ihc ihn =>
    cases limit with
    | zero => exact absurd hlimit (Nat.not_lt_zero _)
    | succ limit =>
      have hnode : s.node? n = some ⟨.element name (pairs.map Prod.fst), some top, children.tops⟩ :=
        h.node?_eq.mpr (hentries (by simp [Outline.entries]))
      have hpairs : ↑pairs ⊆ A := fun e he => hattributes (Multiset.mem_add.mpr (Or.inl he))
      have hbelow : children.entries n ⊆ N := fun e he =>
        hentries (Multiset.mem_cons_of_mem (Multiset.mem_add.mpr (Or.inl he)))
      have hnext : next.entries top ⊆ N := fun e he =>
        hentries (Multiset.mem_cons_of_mem (Multiset.mem_add.mpr (Or.inr he)))
      have hbelow' : children.attributeEntries ⊆ A := fun e he =>
        hattributes (Multiset.mem_add.mpr (Or.inr (Multiset.mem_add.mpr (Or.inl he))))
      have hnext' : next.attributeEntries ⊆ A := fun e he =>
        hattributes (Multiset.mem_add.mpr (Or.inr (Multiset.mem_add.mpr (Or.inr he))))
      simp only [Outline.span] at hlimit
      have hchildren := ihc hbelow hbelow' (by omega : children.span < limit)
      have hrest := ihn hnext hnext' (by omega : next.span < limit)
      change s.read (limit + 1) (n :: next.tops) = _
      rw [Store.read, hnode]
      simp only [hchildren, hrest, h.filterMap_attribute? hpairs]

/-- No store has more nodes than slots. -/
theorem card_nodes_le (h : s.Holds d N A) : N.card ≤ s.nodes.slots.size := by
  rw [← h.nodes_eq, Multiset.card_map]
  exact s.nodes.card_entries_le

end Holds

namespace Shows

/-- The root is not below itself. -/
theorem root_notMem (h : s.Shows d o) : rootOf d ∉ o.nodes := by
  have hall := h.nodup_nodes
  rw [Multiset.map_cons, Outline.map_fst_entries] at hall
  exact (Multiset.nodup_cons.mp hall).1

/-- The root has no parent and lists the tops of the outline. -/
theorem root_eq (h : s.Shows d o) : s.node? (rootOf d) = some ⟨.root, none, o.tops⟩ :=
  h.node?_eq.mpr (Multiset.mem_cons_self _ _)

/-- The outline that a store shows is read off it. -/
theorem outline_tops (h : s.Shows d o) : s.outline o.tops = o := by
  have hsize := h.card_nodes_le
  have hspan := o.span_le_length_nodes
  rw [Multiset.card_cons, ← Multiset.card_map Prod.fst, Outline.map_fst_entries, Multiset.coe_card] at hsize
  exact h.read_eq (fun e he => Multiset.mem_cons_of_mem he) (Multiset.Subset.refl _) (by omega)

/-- What is read off a store below its root is the outline that it shows. -/
theorem outline_eq (h : s.Shows d o) : s.outline (s.childrenOf s.root) = o := by
  rw [Store.childrenOf, h.root, h.root_eq]
  exact h.outline_tops

/-- A path leads to the node at its place in the outline; where it leads nowhere, it does not fit. -/
theorem resolve_eq (h : s.Shows d o) (path : Path) :
    match o.find? (rootOf d) path with
    | some n => s.resolve path = .ok n
    | none => ∃ reason, s.resolve path = .error (.misfit reason) := by
  rw [Store.resolve, h.root]
  exact h.follow_eq path (Multiset.mem_cons_self _ _) rfl (fun e he => Multiset.mem_cons_of_mem he) 0 path

/-- The store of a new document shows a root alone. -/
theorem new (d : DocumentId) : (Store.new d).Shows d .nil := by
  have hsound := Slots.Sound.empty (α := Node)
  refine ⟨rfl, ?_, ?_, hsound.insert _, Slots.Sound.empty⟩
  · rw [Store.new, hsound.entries_insert]
    rfl
  · rfl

/-- A forest that is put below the root of a new document is shown. -/
theorem graft (d : DocumentId) (f : Forest) :
    ∃ o : Outline, o.forest = f ∧ ((Store.new d).graft (rootOf d) f).Shows d o := by
  have hnew : (Store.new d).Holds d _ _ := new d
  obtain ⟨o, hforest, ho⟩ := hnew.graft f
  refine ⟨o, hforest, ?_⟩
  rw [Outline.entries, Outline.attributeEntries, Multiset.add_zero, Multiset.add_zero] at ho
  exact ho

/-- The part of a store that shows what is at one place of the outline can be told from the rest, which stays as it is when
another outline is shown there. -/
theorem focus {c : NodeRef} {b : Outline} {p : Path} (h : o.place? (rootOf d) p = some (c, b)) :
    ∃ (payload : Payload) (above : Option NodeRef) (N : Multiset (NodeRef × Node))
      (A : Multiset (AttributeRef × Attribute)), payload.isContainer = true ∧
      ∀ (s : Store) (new : Outline), s.Shows d (o.setBelow p new) ↔
        s.Holds d ((c, ⟨payload, above, new.tops⟩) ::ₘ (new.entries c + N)) (new.attributeEntries + A) := by
  have hroot : Payload.root.isContainer = true := rfl
  obtain ⟨payload, above, N, A, hcontainer, hfocus⟩ := Outline.focus h hroot none
  refine ⟨payload, above, N, A, hcontainer, ?_⟩
  intro s new
  rw [Shows, (hfocus new).1, (hfocus new).2]

end Shows

end Store

end LiveMarkup
