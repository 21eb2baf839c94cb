import Mathlib
import LiveMarkup.Proofs.KeptHandles

/-!
# What an edit leaves alone

An edit exchanges trees at one place. Nodes outside of these trees stay as they are, but for the list of children of the node
at the place (`Shows.relists`), and so do nodes below a tree that only changes at its top (`Carries.keeps`). No attribute of a
node that stays is freed, since no other node lists it (`Shows.attribute_stays`). So an edit of a document touches only what it
names (`Document.applyEdits_touches`).
-/

namespace LiveMarkup

namespace Document

/-- A node is in both documents, with the same content below the same parent, and its attributes have the values that they
had. It lists other children. -/
def Relists (d d' : Document) (m : NodeRef) (old new : List NodeRef) : Prop :=
  ∃ payload above, d.node m = .ok ⟨payload, above, old⟩ ∧ d'.node m = .ok ⟨payload, above, new⟩ ∧
    ∀ a ∈ payload.attributes, ∃ v, d.attributeOf a = .ok v ∧ d'.attributeOf a = .ok v

/-- A node is in both documents as it is, children and all. -/
def Keeps (d d' : Document) (m : NodeRef) : Prop :=
  ∃ children, d.Relists d' m children children

/-- A node has the same place in both documents: it is the root, or it has the same parent with the same children. -/
def KeepsPlace (d d' : Document) (n : NodeRef) : Prop :=
  (n = d.root ∧ n = d'.root) ∨ ∃ p siblings, d.parent n = .ok (some p) ∧ d'.parent n = .ok (some p) ∧
    d.children p = .ok siblings ∧ d'.children p = .ok siblings ∧ n ∈ siblings

/-- What becomes of a document by an edit of one of its nodes. -/
inductive Touches (d d' : Document) (n : NodeRef) : Edit → Prop
  /-- The element has these attributes, and is else as it was. -/
  | setAttributes {path : Path} {attributes : List Attribute} {name : QName} {old new : List AttributeRef}
      {above : Option NodeRef} {children : List NodeRef} (before : d.node n = .ok ⟨.element name old, above, children⟩)
      (after : d'.node n = .ok ⟨.element name new, above, children⟩) (reads : d'.attributes n = .ok attributes)
      (place : d.KeepsPlace d' n) (others : ∀ m, d.Has m → m ≠ n → d.Keeps d' m) :
      Touches d d' n (.setAttributes path attributes)
  /-- The node has this text, and is else as it was. -/
  | setText {path : Path} {old text : String} {above : Option NodeRef} {children : List NodeRef}
      (before : d.node n = .ok ⟨.leaf old, above, children⟩) (after : d'.node n = .ok ⟨.leaf text, above, children⟩)
      (place : d.KeepsPlace d' n) (others : ∀ m, d.Has m → m ≠ n → d.Keeps d' m) : Touches d d' n (.setText path text)
  /-- A child that was not there before comes after the other children of the node. -/
  | append {path : Path} {tree : Tree} {child : NodeRef} {children : List NodeRef}
      (fresh : d.node child = .error (.invalidHandle child)) (reads : d'.subtree child = .ok tree)
      (gains : d.Relists d' n children (children ++ [child])) (place : d.KeepsPlace d' n)
      (others : ∀ m, d.Has m → m ≠ n → d.Keeps d' m) : Touches d d' n (.append path tree)
  /-- The node is gone, with what was below it, and its parent does not list it any more. -/
  | remove {path : Path} {p : NodeRef} {before after inside : List NodeRef} (below : d.descendants n = .ok inside)
      (gone : d'.node n = .error (.invalidHandle n)) (parent : d.parent n = .ok (some p))
      (loses : d.Relists d' p (before ++ n :: after) (before ++ after))
      (others : ∀ m, d.Has m → m ≠ n → m ∉ inside → m ≠ p → d.Keeps d' m) : Touches d d' n (.remove path)
  /-- The node stands for another tree, in its place. -/
  | replace {path : Path} {tree : Tree} {inside : List NodeRef} (below : d.descendants n = .ok inside)
      (reads : d'.subtree n = .ok tree) (place : d.KeepsPlace d' n)
      (others : ∀ m, d.Has m → m ≠ n → m ∉ inside → d.Keeps d' m) : Touches d d' n (.replace path tree)

variable {d d' : Document} {m : NodeRef}

theorem attributeOf_eq_ok_iff {a : AttributeRef} {v : Attribute} : d.attributeOf a = .ok v ↔ d.store.attribute? a = some v := by
  rw [attributeOf]
  cases d.store.attribute? a <;> simp

end Document

namespace Store

variable {s s' : Store} {d : DocumentId} {o : Outline} {p c m : NodeRef} {path : Path} {a : AttributeRef}
  {before after made gone : List OutlineTree} {t t' : OutlineTree}

/-- The attributes of an outline are listed by its nodes. -/
theorem Holds.exists_attributesOf {N : Multiset (NodeRef × Node)} {A : Multiset (AttributeRef × Attribute)}
    (h : s.Holds d N A) (hentries : o.entries p ⊆ N) {v : Attribute} (ha : (a, v) ∈ o.attributeEntries) :
    ∃ n ∈ o.nodes, a ∈ s.attributesOf n := by
  have hmem := Multiset.mem_map_of_mem Prod.fst ha
  rw [Outline.map_fst_attributeEntries, Multiset.mem_coe, ← h.flatMap_attributesOf hentries] at hmem
  exact List.mem_flatMap.mp hmem

/-- Nodes that two stores carry alike are the same in both, and so are their attributes. -/
theorem Carries.keeps (h : s.Carries p o) (h' : s'.Carries p o) (hm : m ∈ o.nodes) : ∃ node, s.node? m = some node ∧
    s'.node? m = some node ∧ ∀ a ∈ node.payload.attributes, ∃ v, s.attribute? a = some v ∧ s'.attribute? a = some v := by
  obtain ⟨d, N, A, hs, hN, hA⟩ := h
  obtain ⟨d', N', A', hs', hN', hA'⟩ := h'
  rw [← Multiset.mem_coe, ← Outline.map_fst_entries p, Multiset.mem_map] at hm
  obtain ⟨⟨m, node⟩, hmem, rfl⟩ := hm
  have hnode : s.node? m = some node := hs.node?_eq.mpr (Multiset.mem_of_le hN hmem)
  refine ⟨node, hnode, hs'.node?_eq.mpr (Multiset.mem_of_le hN' hmem), ?_⟩
  intro a ha
  have hlisted : a ∈ o.attributes := by
    rw [← hs.flatMap_attributesOf (Multiset.subset_of_le hN)]
    refine List.mem_flatMap.mpr ⟨m, ?_, ?_⟩
    · rw [← Multiset.mem_coe, ← Outline.map_fst_entries p]
      exact Multiset.mem_map_of_mem Prod.fst hmem
    · rw [attributesOf, hnode]
      exact ha
  rw [← Multiset.mem_coe, ← Outline.map_fst_attributeEntries, Multiset.mem_map] at hlisted
  obtain ⟨⟨a, v⟩, hv, rfl⟩ := hlisted
  exact ⟨v, hs.attribute?_eq.mpr (Multiset.mem_of_le hA hv), hs'.attribute?_eq.mpr (Multiset.mem_of_le hA' hv)⟩

namespace Shows

/-- Some of the trees at a place can be told from the rest, which stays as it is when others are shown there. -/
theorem focus_between {b : Outline} (place : o.place? (rootOf d) path = some (c, b)) (before after : List OutlineTree) :
    ∃ (payload : Payload) (above : Option NodeRef) (N : Multiset (NodeRef × Node)) (A : Multiset (AttributeRef × Attribute)),
      ∀ (s : Store) (trees : List OutlineTree), s.Shows d (o.setBelow path (.ofList (before ++ (trees ++ after)))) ↔
        s.Holds d ((c, ⟨payload, above, (before ++ (trees ++ after)).map OutlineTree.node⟩) ::ₘ
          ((Outline.ofList trees).entries c + N)) ((Outline.ofList trees).attributeEntries + A) := by
  obtain ⟨payload, above, N, A, _, hfocus⟩ := focus place
  refine ⟨payload, above, (Outline.ofList before).entries c + (Outline.ofList after).entries c + N,
    (Outline.ofList before).attributeEntries + (Outline.ofList after).attributeEntries + A, ?_⟩
  intro s trees
  have hentries : (Outline.ofList (before ++ (trees ++ after))).entries c + N = (Outline.ofList trees).entries c +
      ((Outline.ofList before).entries c + (Outline.ofList after).entries c + N) := by
    rw [Outline.entries_ofList_append, Outline.entries_ofList_append]
    abel
  have hattributes : (Outline.ofList (before ++ (trees ++ after))).attributeEntries + A =
      (Outline.ofList trees).attributeEntries +
        ((Outline.ofList before).attributeEntries + (Outline.ofList after).attributeEntries + A) := by
    rw [Outline.attributeEntries_ofList_append, Outline.attributeEntries_ofList_append]
    abel
  rw [hfocus, hentries, hattributes, Outline.tops_ofList]

/-- An attribute stays if those that are exchanged are listed by other nodes than its own. -/
theorem attribute_stays {N N' : Multiset (NodeRef × Node)} {X X' A : Multiset (AttributeRef × Attribute)} (h : s.Shows d o)
    (hold : s.Holds d N (X + A)) (hnew : s'.Holds d N' (X' + A))
    (hothers : ∀ pair ∈ X, ∃ n ≠ m, pair.1 ∈ s.attributesOf n) (ha : a ∈ s.attributesOf m) :
    ∃ v, s.attribute? a = some v ∧ s'.attribute? a = some v := by
  obtain ⟨v, hv⟩ := Option.isSome_iff_exists.mp (h.mem_of_mem_attributesOf ha).2
  refine ⟨v, hv, hnew.attribute?_eq.mpr (Multiset.mem_add.mpr (Or.inr ?_))⟩
  refine (Multiset.mem_add.mp (hold.attribute?_eq.mp hv)).resolve_left ?_
  intro hx
  obtain ⟨n, hne, hn⟩ := hothers _ hx
  exact hne (h.listed_attribute hn ha).1

/-- Where trees are exchanged for others, the nodes outside of them stay, and only the node at the place lists others. -/
theorem relists (h : s.Shows d o) (place : o.place? (rootOf d) path = some (c, .ofList (before ++ (gone ++ after))))
    (h' : s'.Shows d (o.setBelow path (.ofList (before ++ (made ++ after))))) (hm : (s.node? m).isSome)
    (hout : m ∉ (Outline.ofList gone).nodes) : ∃ payload above old new, s.node? m = some ⟨payload, above, old⟩ ∧
      s'.node? m = some ⟨payload, above, new⟩ ∧
      (∀ a ∈ payload.attributes, ∃ v, s.attribute? a = some v ∧ s'.attribute? a = some v) ∧
      if m = c then old = (before ++ (gone ++ after)).map OutlineTree.node ∧
        new = (before ++ (made ++ after)).map OutlineTree.node else old = new := by
  obtain ⟨payload, above, N, A, hfocus⟩ := focus_between place before after
  have hold := (hfocus s gone).mp ((Outline.setBelow_self place).symm ▸ h)
  have hnew := (hfocus s' made).mp h'
  obtain ⟨node, hnode⟩ := Option.isSome_iff_exists.mp hm
  have hentries : (Outline.ofList gone).entries c ⊆ (c, ⟨payload, above, (before ++ (gone ++ after)).map OutlineTree.node⟩) ::ₘ
      ((Outline.ofList gone).entries c + N) :=
    fun e he => Multiset.mem_cons_of_mem (Multiset.mem_add.mpr (Or.inl he))
  have hstay : ∀ a ∈ node.payload.attributes, ∃ v, s.attribute? a = some v ∧ s'.attribute? a = some v := by
    intro a ha
    have hlisted : a ∈ s.attributesOf m := by
      rw [attributesOf, hnode]
      exact ha
    refine attribute_stays h hold hnew ?_ hlisted
    rintro ⟨b, v⟩ hb
    obtain ⟨n, hn, hbn⟩ := hold.exists_attributesOf hentries hb
    exact ⟨n, fun heq => hout (heq ▸ hn), hbn⟩
  rcases Multiset.mem_cons.mp (hold.node?_eq.mp hnode) with heq | hrest
  · cases heq
    refine ⟨payload, above, _, _, hnode, hnew.node?_eq.mpr (Multiset.mem_cons_self _ _), hstay, ?_⟩
    rw [if_pos rfl]
    exact ⟨rfl, rfl⟩
  · have hN : (m, node) ∈ N := by
      refine (Multiset.mem_add.mp hrest).resolve_left ?_
      intro hin
      have hmem := Multiset.mem_map_of_mem Prod.fst hin
      rw [Outline.map_fst_entries] at hmem
      exact hout hmem
    have hne : m ≠ c := by
      rintro rfl
      have hnodup := hold.nodup_nodes
      rw [Multiset.map_cons, Multiset.nodup_cons] at hnodup
      exact hnodup.1 (Multiset.mem_map.mpr ⟨_, hrest, rfl⟩)
    refine ⟨node.payload, node.parent, node.children, node.children, hnode, ?_, hstay, ?_⟩
    · exact hnew.node?_eq.mpr (Multiset.mem_cons_of_mem (Multiset.mem_add.mpr (Or.inr hN)))
    · rw [if_neg hne]

/-- Trees at a place are carried below its node, which is none of theirs. -/
theorem carries_of_place (h : s.Shows d o) (made : List OutlineTree)
    (place : o.place? (rootOf d) path = some (c, .ofList (before ++ (made ++ after)))) :
    s.Carries c (.ofList made) ∧ (s.node? c).isSome ∧ c ∉ (Outline.ofList made).nodes := by
  obtain ⟨payload, above, N, A, hfocus⟩ := focus_between place before after
  have hold := (hfocus s made).mp ((Outline.setBelow_self place).symm ▸ h)
  refine ⟨⟨d, _, _, hold, (Multiset.le_add_right _ _).trans (Multiset.le_cons_self _ _), Multiset.le_add_right _ _⟩,
    Option.isSome_of_eq_some (hold.node?_eq.mpr (Multiset.mem_cons_self _ _)), ?_⟩
  have hnodup := hold.nodup_nodes
  rw [Multiset.map_cons, Multiset.map_add, Outline.map_fst_entries, Multiset.nodup_cons, Multiset.mem_add, not_or] at hnodup
  exact hnodup.1.1

end Shows

end Store

namespace Document

variable {d d' : Document} {id : DocumentId} {o : Outline} {path : Path} {c m n : NodeRef}
  {before after made gone : List OutlineTree} {t t' : OutlineTree} {e : Edit} {change : Change}

theorem relists_of_node? {payload : Payload} {above : Option NodeRef} {old new : List NodeRef}
    (h : d.store.node? m = some ⟨payload, above, old⟩) (h' : d'.store.node? m = some ⟨payload, above, new⟩)
    (hattributes : ∀ a ∈ payload.attributes, ∃ v, d.store.attribute? a = some v ∧ d'.store.attribute? a = some v) :
    d.Relists d' m old new := by
  refine ⟨payload, above, node_eq_ok_iff.mpr h, node_eq_ok_iff.mpr h', ?_⟩
  intro a ha
  obtain ⟨v, hv, hv'⟩ := hattributes a ha
  exact ⟨v, attributeOf_eq_ok_iff.mpr hv, attributeOf_eq_ok_iff.mpr hv'⟩

theorem keeps_of_carries {p : NodeRef} {b : Outline} (h : d.store.Carries p b) (h' : d'.store.Carries p b)
    (hm : m ∈ b.nodes) : d.Keeps d' m := by
  obtain ⟨⟨payload, above, children⟩, hnode, hnode', hattributes⟩ := h.keeps h' hm
  exact ⟨children, relists_of_node? hnode hnode' hattributes⟩

section Exchange

variable (gone made : List OutlineTree) (h : d.store.Shows id o)
  (place : o.place? (Store.rootOf id) path = some (c, .ofList (before ++ (gone ++ after))))
  (h' : d'.store.Shows id (o.setBelow path (.ofList (before ++ (made ++ after)))))

include h place h'

/-- A node that is neither at the place nor in the trees that are exchanged stays as it is. -/
theorem keeps_of_exchange (hm : d.Has m) (hout : m ∉ (Outline.ofList gone).nodes) (hne : m ≠ c) : d.Keeps d' m := by
  obtain ⟨payload, above, old, new, hnode, hnode', hattributes, hlists⟩ := h.relists place h' (has_iff.mp hm) hout
  rw [if_neg hne] at hlists
  subst hlists
  exact ⟨old, relists_of_node? hnode hnode' hattributes⟩

/-- The node at the place lists the new trees for the old ones. -/
theorem relists_of_exchange : d.Relists d' c ((before ++ (gone ++ after)).map OutlineTree.node)
    ((before ++ (made ++ after)).map OutlineTree.node) := by
  obtain ⟨_, hlive, hout⟩ := h.carries_of_place gone place
  obtain ⟨payload, above, old, new, hnode, hnode', hattributes, hlists⟩ := h.relists place h' hlive hout
  rw [if_pos rfl] at hlists
  obtain ⟨rfl, rfl⟩ := hlists
  exact relists_of_node? hnode hnode' hattributes

end Exchange

/-- A node whose parent stays as it is keeps its place below it. -/
theorem keepsPlace_of_place (h : d.store.Shows id o)
    (place : o.place? (Store.rootOf id) path = some (c, .ofList (before ++ t :: after)))
    (hparent : d'.parent t.node = .ok (some c)) (hkeeps : d.Keeps d' c) : d.KeepsPlace d' t.node := by
  obtain ⟨siblings, payload, above, hnode, hnode', _⟩ := hkeeps
  have hlisted : siblings = (before ++ t :: after).map OutlineTree.node := by
    have hchildren := h.childrenOf_eq place
    rw [Store.childrenOf, node_eq_ok_iff.mp hnode, Outline.tops_ofList] at hchildren
    exact hchildren
  refine Or.inr ⟨c, siblings, ?_, hparent, ?_, ?_, ?_⟩
  · have htop := (h.carries_of_place [t] place).1.node?
    rw [parent, node_eq_ok_iff.mpr htop]
    rfl
  · rw [children, hnode]
    rfl
  · rw [children, hnode']
    rfl
  · rw [hlisted, List.map_append, List.map_cons]
    exact List.mem_append_right _ List.mem_cons_self

section Tree

variable (h : d.store.Shows id o) (place : o.place? (Store.rootOf id) path = some (c, .ofList (before ++ t :: after)))
  (h' : d'.store.Shows id (o.setBelow path (.ofList (before ++ t' :: after)))) (hkept : t'.node = t.node)

include h place h' hkept

/-- A node stays as it is if it is not in the one tree that is exchanged, and the node at the top of that tree is the same. -/
theorem keeps_beside (hm : d.Has m) (hout : m ∉ (Outline.ofList [t]).nodes) : d.Keeps d' m := by
  by_cases hne : m = c
  · subst hne
    have hlists := relists_of_exchange [t] [t'] h place h'
    have hsame : (before ++ ([t'] ++ after)).map OutlineTree.node = (before ++ ([t] ++ after)).map OutlineTree.node := by
      simp only [List.map_append, List.map_cons, hkept]
    rw [hsame] at hlists
    exact ⟨_, hlists⟩
  · exact keeps_of_exchange [t] [t'] h place h' hm hout hne

/-- The node at the top of the tree keeps its place. -/
theorem keepsPlace_of_exchange : d.KeepsPlace d' t.node := by
  obtain ⟨_, hlive, hout⟩ := h.carries_of_place [t] place
  have hmade := (h'.carries_of_place [t'] (Outline.place?_setBelow place _)).1
  refine keepsPlace_of_place h place ?_ (keeps_beside h place h' hkept (has_iff.mpr hlive) hout)
  rw [← hkept, parent, node_eq_ok_iff.mpr hmade.node?]
  rfl

/-- If the tree has changed at its top only, all nodes but the one there stay as they are. -/
theorem keeps_below (hbelow : t'.below = t.below) (hm : d.Has m) (hne : m ≠ t.node) : d.Keeps d' m := by
  by_cases hin : m ∈ (Outline.ofList [t]).nodes
  · have hgone := (h.carries_of_place [t] place).1.below
    have hmade := (h'.carries_of_place [t'] (Outline.place?_setBelow place _)).1.below
    rw [hkept, hbelow] at hmade
    rw [Outline.ofList_cons, Outline.nodes_cons, Outline.ofList_nil, Outline.nodes, List.append_nil] at hin
    exact keeps_of_carries hgone hmade ((List.mem_cons.mp hin).resolve_left hne)
  · exact keeps_beside h place h' hkept hm hin

end Tree

theorem notMem_nodes_single (hne : m ≠ t.node) (hout : m ∉ t.below.nodes) : m ∉ (Outline.ofList [t]).nodes := by
  rw [Outline.ofList_cons, Outline.nodes_cons, Outline.ofList_nil, Outline.nodes, List.append_nil, List.mem_cons, not_or]
  exact ⟨hne, hout⟩

/-- What an edit of an outline does to documents that show it before and after. -/
theorem touches_of_edited {o' : Outline} (h : d.store.Shows id o) (h' : d'.store.Shows id o')
    (hedited : o.Edited (Store.rootOf id) e change o') :
    ∃ n, d.store.nodeAt? e.path = some n ∧ d.Touches d' n e := by
  cases hedited with
  | @setAttributes path c n before after name old new below place kept =>
    have hgone := (h.carries_of_place [.element n name old below] place).1
    have hmade := (h'.carries_of_place [.element n name new below] (Outline.place?_setBelow place _)).1
    have hbefore : d.store.node? n = some ⟨.element name (old.map Prod.fst), some c, below.tops⟩ :=
      hgone.node? (t := .element n name old below)
    have hafter : d'.store.node? n = some ⟨.element name (new.map Prod.fst), some c, below.tops⟩ :=
      hmade.node? (t := .element n name new below)
    have hreads : d'.attributes n = .ok (new.map Prod.snd) := attributes_of_carries (t := .element n name new below) hmade
    refine ⟨n, (h.nodeAt?_eq _).trans (Outline.find?_of_place?_concat place), ?_⟩
    exact .setAttributes (node_eq_ok_iff.mpr hbefore) (node_eq_ok_iff.mpr hafter) hreads
      (keepsPlace_of_exchange h place h' rfl) fun m hm hne => keeps_below h place h' rfl rfl hm hne
  | @setText path c n before after old text place =>
    have hgone := (h.carries_of_place [.leaf n old] place).1
    have hmade := (h'.carries_of_place [.leaf n text] (Outline.place?_setBelow place _)).1
    have hbefore : d.store.node? n = some ⟨.leaf old, some c, []⟩ := hgone.node? (t := .leaf n old)
    have hafter : d'.store.node? n = some ⟨.leaf text, some c, []⟩ := hmade.node? (t := .leaf n text)
    refine ⟨n, (h.nodeAt?_eq _).trans (Outline.find?_of_place?_concat place), ?_⟩
    exact .setText (node_eq_ok_iff.mpr hbefore) (node_eq_ok_iff.mpr hafter) (keepsPlace_of_exchange h place h' rfl)
      fun m hm hne => keeps_below h place h' rfl rfl hm hne
  | @append path c b t place =>
    have hbelow : b.toList ++ ([] ++ []) = b.toList := by rw [List.append_nil, List.append_nil]
    have hbefore : o.place? (Store.rootOf id) path = some (c, .ofList (b.toList ++ ([] ++ []))) := by
      rw [hbelow, Outline.ofList_toList]
      exact place
    have hmade := (h'.carries_of_place [t] (Outline.place?_setBelow place _)).1
    have hgains := relists_of_exchange [] [t] h hbefore h'
    rw [hbelow, List.append_nil, List.map_append] at hgains
    have hothers : ∀ m, d.Has m → m ≠ c → d.Keeps d' m := fun m hm hne =>
      keeps_of_exchange [] [t] h hbefore h' hm List.not_mem_nil hne
    refine ⟨c, (h.nodeAt?_eq _).trans (Outline.find?_of_place? place), ?_⟩
    refine .append (node_eq_error_iff.mpr (h.node?_eq_none_of_append place h')) (subtree_of_carries hmade) hgains ?_ hothers
    rcases Outline.place?_of_find? (Outline.find?_of_place? place) with ⟨_, hroot⟩ | ⟨q, p, left, u, right, _, hp, rfl⟩
    · exact Or.inl ⟨hroot.trans h.root.symm, hroot.trans h'.root.symm⟩
    · obtain ⟨hcarried, hlive, hout⟩ := h.carries_of_place [u] hp
      have hne : p ≠ u.node := by
        rintro rfl
        rw [Outline.ofList_cons, Outline.nodes_cons] at hout
        exact hout List.mem_cons_self
      refine keepsPlace_of_place h hp ?_ (hothers p (has_iff.mpr hlive) hne)
      obtain ⟨payload, above, hnode, hnode', _⟩ := hgains
      rw [node_eq_ok_iff, hcarried.node?] at hnode
      rw [parent, hnode', ← (Node.mk.inj (Option.some.inj hnode)).2.1]
      rfl
  | @remove path c before after t place =>
    have hgone := (h.carries_of_place [t] place).1
    have hparent : d.parent t.node = .ok (some c) := by
      rw [parent, node_eq_ok_iff.mpr hgone.node?]
      rfl
    have hloses := relists_of_exchange [t] [] h place h'
    rw [List.nil_append, List.map_append, List.map_append, List.map_append, List.map_singleton, List.singleton_append] at hloses
    have hstale : d'.store.node? t.node = none := by
      rw [← Option.not_isSome_iff_eq_none, ← h'.mem_nodes_iff]
      exact Outline.notMem_nodes_removed place h.nodup_walk
    refine ⟨t.node, (h.nodeAt?_eq _).trans (Outline.find?_of_place?_concat place), ?_⟩
    refine .remove (descendants_of_carries hgone) (node_eq_error_iff.mpr hstale) hparent hloses ?_
    intro m hm hne hout hother
    exact keeps_of_exchange [t] [] h place h' hm (notMem_nodes_single hne hout) hother
  | @replace path c before after t t' place kept =>
    have hgone := (h.carries_of_place [t] place).1
    have hmade := (h'.carries_of_place [t'] (Outline.place?_setBelow place _)).1
    refine ⟨t.node, (h.nodeAt?_eq _).trans (Outline.find?_of_place?_concat place), ?_⟩
    refine .replace (descendants_of_carries hgone) (kept ▸ subtree_of_carries hmade)
      (keepsPlace_of_exchange h place h' kept) fun m hm hne hout => ?_
    exact keeps_beside h place h' kept hm (notMem_nodes_single hne hout)

/-- An edit that is legal is carried out, at the node that its path leads to, and touches only what it names. -/
theorem applyEdits_touches (h : d.Reachable) (hnames : Edit.checkNames 0 [e] = .ok ()) {f : Forest}
    (hlegal : d.forest.carryOut e = .ok f) : ∃ d' change n, d.applyEdits [e] = .ok (d', [change]) ∧
      d.store.nodeAt? e.path = some n ∧ d.Touches d' n e := by
  have hshows := h.shows
  have hspec := hshows.applyEdit_spec e
  have hforest : d.outline.forest.carryOut e = .ok f := hlegal
  rw [hforest] at hspec
  obtain ⟨s', o', change, happly, hs', _, hedited⟩ := hspec
  have hafter : ({ d with store := s' } : Document).store.Shows d.id o' := hs'
  obtain ⟨n, hn, htouches⟩ := touches_of_edited hshows hafter hedited
  refine ⟨{ d with store := s' }, change, n, ?_, hn, htouches⟩
  rw [applyEdits_eq, hnames]
  simp only [commit, Store.applyAll_single happly]

/-- An element in place of one with two attributes takes up a slot of theirs; the text beside it stays. -/
theorem text_beside_stays : ∃ d' change,
    withTwoAttributes.applyEdits [.replace [0] (.element ⟨"", "c"⟩ [⟨⟨"", "z"⟩, "3"⟩] (.leaf "t" .nil))] = .ok (d', [change]) ∧
    withTwoAttributes.get ⟨⟨1⟩, ⟨2, 0⟩⟩ = .ok (.leaf "b") ∧ withTwoAttributes.Keeps d' ⟨⟨1⟩, ⟨2, 0⟩⟩ ∧
    withTwoAttributes.KeepsPlace d' ⟨⟨1⟩, ⟨1, 0⟩⟩ := by
  have hreachable : withTwoAttributes.Reachable := .applyEdits (.empty ⟨1⟩) _
  have hforest : withTwoAttributes.forest =
      .element ⟨"", "a"⟩ [⟨⟨"", "x"⟩, "1"⟩, ⟨⟨"", "y"⟩, "2"⟩] .nil (.leaf "b" .nil) := by
    cbv
  have hnames : Edit.checkNames 0 [.replace [0] (.element ⟨"", "c"⟩ [⟨⟨"", "z"⟩, "3"⟩] (.leaf "t" .nil))] = .ok () := by
    cbv
  have hlegal : withTwoAttributes.forest.carryOut (.replace [0] (.element ⟨"", "c"⟩ [⟨⟨"", "z"⟩, "3"⟩] (.leaf "t" .nil))) =
      .ok (.element ⟨"", "c"⟩ [⟨⟨"", "z"⟩, "3"⟩] (.leaf "t" .nil) (.leaf "b" .nil)) := by
    rw [hforest]
    rfl
  have htext : withTwoAttributes.node ⟨⟨1⟩, ⟨2, 0⟩⟩ = .ok ⟨.leaf "b", some ⟨⟨1⟩, ⟨0, 0⟩⟩, []⟩ := by cbv
  have hfirst : withTwoAttributes.store.nodeAt? [0] = some ⟨⟨1⟩, ⟨1, 0⟩⟩ := by cbv
  have hinside : withTwoAttributes.descendants ⟨⟨1⟩, ⟨1, 0⟩⟩ = .ok [] := by cbv
  obtain ⟨d', change, n, happly, hn, htouches⟩ := applyEdits_touches hreachable hnames hlegal
  cases hfirst.symm.trans hn
  cases htouches with
  | replace below reads place others =>
    cases hinside.symm.trans below
    refine ⟨d', change, happly, ?_, others _ ⟨_, htext⟩ (by decide) List.not_mem_nil, place⟩
    rw [get, htext]
    rfl

end Document

end LiveMarkup
