import LiveMarkup.Proofs.FlatTrees

/-!
# Above and below

One node is below another if the lists of children lead from that one to it, over any number of steps (`Document.Below`). The
walk below a node visits exactly the nodes below it, which stand together in the walk of the whole document
(`Reachable.exists_outline`, `mem_nodes_iff_below`). Climbing along the parents is the same way back
(`Reachable.lists_iff`). No node is below itself, so the nodes that are climbed over are all different, and there are
fewer of them than slots: the climb comes to its end, and meets all nodes that are above (`Reachable.mem_ancestors_iff`).
-/

namespace LiveMarkup

/-- The nodes of a part of an outline stand together in it. -/
theorem OutlineTree.PartOf.nodes_infix {t : OutlineTree} {o : Outline} (h : t.PartOf o) :
    t.node :: t.below.nodes <:+: o.nodes := by
  induction h with
  | @head next => exact ⟨[], next.nodes, by rw [Outline.nodes_cons, List.nil_append, List.cons_append]⟩
  | @tail u next _ ih =>
    refine ih.trans ⟨u.node :: u.below.nodes, [], ?_⟩
    rw [Outline.nodes_cons, List.append_nil, List.cons_append]
  | @deeper u next _ ih =>
    refine ih.trans ⟨[u.node], next.nodes, ?_⟩
    rw [Outline.nodes_cons, List.singleton_append, List.cons_append]

namespace Document

/-- A node is the parent of another according to its list of children. -/
def Lists (d : Document) (p c : NodeRef) : Prop :=
  ∃ children, d.children p = .ok children ∧ c ∈ children

/-- A node is below another, as a child of it, a child of such a child, and so on. -/
def Below (d : Document) : (above below : NodeRef) → Prop :=
  Relation.TransGen d.Lists

variable {d : Document} {p q c m n : NodeRef} {o : Outline} {limit : Nat}

/-- What is read of a node is there if the node is. -/
theorem read_node_eq_ok_iff {α : Type} {field : Node → α} {value : α} :
    (d.node n >>= fun node => pure (field node)) = .ok value ↔ ∃ node, d.store.node? n = some node ∧ field node = value := by
  rw [node]
  cases d.store.node? n with
  | none =>
    constructor
    · intro h
      cases h
    · rintro ⟨node, hnode, -⟩
      cases hnode
  | some node =>
    constructor
    · intro h
      exact ⟨node, rfl, Except.ok.inj h⟩
    · rintro ⟨_, ⟨⟩, hvalue⟩
      exact congrArg Except.ok hvalue

/-- The parent of a node is the one that the store has for it. -/
theorem parent_eq_ok_iff : d.parent c = .ok (some p) ↔ ∃ node, d.store.node? c = some node ∧ node.parent = some p :=
  read_node_eq_ok_iff

/-- The children of a node are those that the store has for it. -/
theorem children_eq_ok_iff {children : List NodeRef} :
    d.children n = .ok children ↔ ∃ node, d.store.node? n = some node ∧ node.children = children :=
  read_node_eq_ok_iff

theorem childrenOf_of_children {children : List NodeRef} (h : d.children n = .ok children) :
    d.store.childrenOf n = children := by
  obtain ⟨node, hnode, rfl⟩ := children_eq_ok_iff.mp h
  rw [Store.childrenOf, hnode]

/-- A node whose descendants are given is there. -/
theorem has_of_descendants {below : List NodeRef} (h : d.descendants n = .ok below) : d.Has n := by
  obtain ⟨o, hbelow, -⟩ := exists_of_bind_eq_ok h
  obtain ⟨children, hchildren, -⟩ := exists_of_bind_eq_ok hbelow
  obtain ⟨node, hnode, -⟩ := children_eq_ok_iff.mp hchildren
  exact ⟨node, node_eq_ok_iff.mpr hnode⟩

/-! ## Downwards -/

/-- What a node of an outline lists is in the outline too. -/
theorem mem_nodes_of_lists (h : d.store.Carries p o) (hm : m ∈ o.nodes) (hc : d.Lists m c) : c ∈ o.nodes := by
  obtain ⟨t, rfl, hpart⟩ := Outline.exists_partOf hm
  obtain ⟨q, hcarried⟩ := h.of_partOf hpart
  obtain ⟨children, hchildren, hmem⟩ := hc
  obtain rfl : t.below.tops = children := Except.ok.inj ((children_of_carries hcarried).symm.trans hchildren)
  exact hpart.nodes_infix.subset (List.mem_cons_of_mem _ (t.below.tops_sublist_nodes.subset hmem))

/-- The lists of children lead to each node of an outline from one of those at its top. -/
theorem exists_top_of_mem (h : d.store.Carries p o) (hm : m ∈ o.nodes) :
    ∃ c ∈ o.tops, Relation.ReflTransGen d.Lists c m := by
  induction o generalizing p with
  | nil => cases hm
  | leaf n text next ih =>
    rcases List.mem_cons.mp hm with rfl | hnext
    · exact ⟨m, List.mem_cons_self, .refl⟩
    · obtain ⟨c, hc, hlead⟩ := ih (Store.Carries.tail (t := .leaf n text) h) hnext
      exact ⟨c, List.mem_cons_of_mem _ hc, hlead⟩
  | element n name pairs below next ihb ihn =>
    rcases List.mem_cons.mp hm with rfl | hrest
    · exact ⟨m, List.mem_cons_self, .refl⟩
    · rcases List.mem_append.mp hrest with hbelow | hnext
      · obtain ⟨c, hc, hlead⟩ := ihb (Store.Carries.below (t := .element n name pairs below) h) hbelow
        have hchildren : d.children n = .ok below.tops := children_of_carries (t := .element n name pairs below) h
        exact ⟨n, List.mem_cons_self, .head ⟨_, hchildren, hc⟩ hlead⟩
      · obtain ⟨c, hc, hlead⟩ := ihn (Store.Carries.tail (t := .element n name pairs below) h) hnext
        exact ⟨c, List.mem_cons_of_mem _ hc, hlead⟩

/-- The nodes of an outline are those below the node whose children are at its top. -/
theorem mem_nodes_iff_below (h : d.store.Carries n o) (hchildren : d.children n = .ok o.tops) :
    m ∈ o.nodes ↔ d.Below n m := by
  constructor
  · intro hm
    obtain ⟨c, hc, hlead⟩ := exists_top_of_mem h hm
    exact .head' ⟨_, hchildren, hc⟩ hlead
  · intro hbelow
    induction hbelow with
    | single hlists =>
      obtain ⟨children, hlisted, hc⟩ := hlists
      obtain rfl : o.tops = children := Except.ok.inj (hchildren.symm.trans hlisted)
      exact o.tops_sublist_nodes.subset hc
    | tail _ hlists ih => exact mem_nodes_of_lists h ih hlists

theorem descendants_of_children (h : d.store.Carries n o) (hchildren : d.children n = .ok o.tops) :
    d.descendants n = .ok o.nodes := by
  rw [descendants, outlineBelow, hchildren]
  exact congrArg (fun o : Outline => Except.ok o.nodes) h.outline_tops

/-- No node below the root comes twice. -/
theorem Reachable.nodup_nodes (h : d.Reachable) : d.outline.nodes.Nodup :=
  (List.nodup_cons.mp h.shows.nodup_walk).2

/-- The descendants of the root are all nodes below it. -/
theorem Reachable.descendants_root (h : d.Reachable) : d.descendants d.root = .ok d.outline.nodes := by
  rw [descendants, h.outlineBelow_root]
  rfl

/-- Below every node of a document there is an outline, which stands together in that of the document and lacks the node. -/
theorem Reachable.exists_outline (h : d.Reachable) (hn : d.Has n) :
    ∃ o, d.store.Carries n o ∧ d.children n = .ok o.tops ∧ n ∉ o.nodes ∧ o.nodes <:+: d.outline.nodes := by
  have hshows := h.shows
  have hcarried := Store.Carries.of_shows hshows
  by_cases hroot : n = d.root
  · subst hroot
    have heq : d.root = Store.rootOf d.id := hshows.root
    exact ⟨d.outline, heq ▸ hcarried, h.children_root, heq ▸ hshows.root_notMem, List.infix_refl _⟩
  · have hmem : n ∈ d.outline.nodes := by
      have hwalk := hshows.mem_nodes_iff.mpr (has_iff.mp hn)
      exact (List.mem_cons.mp hwalk).resolve_left fun heq => hroot (heq.trans hshows.root.symm)
    obtain ⟨t, rfl, hpart⟩ := Outline.exists_partOf hmem
    obtain ⟨q, hq⟩ := hcarried.of_partOf hpart
    have hinfix := hpart.nodes_infix
    have hnodup := hinfix.sublist.nodup h.nodup_nodes
    refine ⟨t.below, hq.below, children_of_carries hq, (List.nodup_cons.mp hnodup).1, ?_⟩
    exact (List.suffix_cons _ _).isInfix.trans hinfix

/-- The walk below a node is a stretch of the walk of the document, and visits the nodes below the node. -/
theorem Reachable.exists_descendants (h : d.Reachable) (hn : d.Has n) :
    ∃ below, d.descendants n = .ok below ∧ below <:+: d.outline.nodes ∧ ∀ m, m ∈ below ↔ d.Below n m := by
  obtain ⟨o, hcarried, hchildren, -, hpart⟩ := h.exists_outline hn
  exact ⟨o.nodes, descendants_of_children hcarried hchildren, hpart, fun m => mem_nodes_iff_below hcarried hchildren⟩

/-! ## Upwards -/

namespace Reachable

variable (h : d.Reachable)
include h

/-- A node lists exactly the nodes that have it for their parent. -/
theorem lists_iff : d.Lists p c ↔ d.parent c = .ok (some p) := by
  constructor
  · rintro ⟨children, hchildren, hc⟩
    obtain ⟨node, hnode, -⟩ := children_eq_ok_iff.mp hchildren
    obtain ⟨o, ⟨id, N, A, hs, hN, -⟩, htops, -, -⟩ := h.exists_outline ⟨node, node_eq_ok_iff.mpr hnode⟩
    obtain rfl : o.tops = children := Except.ok.inj (htops.symm.trans hchildren)
    obtain ⟨child, hchild, hparent⟩ := Outline.exists_mem_entries_of_mem_tops hc p
    exact parent_eq_ok_iff.mpr ⟨child, hs.node?_eq.mpr (Multiset.mem_of_le hN hchild), hparent⟩
  · intro hparent
    obtain ⟨node, hnode, hp⟩ := parent_eq_ok_iff.mp hparent
    have hc : c ≠ Store.rootOf d.id := by
      rintro rfl
      rw [h.shows.root_eq] at hnode
      cases hnode
      cases hp
    obtain ⟨p', above, hp', habove, -, hcount, -⟩ := h.shows.listed_once hnode hc
    obtain rfl : p = p' := Option.some.inj (hp.symm.trans hp')
    refine ⟨above.children, children_eq_ok_iff.mpr ⟨above, habove, rfl⟩, ?_⟩
    exact List.count_pos_iff.mp (by omega)

/-- Where one node is below another one both are there. -/
theorem has_of_below (hbelow : d.Below m n) : d.Has m ∧ d.Has n := by
  constructor
  · obtain ⟨c, ⟨children, hchildren, -⟩, -⟩ := Relation.TransGen.head'_iff.mp hbelow
    obtain ⟨node, hnode, -⟩ := children_eq_ok_iff.mp hchildren
    exact ⟨node, node_eq_ok_iff.mpr hnode⟩
  · obtain ⟨p, -, hlists⟩ := Relation.TransGen.tail'_iff.mp hbelow
    obtain ⟨node, hnode, -⟩ := parent_eq_ok_iff.mp (h.lists_iff.mp hlists)
    exact ⟨node, node_eq_ok_iff.mpr hnode⟩

/-- No node is below itself. -/
theorem not_below_self : ¬d.Below n n := by
  intro hbelow
  obtain ⟨o, hcarried, hchildren, hout, -⟩ := h.exists_outline (h.has_of_below hbelow).1
  exact hout ((mem_nodes_iff_below hcarried hchildren).mpr hbelow)

/-- A climb goes over nodes that are above. -/
theorem below_of_mem_ascend (hm : m ∈ d.store.ascend limit n) : d.Below m n := by
  induction limit generalizing n with
  | zero => cases hm
  | succ limit ih =>
    rw [Store.ascend] at hm
    split at hm
    · rename_i p _ hnode
      have hlists : d.Lists p n := h.lists_iff.mpr (parent_eq_ok_iff.mpr ⟨_, hnode, rfl⟩)
      rcases List.mem_cons.mp hm with rfl | hm
      · exact .single hlists
      · exact (ih hm).tail hlists
    · cases hm

/-- A climb does not meet a node twice. -/
theorem nodup_ascend : (n :: d.store.ascend limit n).Nodup := by
  induction limit generalizing n with
  | zero => exact List.nodup_singleton n
  | succ limit ih =>
    refine List.nodup_cons.mpr ⟨fun hm => h.not_below_self (h.below_of_mem_ascend hm), ?_⟩
    rw [Store.ascend]
    split
    · exact ih
    · exact List.nodup_nil

/-- No climb is as long as there are slots. -/
theorem length_ascend_lt (hn : d.Has n) : (d.store.ascend limit n).length < d.store.nodes.slots.size := by
  have hshows := h.shows
  have hhas : ∀ m ∈ n :: d.store.ascend limit n, m ∈ Store.rootOf d.id :: d.outline.nodes := by
    intro m hm
    refine hshows.mem_nodes_iff.mpr (has_iff.mp ?_)
    rcases List.mem_cons.mp hm with rfl | hm
    · exact hn
    · exact (h.has_of_below (h.below_of_mem_ascend hm)).1
  have hlength := (h.nodup_ascend.subperm hhas).length_le
  have hsize := hshows.card_nodes_le
  rw [← Multiset.card_map Prod.fst, Multiset.map_cons, Outline.map_fst_entries, Multiset.card_cons, Multiset.coe_card] at hsize
  simp only [List.length_cons] at hlength
  omega

/-- A climb that has not used up its limit has come to its end, so it has met every node that is above. -/
theorem mem_ascend_of_below (hlimit : (d.store.ascend limit n).length < limit) (hbelow : d.Below m n) :
    m ∈ d.store.ascend limit n := by
  induction limit generalizing n with
  | zero => exact absurd hlimit (Nat.not_lt_zero _)
  | succ limit ih =>
    obtain ⟨p, hlead, hlists⟩ := Relation.TransGen.tail'_iff.mp hbelow
    obtain ⟨⟨payload, _, children⟩, hnode, rfl⟩ := parent_eq_ok_iff.mp (h.lists_iff.mp hlists)
    have hstep : d.store.ascend (limit + 1) n = p :: d.store.ascend limit p := by rw [Store.ascend, hnode]
    rw [hstep, List.length_cons] at hlimit
    rw [hstep, List.mem_cons]
    rcases Relation.reflTransGen_iff_eq_or_transGen.mp hlead with rfl | hbelow
    · exact Or.inl rfl
    · exact Or.inr (ih (Nat.lt_of_succ_lt_succ hlimit) hbelow)

/-- The ancestors of a node are the nodes that it is below. -/
theorem mem_ancestors_iff : m ∈ d.store.ancestors n ↔ d.Below m n := by
  constructor
  · exact h.below_of_mem_ascend
  · intro hbelow
    exact h.mem_ascend_of_below (h.length_ascend_lt (h.has_of_below hbelow).2) hbelow

/-- The nearest ancestor of a node is its parent. -/
theorem head?_ancestors_eq_some_iff : (d.store.ancestors n).head? = some p ↔ d.parent n = .ok (some p) := by
  have hroot : (d.store.ascend 0 d.root).length < d.store.nodes.slots.size := h.length_ascend_lt ⟨_, h.node_root⟩
  have hsize := Nat.zero_lt_of_lt hroot
  obtain ⟨limit, hlimit⟩ := Nat.exists_eq_succ_of_ne_zero (Nat.ne_of_gt hsize)
  rw [Store.ancestors, hlimit, Store.ascend, parent_eq_ok_iff]
  split
  · rename_i hnode
    rw [hnode]
    simp
  · rename_i hnone
    refine ⟨nofun, ?_⟩
    rintro ⟨⟨payload, _, children⟩, hnode, rfl⟩
    exact absurd hnode (hnone _ _ _)

end Reachable

end Document

end LiveMarkup
