import LiveMarkup.Proofs.Consistency
import LiveMarkup.Proofs.Following
import LiveMarkup.Proofs.StoreHistory

/-!
# Following edits to the end

Edits are carried out one after the other, and what each of them leaves behind is still there in the end
(`Store.LastingAll`). Then a mirror follows all their changes (`LastingAll.followAll`), and every change fits the document in
the end: the nodes that it names are there, but for one that was removed, whose handle is stale (`LastingAll.fits`).

The slot of a node that was removed may be in use again in the end. A node that has come into it has come to stay, so the
slot has been vacated once, and is in the generation after that of the handle.
-/

namespace LiveMarkup

/-- The handle names a node of the document. -/
def Document.Has (d : Document) (n : NodeRef) : Prop :=
  ∃ node, d.node n = .ok node

/-- The document has the nodes that the change names, but does not accept the handle of one that was removed. -/
def Change.Fits (d : Document) : Change → Prop
  | updated n => d.Has n
  | added n p => d.Has n ∧ d.Has p
  | removed n p => d.node n = .error (.invalidHandle n) ∧ d.Has p
  | replaced n p => d.Has n ∧ d.Has p

/-- A handle is accepted exactly if it names a node. -/
theorem Document.node_eq_ok_iff {d : Document} {n : NodeRef} {node : Node} :
    d.node n = .ok node ↔ d.store.node? n = some node := by
  rw [Document.node]
  cases d.store.node? n <;> simp

/-- A document has a node exactly if the handle names one in its store. -/
theorem Document.has_iff {d : Document} {n : NodeRef} : d.Has n ↔ (d.store.node? n).isSome := by
  rw [Has, node]
  cases d.store.node? n <;> simp

/-! ## Nodes that come and stay -/

namespace Outline

variable {o o' b : Outline} {top c : NodeRef} {p : Path} {before after : List OutlineTree} {t : OutlineTree}

/-- The nodes of an outline are the top of its first tree, those below it, and the others. -/
theorem nodes_cons (t : OutlineTree) (o : Outline) : (cons t o).nodes = t.node :: (t.below.nodes ++ o.nodes) := by
  cases t <;> rfl

/-- Of the nodes of an outline and the one that it is below, those at a place and the one they are below are one part. The
others stay when another outline is put there. -/
theorem nodes_focus (h : o.place? top p = some (c, b)) :
    ∃ N : Multiset NodeRef, ∀ new : Outline,
      ((top :: (o.setBelow p new).nodes : List NodeRef) : Multiset NodeRef) = c ::ₘ (↑new.nodes + N) := by
  have hroot : Payload.root.isContainer = true := rfl
  obtain ⟨payload, above, N, _, _, hfocus⟩ := focus h hroot none
  refine ⟨N.map Prod.fst, ?_⟩
  intro new
  have hnodes := congrArg (Multiset.map Prod.fst) (hfocus new).1
  rw [Multiset.map_cons, Multiset.map_cons, Multiset.map_add, map_fst_entries, map_fst_entries] at hnodes
  exact hnodes

/-- A node that is there after another outline has been put at a place is one of that outline, or was there before. -/
theorem mem_nodes_setBelow (h : o.place? top p = some (c, b)) {new : Outline} {n : NodeRef}
    (hn : n ∈ top :: (o.setBelow p new).nodes) : n ∈ new.nodes ∨ n ∈ top :: o.nodes := by
  obtain ⟨N, hfocus⟩ := nodes_focus h
  have hold := hfocus b
  rw [setBelow_self h] at hold
  rw [← Multiset.mem_coe, hfocus new, Multiset.mem_cons, Multiset.mem_add, Multiset.mem_coe] at hn
  have hmem : n ∈ top :: o.nodes ↔ n = c ∨ n ∈ b.nodes ∨ n ∈ N := by
    rw [← Multiset.mem_coe, hold, Multiset.mem_cons, Multiset.mem_add, Multiset.mem_coe]
  rw [hmem]
  tauto

/-- A node that is removed is not there any more. -/
theorem notMem_nodes_removed (h : o.place? top p = some (c, ofList (before ++ t :: after)))
    (hnodup : (top :: o.nodes).Nodup) : t.node ∉ top :: (o.setBelow p (ofList (before ++ after))).nodes := by
  obtain ⟨N, hfocus⟩ := nodes_focus h
  have hold := hfocus (ofList (before ++ t :: after))
  have hsplit : c ::ₘ (((ofList (before ++ t :: after)).nodes : Multiset NodeRef) + N) =
      t.node ::ₘ (c ::ₘ (((ofList (before ++ after)).nodes : Multiset NodeRef) + N) + ↑t.below.nodes) := by
    rw [nodes_ofList_append, nodes_ofList_append, ofList_cons, nodes_cons, ← Multiset.coe_add, ← Multiset.coe_add,
      ← Multiset.cons_coe, ← Multiset.coe_add, Multiset.add_cons, Multiset.cons_add, Multiset.cons_swap, Multiset.cons_add]
    congr 2
    abel
  rw [setBelow_self h, hsplit] at hold
  rw [← Multiset.coe_nodup, hold, Multiset.nodup_cons] at hnodup
  intro hmem
  rw [← Multiset.mem_coe, hfocus] at hmem
  exact hnodup.1 (Multiset.mem_add.mpr (Or.inl hmem))

end Outline

namespace Store

/-- The nodes that a store carries are there. -/
theorem Carries.isSome_node? {s : Store} {p n : NodeRef} {o : Outline} (h : s.Carries p o) (hn : n ∈ o.nodes) :
    (s.node? n).isSome := by
  obtain ⟨d, N, A, hs, hN, _⟩ := h
  rw [← Multiset.mem_coe, ← Outline.map_fst_entries p, Multiset.mem_map] at hn
  obtain ⟨⟨m, node⟩, hmem, rfl⟩ := hn
  exact Option.isSome_of_eq_some (hs.node?_eq.mpr (Multiset.mem_of_le hN hmem))

/-- A handle names a node exactly if it is of the document, and its slot is taken and of its generation. -/
theorem isSome_node?_iff {s : Store} {n : NodeRef} : (s.node? n).isSome ↔
    n.document = s.document ∧ s.nodes.holdsAt n.index = true ∧ s.nodes.generation n.index = n.key.generation := by
  rw [node?]
  split
  · rename_i hdocument
    rw [Slots.isSome_get?_iff]
    exact ⟨fun h => ⟨hdocument, h⟩, fun h => h.2⟩
  · rename_i hdocument
    simp [hdocument]

/-- Two handles that name nodes in one slot are one. -/
theorem eq_of_index {s : Store} {m n : NodeRef} (hm : (s.node? m).isSome) (hn : (s.node? n).isSome)
    (h : m.index = n.index) : m = n := by
  obtain ⟨document, index, generation⟩ := m
  obtain ⟨document', index', generation'⟩ := n
  rw [isSome_node?_iff] at hm hn
  obtain ⟨rfl, _, hgeneration⟩ := hm
  obtain ⟨rfl, _, hgeneration'⟩ := hn
  obtain rfl : index = index' := h
  obtain rfl : generation = generation' := hgeneration.symm.trans hgeneration'
  rfl

end Store

namespace Outline

variable {last : Document} {o o' : Outline} {top : NodeRef} {c : Change} {before after : List OutlineTree} {t : OutlineTree}

theorem mem_nodes_split {n : NodeRef} : n ∈ (ofList (before ++ t :: after)).nodes ↔
    n ∈ (ofList before).nodes ∨ n ∈ (ofList [t]).nodes ∨ n ∈ (ofList after).nodes := by
  have hsplit : before ++ t :: after = before ++ ([t] ++ after) := rfl
  rw [hsplit, nodes_ofList_append, nodes_ofList_append, List.mem_append, List.mem_append]

/-- A node that comes with an edit is there in the end. -/
theorem Lasting.mem_or_has (h : o.Lasting last top c o') {n : NodeRef} (hn : n ∈ top :: o'.nodes) :
    n ∈ top :: o.nodes ∨ last.Has n := by
  have hbefore : ∀ {b : Outline} {p : Path} {d : NodeRef}, o.place? top p = some (d, b) → n ∈ b.nodes → n ∈ top :: o.nodes :=
    fun place h => List.mem_cons_of_mem _ (nodes_subset_of_place? place h)
  cases h with
  | @updated p c before after t t' place node below shown =>
    rcases mem_nodes_setBelow place hn with hnew | hold
    · have hsame : (ofList (before ++ t' :: after)).nodes = (ofList (before ++ t :: after)).nodes := by
        rw [nodes_ofList_append, nodes_ofList_append, ofList_cons, ofList_cons, nodes_cons, nodes_cons, node, below]
      rw [hsame] at hnew
      exact Or.inl (hbefore place hnew)
    · exact Or.inl hold
  | @added p c b t place parent carried =>
    rcases mem_nodes_setBelow place hn with hnew | hold
    · rw [nodes_ofList_append, ofList_toList, List.mem_append] at hnew
      rcases hnew with hold | hadded
      · exact Or.inl (hbefore place hold)
      · exact Or.inr (Document.has_iff.mpr (carried.isSome_node? hadded))
    · exact Or.inl hold
  | @removed p c before after t place parent =>
    rcases mem_nodes_setBelow place hn with hnew | hold
    · rw [nodes_ofList_append, List.mem_append] at hnew
      exact Or.inl (hbefore place (mem_nodes_split.mpr (hnew.imp_right Or.inr)))
    · exact Or.inl hold
  | @replaced p c before after t t' place node parent carried =>
    rcases mem_nodes_setBelow place hn with hnew | hold
    · rcases mem_nodes_split.mp hnew with hold | hput | hold
      · exact Or.inl (hbefore place (mem_nodes_split.mpr (Or.inl hold)))
      · exact Or.inr (Document.has_iff.mpr (carried.isSome_node? hput))
      · exact Or.inl (hbefore place (mem_nodes_split.mpr (Or.inr (Or.inr hold))))
    · exact Or.inl hold

end Outline

/-! ## Edits one after the other -/

namespace Store

/-- Edits lead from one store to another, with these changes, and what each of them leaves behind is still there in a later
document. -/
inductive LastingAll (last : Document) (d : DocumentId) : Store → Outline → List Change → Store → Outline → Prop
  | nil {s : Store} {o : Outline} (shows : s.Shows d o) : LastingAll last d s o [] s o
  | cons {s s₁ s' : Store} {o o₁ o' : Outline} {c : Change} {changes : List Change} (shows : s.Shows d o)
      (turns : s.Turns s₁) (first : o.Lasting last (rootOf d) c o₁) (rest : LastingAll last d s₁ o₁ changes s' o') :
      LastingAll last d s o (c :: changes) s' o'

namespace LastingAll

variable {last : Document} {d : DocumentId} {s s' s'' : Store} {o o' o'' : Outline} {changes more : List Change}

theorem before (h : LastingAll last d s o changes s' o') : s.Shows d o := by
  cases h with
  | nil shows => exact shows
  | cons shows turns first rest => exact shows

/-- What edits leave behind one list after the other they leave behind in a row. -/
theorem append (h : LastingAll last d s o changes s' o') (h' : LastingAll last d s' o' more s'' o'') :
    LastingAll last d s o (changes ++ more) s'' o'' := by
  induction h with
  | nil shows => exact h'
  | cons shows turns first rest ih => exact .cons shows turns first (ih h')

/-- A mirror follows the changes one after the other. -/
theorem followAll (h : LastingAll last d s o changes s' o') {m : Mirror} (hm : m.Holds o.mirroredRoot) :
    ∃ m', m.followAll last changes = .ok m' ∧ m'.Holds o'.mirroredRoot := by
  induction h generalizing m with
  | nil shows => exact ⟨m, rfl, hm⟩
  | cons shows turns first rest ih =>
    obtain ⟨m₁, hfirst, h₁⟩ := hm.follow rest.before first
    obtain ⟨m₂, hrest, h₂⟩ := ih h₁
    refine ⟨m₂, ?_, h₂⟩
    rw [Mirror.followAll, hfirst]
    exact hrest

/-- A slot keeps its generation to the end, if the node in it, should there be one, is there in the end. -/
theorem generation_eq (h : LastingAll last d s o changes s' o') (hlast : last.store = s') {i : Nat}
    (hstays : ∀ n : NodeRef, (s.node? n).isSome → n.index = i → last.Has n) :
    s'.nodes.generation i = s.nodes.generation i := by
  induction h with
  | nil shows => rfl
  | @cons s s₁ s' o o₁ o' c changes shows turns first rest ih =>
    by_cases hheld : s.nodes.holdsAt i = true
    · -- the node that is in the slot now is there in the end
      have hnow : (s.node? ⟨s.document, ⟨i, s.nodes.generation i⟩⟩).isSome := isSome_node?_iff.mpr ⟨rfl, hheld, rfl⟩
      have hthen := Document.has_iff.mp (hstays _ hnow rfl)
      rw [hlast] at hthen
      exact (isSome_node?_iff.mp hthen).2.2
    · -- the slot is vacant, so what comes into it in this step has come to stay
      have hsame : s₁.nodes.generation i = s.nodes.generation i := by
        rcases turns.nodes.generation i with ⟨hsame, _⟩ | ⟨_, hholds⟩
        · exact hsame
        · exact absurd hholds hheld
      rw [ih hlast, hsame]
      intro n hn hindex
      rcases first.mem_or_has (rest.before.mem_nodes_iff.mpr hn) with hold | hhas
      · exact hstays n (shows.mem_nodes_iff.mp hold) hindex
      · exact hhas

/-- The handle of a node that is removed is stale in the end. -/
theorem stale (h : LastingAll last d s o changes s' o') (hlast : last.store = s') {s₀ : Store} {o₀ : Outline} {n : NodeRef}
    (hshows : s₀.Shows d o₀) (hturns : s₀.Turns s) (hlive : (s₀.node? n).isSome) (hdead : s.node? n = none)
    (hnew : ∀ m ∈ rootOf d :: o.nodes, m ∈ rootOf d :: o₀.nodes ∨ last.Has m) :
    last.node n = .error (.invalidHandle n) := by
  obtain ⟨hdocument, hheld, hgeneration⟩ := isSome_node?_iff.mp hlive
  have hnext : s.nodes.generation n.index = n.key.generation + 1 := by
    refine hturns.nodes.generation_succ (Slots.isSome_get?_iff.mpr ⟨hheld, hgeneration⟩) ?_
    rw [← hdead, node?, if_pos (hdocument.trans hturns.document.symm)]
  have hkept : s'.nodes.generation n.index = s.nodes.generation n.index := by
    refine h.generation_eq hlast ?_
    intro m hm hindex
    rcases hnew m (h.before.mem_nodes_iff.mpr hm) with hold | hhas
    · -- the slot held the node that was removed, and no other
      rw [eq_of_index (hshows.mem_nodes_iff.mp hold) hlive hindex, hdead] at hm
      cases hm
    · exact hhas
  have hgone : last.store.node? n = none := by
    rw [← Option.not_isSome_iff_eq_none, isSome_node?_iff, hlast]
    rintro ⟨_, _, hsame⟩
    rw [hkept, hnext] at hsame
    simp at hsame
  rw [Document.node, hgone]

/-- Every change fits the document in the end. -/
theorem fits (h : LastingAll last d s o changes s' o') (hlast : last.store = s') : ∀ c ∈ changes, c.Fits last := by
  induction h with
  | nil shows => exact List.forall_mem_nil _
  | @cons s s₁ s' o o₁ o' c changes shows turns first rest ih =>
    refine List.forall_mem_cons.mpr ⟨?_, ih hlast⟩
    cases first with
    | @updated p c before after t t' place node below shown =>
      obtain ⟨payload, hget, _⟩ := exists_of_bind_eq_ok shown
      obtain ⟨node, hnode, _⟩ := exists_of_bind_eq_ok hget
      exact ⟨node, hnode⟩
    | @added p c b t place parent carried =>
      exact ⟨Document.has_iff.mpr (Option.isSome_of_eq_some carried.node?), Document.has_iff.mpr parent⟩
    | @removed p c before after t place parent =>
      have hat : t.node ∈ (Outline.ofList (before ++ t :: after)).nodes := by
        rw [Outline.nodes_ofList_append, Outline.ofList_cons, Outline.nodes_cons]
        exact List.mem_append_right _ List.mem_cons_self
      have hmem : t.node ∈ rootOf d :: o.nodes := List.mem_cons_of_mem _ (Outline.nodes_subset_of_place? place hat)
      have hdead : s₁.node? t.node = none := by
        rw [← Option.not_isSome_iff_eq_none, ← rest.before.mem_nodes_iff]
        exact Outline.notMem_nodes_removed place shows.nodup_walk
      have hnew : ∀ m ∈ rootOf d :: (o.setBelow p (.ofList (before ++ after))).nodes,
          m ∈ rootOf d :: o.nodes ∨ last.Has m :=
        fun m hm => (Outline.Lasting.removed place parent).mem_or_has hm
      exact ⟨rest.stale hlast shows turns (shows.mem_nodes_iff.mp hmem) hdead hnew, Document.has_iff.mpr parent⟩
    | @replaced p c before after t t' place node parent carried =>
      exact ⟨Document.has_iff.mpr (node ▸ Option.isSome_of_eq_some carried.node?), Document.has_iff.mpr parent⟩

end LastingAll

end Store

end LiveMarkup
