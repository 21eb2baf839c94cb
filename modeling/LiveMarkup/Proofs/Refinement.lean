import Mathlib
import LiveMarkup.Proofs.Reachable

/-!
# Lists of edits refine edits of plain trees

A list of edits with legal names is carried out on a document exactly if each of its edits is legal on the plain tree that
the ones before it leave, and then the tree of the document is the tree that they lead to. For each edit one change is
reported, which names the nodes concerned (`Store.Reported`). Else the first edit that is not legal is reported with its
number, and the document and what the handler was given stay as they were (`applyEdits_refines`).
-/

namespace LiveMarkup

/-- The node that a path leads to from the root, one position among the children at a time. -/
def Store.nodeAt? (s : Store) (path : Path) : Option NodeRef :=
  path.foldlM (fun n i => (s.childrenOf n)[i]?) s.root

/-- The parent of a node. -/
def Store.parentOf? (s : Store) (n : NodeRef) : Option NodeRef :=
  (s.node? n).bind Node.parent

/-- A change names the node that the path of an edit leads to, or the new child for an edit that appends one, with the
parent where children came, went or were exchanged. -/
inductive Store.Reported (s s' : Store) : Edit → Change → Prop
  | setAttributes {path : Path} {n : NodeRef} (attributes : List Attribute) (leads : s.nodeAt? path = some n) :
      Reported s s' (.setAttributes path attributes) (.updated n)
  | setText {path : Path} {n : NodeRef} (text : String) (leads : s.nodeAt? path = some n) :
      Reported s s' (.setText path text) (.updated n)
  | append {path : Path} {n child : NodeRef} (tree : Tree) (leads : s.nodeAt? path = some n)
      (fresh : s.node? child = none) (last : s'.childrenOf n = s.childrenOf n ++ [child]) :
      Reported s s' (.append path tree) (.added child n)
  | remove {path : Path} {n p : NodeRef} (leads : s.nodeAt? path = some n) (parent : s.parentOf? n = some p) :
      Reported s s' (.remove path) (.removed n p)
  | replace {path : Path} {n p : NodeRef} (tree : Tree) (leads : s.nodeAt? path = some n)
      (parent : s.parentOf? n = some p) : Reported s s' (.replace path tree) (.replaced n p)

/-- Edits that are carried out one after the other are reported by one change each, in order. -/
inductive Store.ReportedAll : Store → List Edit → List Change → Store → Prop
  | nil (s : Store) : ReportedAll s [] [] s
  | cons {s s' s'' : Store} {e : Edit} {c : Change} {edits : List Edit} {changes : List Change}
      (done : s.applyEdit e = .ok (s', c)) (first : s.Reported s' e c) (rest : ReportedAll s' edits changes s'') :
      ReportedAll s (e :: edits) (c :: changes) s''

namespace Outline

/-- Where there is a place, the path leads to its node. -/
theorem find?_of_place? {o b : Outline} {top c : NodeRef} {p : Path} (h : o.place? top p = some (c, b)) :
    o.find? top p = some c := by
  induction p generalizing o top with
  | nil =>
    cases h
    rfl
  | cons i p ih =>
    obtain ⟨before, after, n, name, attributes, children, hlist, rfl, hchildren⟩ := place?_cons_eq_some h
    rw [find?, hlist, getElem?_append_cons]
    exact ih hchildren

/-- One more step leads to the tree at its position. -/
theorem find?_of_place?_concat {o : Outline} {top c : NodeRef} {p : Path} {before after : List OutlineTree}
    {t : OutlineTree} (h : o.place? top p = some (c, ofList (before ++ t :: after))) :
    o.find? top (p ++ [before.length]) = some t.node := by
  rw [find?_concat, h, Option.bind_some, toList_ofList, getElem?_append_cons]
  rfl

end Outline

namespace Store

variable {s s' : Store} {d : DocumentId} {o o' : Outline}

/-- Children are looked up as the outline has them. -/
theorem Holds.foldlM_childrenOf {N : Multiset (NodeRef × Node)} {A : Multiset (AttributeRef × Attribute)}
    (h : s.Holds d N A) {top : NodeRef} {node : Node} (hnode : (top, node) ∈ N) (htops : node.children = o.tops)
    (hentries : o.entries top ⊆ N) (path : Path) :
    path.foldlM (fun n i => (s.childrenOf n)[i]?) top = o.find? top path := by
  induction path generalizing o top node with
  | nil => rfl
  | cons i path ih =>
    have hchild : (s.childrenOf top)[i]? = o.toList[i]?.map OutlineTree.node := by
      rw [Store.childrenOf, h.node?_eq.mpr hnode]
      simp only [htops, Outline.tops, List.getElem?_map]
    rw [List.foldlM_cons, hchild, Outline.find?]
    cases ht : o.toList[i]? with
    | none => rfl
    | some t =>
      have hmem : t ∈ o.toList := List.mem_of_getElem? ht
      have hbelow : t.below.entries t.node ⊆ N := fun e he => hentries (Outline.entries_below_subset hmem top he)
      exact ih (hentries (Outline.mem_entries_of_mem hmem top)) rfl hbelow

namespace Shows

/-- A path leads to the node at its place in the outline. -/
theorem nodeAt?_eq (h : s.Shows d o) (path : Path) : s.nodeAt? path = o.find? (rootOf d) path := by
  rw [nodeAt?, h.root]
  exact h.foldlM_childrenOf (Multiset.mem_cons_self _ _) rfl (fun e he => Multiset.mem_cons_of_mem he) path

/-- The parent of a tree's top is the node at its place. -/
theorem parentOf?_eq (h : s.Shows d o) {path : Path} {c : NodeRef} {before after : List OutlineTree} {t : OutlineTree}
    (place : o.place? (rootOf d) path = some (c, .ofList (before ++ t :: after))) : s.parentOf? t.node = some c := by
  have hnode := h.node_of_place? place
  rw [Store.node] at hnode
  split at hnode
  · rename_i node hfound
    cases hnode
    rw [parentOf?, hfound]
    rfl
  · cases hnode

/-- What is at a place is listed by its node. -/
theorem childrenOf_eq (h : s.Shows d o) {path : Path} {c : NodeRef} {b : Outline}
    (place : o.place? (rootOf d) path = some (c, b)) : s.childrenOf c = b.tops := by
  obtain ⟨payload, above, N, A, _, hfocus⟩ := focus place
  have hold := (hfocus s _).mp ((Outline.setBelow_self place).symm ▸ h)
  rw [childrenOf, hold.node?_eq.mpr (Multiset.mem_cons_self _ _)]

/-- A tree that has been appended has a new node at its top, one that is not among the others, which include all old ones. -/
theorem node?_eq_none_of_append (h : s.Shows d o) {path : Path} {c : NodeRef} {b : Outline} {t : OutlineTree}
    (place : o.place? (rootOf d) path = some (c, b)) (h' : s'.Shows d (o.setBelow path (.ofList (b.toList ++ [t])))) :
    s.node? t.node = none := by
  obtain ⟨payload, above, N, A, _, hfocus⟩ := focus place
  have hold := (hfocus s _).mp ((Outline.setBelow_self place).symm ▸ h)
  have hnew := ((hfocus s' _).mp h').nodup_nodes
  have hkeys : Multiset.map Prod.fst ((c, (⟨payload, above, (Outline.ofList (b.toList ++ [t])).tops⟩ : Node)) ::ₘ
      ((Outline.ofList (b.toList ++ [t])).entries c + N)) =
      t.node ::ₘ ((c ::ₘ (↑b.nodes + N.map Prod.fst)) + ↑t.below.nodes) := by
    rw [Multiset.map_cons, Multiset.map_add, Outline.entries_ofList_append, Outline.ofList_toList, Multiset.map_add,
      Outline.map_fst_entries, Outline.ofList_cons, Outline.entries_cons, Outline.ofList_nil, Outline.entries,
      OutlineTree.entries, Multiset.add_zero, Multiset.map_cons, Outline.map_fst_entries, Multiset.add_cons,
      Multiset.cons_add, Multiset.cons_swap, Multiset.cons_add]
    congr 2
    abel
  rw [hkeys] at hnew
  have hfresh := (Multiset.nodup_cons.mp hnew).1
  refine Option.eq_none_iff_forall_ne_some.mpr ?_
  intro node hnode
  refine hfresh (Multiset.mem_add.mpr (Or.inl ?_))
  have hmem := Multiset.mem_map_of_mem Prod.fst (hold.node?_eq.mp hnode)
  rw [Multiset.map_cons, Multiset.map_add, Outline.map_fst_entries] at hmem
  exact hmem

/-- What an edit does is reported by the handles of the nodes concerned. -/
theorem reported_of_edited (h : s.Shows d o) (h' : s'.Shows d o') {e : Edit} {c : Change}
    (hedited : o.Edited (rootOf d) e c o') : s.Reported s' e c := by
  cases hedited with
  | setAttributes place kept => exact .setAttributes _ ((h.nodeAt?_eq _).trans (Outline.find?_of_place?_concat place))
  | setText text place => exact .setText _ ((h.nodeAt?_eq _).trans (Outline.find?_of_place?_concat place))
  | append t place =>
    rename_i path c b
    refine .append _ ((h.nodeAt?_eq _).trans (Outline.find?_of_place? place)) (h.node?_eq_none_of_append place h') ?_
    have hplace : (o.setBelow path (.ofList (b.toList ++ [t]))).place? (rootOf d) path =
        some (c, .ofList (b.toList ++ [t])) := Outline.place?_setBelow place _
    rw [h'.childrenOf_eq hplace, h.childrenOf_eq place, Outline.tops_ofList, List.map_append]
    rfl
  | remove place =>
    exact .remove ((h.nodeAt?_eq _).trans (Outline.find?_of_place?_concat place)) (h.parentOf?_eq place)
  | replace place kept =>
    exact .replace _ ((h.nodeAt?_eq _).trans (Outline.find?_of_place?_concat place)) (h.parentOf?_eq place)

/-- What a list of edits does is reported edit by edit. -/
theorem reportedAll_of_applyAll (h : s.Shows d o) {number : Nat} {edits : List Edit} {changes : List Change}
    (happly : s.applyAll number edits = .ok (s', changes)) : s.ReportedAll edits changes s' := by
  induction edits generalizing s o number changes with
  | nil =>
    cases happly
    exact .nil _
  | cons e rest ih =>
    rw [applyAll] at happly
    rcases h.carriesOut e with ⟨s₁, o₁, c, hfirst, h₁, hedited⟩ | ⟨_, reason, hfault⟩ | ⟨_, hfault⟩
    · simp only [hfirst] at happly
      split at happly
      · cases happly
      · rename_i s₂ changes' hrest
        cases happly
        exact .cons hfirst (h.reported_of_edited h₁ hedited) (ih h₁ hrest)
    · simp only [hfault] at happly
      cases happly
    · simp only [hfault] at happly
      cases happly

end Shows

end Store

namespace Document

/-- A list of edits with legal names is carried out exactly if each edit is legal on the plain tree that the ones before it
leave. Then the tree of the document is the one that they lead to, and each edit is reported by a change, which the handler is
given after all it was given before. Else the first edit that is not legal is reported with its number, the handler is given
no change, and the document stays as it is. -/
theorem applyEdits_refines {d : Document} (h : d.Reachable) {edits : List Edit}
    (hnames : Edit.checkNames 0 edits = .ok ()) :
    match d.forest.carryOutAll 0 edits with
    | .ok f => ∃ d' changes, d.applyEdits edits = .ok (d', changes) ∧ d'.forest = f ∧
        d.store.ReportedAll edits changes d'.store ∧
        ∀ handled, (Update.applyEdits edits).perform ⟨d, handled⟩ = (.ok (), ⟨d', handled ++ changes⟩)
    | .error (k, reason) => ∃ e,
        (match reason with
          | .misfit => ∃ why, e = .misfit k why
          | .root => e = .rejected k (.document .rootRemoval)) ∧
        d.applyEdits edits = .error e ∧
        ∀ handled, (Update.applyEdits edits).perform ⟨d, handled⟩ = (.error e, ⟨d, handled⟩) := by
  have hshows := h.shows
  have hall := hshows.applyAll_spec 0 edits
  have hcommit : d.applyEdits edits = d.commit edits := by
    rw [applyEdits_eq, hnames]
  have hperform : ∀ handled, (Update.applyEdits edits).perform ⟨d, handled⟩ =
      Stage.after ⟨d, handled⟩ (d.commit edits) := by
    intro handled
    rw [Update.applyEdits_allOrNothing, ← hcommit]
    rfl
  simp only [hperform, hcommit]
  rw [commit, Document.forest]
  split at hall
  · rename_i f hf
    obtain ⟨s', o', changes, happly, h', rfl, _⟩ := hall
    rw [hf, happly]
    refine ⟨{ d with store := s' }, changes, rfl, ?_, hshows.reportedAll_of_applyAll happly, fun _ => rfl⟩
    exact forest_of_shows h'
  · rename_i k hk
    obtain ⟨why, hfault⟩ := hall
    rw [hk, hfault]
    exact ⟨_, ⟨why, rfl⟩, rfl, fun _ => rfl⟩
  · rename_i k hk
    rw [hk, hall]
    exact ⟨_, rfl, rfl, fun _ => rfl⟩

/-- When the text before it is removed the other entry moves up, so that its own text is found at another path. -/
theorem applyEdits_to_other_entry : ∃ d' changes,
    (withOtherEntry ⟨1⟩).applyEdits [.setAttributes [0] [], .remove [0, 0], .setText [0, 0, 0] "d"] = .ok (d', changes) ∧
    d'.forest = .element ⟨"", "ul"⟩ [] (.element ⟨"", "li"⟩ [⟨⟨"", "class"⟩, "z"⟩] (.leaf "d" .nil) .nil) .nil := by
  have hnames : Edit.checkNames 0 [.setAttributes [0] [], .remove [0, 0], .setText [0, 0, 0] "d"] = .ok () := rfl
  have hrefines := applyEdits_refines (reachable_withOtherEntry ⟨1⟩) hnames
  have hlegal : (withOtherEntry ⟨1⟩).forest.carryOutAll 0
      [.setAttributes [0] [], .remove [0, 0], .setText [0, 0, 0] "d"] =
      .ok (.element ⟨"", "ul"⟩ [] (.element ⟨"", "li"⟩ [⟨⟨"", "class"⟩, "z"⟩] (.leaf "d" .nil) .nil) .nil) := by
    cbv
  rw [hlegal] at hrefines
  obtain ⟨d', changes, happly, hforest, _⟩ := hrefines
  exact ⟨d', changes, happly, hforest⟩

end Document

end LiveMarkup
