import LiveMarkup.Edit.Basic
import LiveMarkup.Proofs.Holds

/-!
# Places in a tree

A path leads from the root to a node, one position among the children at a time. Where it leads to the root or an element,
there is a forest below it (`Forest.below?`), and another can be put there (`Forest.setBelow`). An outline has the same
places with handles. Of what a store holds for an outline, the part below one place can be told from the rest, which stays
as it is whatever is put there (`Outline.focus`).
-/

namespace LiveMarkup

/-- A list with a member at a position is what is before it, the member, and what is after it. -/
theorem exists_split_of_getElem? {α : Type} {l : List α} {i : Nat} {a : α} (h : l[i]? = some a) :
    ∃ before after, l = before ++ a :: after ∧ before.length = i := by
  obtain ⟨hi, rfl⟩ := List.getElem?_eq_some_iff.mp h
  refine ⟨l.take i, l.drop (i + 1), ?_, List.length_take_of_le (Nat.le_of_lt hi)⟩
  rw [List.getElem_cons_drop, List.take_append_drop]

theorem modify_append_cons {α : Type} (before after : List α) (a : α) (f : α → α) :
    (before ++ a :: after).modify before.length f = before ++ f a :: after := by
  induction before with
  | nil => rfl
  | cons b before ih => rw [List.cons_append, List.length_cons, List.modify_succ_cons, ih, List.cons_append]

theorem getElem?_append_cons {α : Type} (before after : List α) (a : α) :
    (before ++ a :: after)[before.length]? = some a := by
  rw [List.getElem?_append_right (Nat.le_refl _), Nat.sub_self, List.getElem?_cons_zero]

namespace Tree

/-- The forest below the node of a tree, if it is an element. -/
def below? : Tree → Option Forest
  | leaf _ => none
  | element _ _ children => some children

/-- The tree with what is below its node changed; a text stays as it is. -/
def mapBelow (f : Forest → Forest) : Tree → Tree
  | leaf text => leaf text
  | element name attributes children => element name attributes (f children)

end Tree

namespace Forest

/-- The forest below the node that a path leads to, if that is the root or an element. -/
def below? : Forest → Path → Option Forest
  | f, [] => some f
  | f, i :: path => f.toList[i]?.bind fun t => t.below?.bind fun children => children.below? path

/-- The forest with another one put below the node that a path leads to. -/
def setBelow : Forest → Path → Forest → Forest
  | _, [], new => new
  | f, i :: path, new => ofList (f.toList.modify i fun t => t.mapBelow fun children => children.setBelow path new)

/-- A path that begins with a step leads through an element. -/
theorem below?_cons_eq_some {f g : Forest} {i : Nat} {path : Path} (h : f.below? (i :: path) = some g) :
    ∃ before after name attributes children, f.toList = before ++ .element name attributes children :: after ∧
      before.length = i ∧ children.below? path = some g := by
  simp only [below?, Option.bind_eq_some_iff] at h
  obtain ⟨t, ht, children, hchildren, hpath⟩ := h
  obtain ⟨before, after, hsplit, hlength⟩ := exists_split_of_getElem? ht
  cases t with
  | leaf text => cases hchildren
  | element name attributes below =>
    cases hchildren
    exact ⟨before, after, name, attributes, children, hsplit, hlength, hpath⟩

/-- What is put below a node by way of an element goes below that element. -/
theorem setBelow_cons {f : Forest} {before after : List Tree} {name : QName} {attributes : List Attribute}
    {children : Forest} (h : f.toList = before ++ .element name attributes children :: after) (path : Path)
    (new : Forest) : f.setBelow (before.length :: path) new =
      .ofList (before ++ .element name attributes (children.setBelow path new) :: after) := by
  rw [setBelow, h, modify_append_cons, Tree.mapBelow]

/-- Following one path and then another comes to following both in a row. -/
theorem below?_append (f : Forest) (p q : Path) : f.below? (p ++ q) = (f.below? p).bind fun g => g.below? q := by
  induction p generalizing f with
  | nil => rfl
  | cons i p ih =>
    rw [List.cons_append, below?, below?]
    cases f.toList[i]? with
    | none => rfl
    | some t =>
      cases t with
      | leaf text => rfl
      | element name attributes children => exact ih children

/-- What has been put at a place is there. -/
theorem below?_setBelow {f g : Forest} {p : Path} (h : f.below? p = some g) (new : Forest) :
    (f.setBelow p new).below? p = some new := by
  induction p generalizing f with
  | nil => rfl
  | cons i p ih =>
    obtain ⟨before, after, name, attributes, children, hlist, rfl, hchildren⟩ := below?_cons_eq_some h
    rw [setBelow_cons hlist, below?, toList_ofList, getElem?_append_cons]
    exact ih hchildren

/-- What is put at a place further on is put into what is at the place. -/
theorem setBelow_append {f g : Forest} {p : Path} (h : f.below? p = some g) (q : Path) (new : Forest) :
    f.setBelow (p ++ q) new = f.setBelow p (g.setBelow q new) := by
  induction p generalizing f with
  | nil =>
    cases h
    rfl
  | cons i p ih =>
    obtain ⟨before, after, name, attributes, children, hlist, rfl, hchildren⟩ := below?_cons_eq_some h
    rw [List.cons_append, setBelow_cons hlist, setBelow_cons hlist, ih hchildren]

/-- Of two forests put at one place the second remains. -/
theorem setBelow_setBelow {f g : Forest} {p : Path} (h : f.below? p = some g) (new new' : Forest) :
    (f.setBelow p new).setBelow p new' = f.setBelow p new' := by
  induction p generalizing f with
  | nil => rfl
  | cons i p ih =>
    obtain ⟨before, after, name, attributes, children, hlist, rfl, hchildren⟩ := below?_cons_eq_some h
    rw [setBelow_cons hlist, setBelow_cons (toList_ofList _), setBelow_cons hlist, ih hchildren]

/-- Putting at a place what is there changes nothing. -/
theorem setBelow_self {f g : Forest} {p : Path} (h : f.below? p = some g) : f.setBelow p g = f := by
  induction p generalizing f with
  | nil =>
    cases h
    rfl
  | cons i p ih =>
    obtain ⟨before, after, name, attributes, children, hlist, rfl, hchildren⟩ := below?_cons_eq_some h
    rw [setBelow_cons hlist, ih hchildren, ← hlist, ofList_toList]

end Forest

namespace OutlineTree

/-- The outline below the node of a tree, if it is an element. -/
def below? : OutlineTree → Option Outline
  | leaf _ _ => none
  | element _ _ _ children => some children

/-- The tree with what is below its node changed; a text stays as it is. -/
def mapBelow (f : Outline → Outline) : OutlineTree → OutlineTree
  | leaf node text => leaf node text
  | element node name attributes children => element node name attributes (f children)

end OutlineTree

namespace Outline

/-- The node that a path leads to from a node that the outline is below, with what is below it, if it is no text. -/
def place? : Outline → (top : NodeRef) → Path → Option (NodeRef × Outline)
  | o, top, [] => some (top, o)
  | o, _, i :: path => o.toList[i]?.bind fun t => t.below?.bind fun children => children.place? t.node path

/-- The outline with another one put below the node that a path leads to. -/
def setBelow : Outline → Path → Outline → Outline
  | _, [], new => new
  | o, i :: path, new => ofList (o.toList.modify i fun t => t.mapBelow fun children => children.setBelow path new)

/-- A path that begins with a step leads through an element. -/
theorem place?_cons_eq_some {o b : Outline} {top c : NodeRef} {i : Nat} {path : Path}
    (h : o.place? top (i :: path) = some (c, b)) :
    ∃ before after n name attributes children, o.toList = before ++ .element n name attributes children :: after ∧
      before.length = i ∧ children.place? n path = some (c, b) := by
  simp only [place?, Option.bind_eq_some_iff] at h
  obtain ⟨t, ht, children, hchildren, hpath⟩ := h
  obtain ⟨before, after, hsplit, hlength⟩ := exists_split_of_getElem? ht
  cases t with
  | leaf n text => cases hchildren
  | element n name attributes below =>
    cases hchildren
    exact ⟨before, after, n, name, attributes, children, hsplit, hlength, hpath⟩

/-- What is put below a node by way of an element goes below that element. -/
theorem setBelow_cons {o : Outline} {before after : List OutlineTree} {n : NodeRef} {name : QName}
    {attributes : List (AttributeRef × Attribute)} {children : Outline}
    (h : o.toList = before ++ .element n name attributes children :: after) (path : Path) (new : Outline) :
    o.setBelow (before.length :: path) new =
      .ofList (before ++ .element n name attributes (children.setBelow path new) :: after) := by
  rw [setBelow, h, modify_append_cons, OutlineTree.mapBelow]

/-- Following one path and then another comes to following both in a row. -/
theorem place?_append (o : Outline) (top : NodeRef) (p q : Path) :
    o.place? top (p ++ q) = (o.place? top p).bind fun place => place.2.place? place.1 q := by
  induction p generalizing o top with
  | nil => rfl
  | cons i p ih =>
    rw [List.cons_append, place?, place?]
    cases o.toList[i]? with
    | none => rfl
    | some t =>
      cases t with
      | leaf n text => rfl
      | element n name attributes children => exact ih children n

/-- A place with one more step is below the tree there, if that is an element. -/
theorem place?_concat {o : Outline} {top c : NodeRef} {p : Path} {before after : List OutlineTree} {t : OutlineTree}
    (h : o.place? top p = some (c, ofList (before ++ t :: after))) :
    o.place? top (p ++ [before.length]) = t.below?.map fun below => (t.node, below) := by
  rw [place?_append, h, Option.bind_some, place?, toList_ofList, getElem?_append_cons]
  cases t <;> rfl

/-- The nodes at a place are nodes of the outline. -/
theorem nodes_subset_of_place? {o b : Outline} {top c : NodeRef} {p : Path} (h : o.place? top p = some (c, b)) :
    b.nodes ⊆ o.nodes := by
  induction p generalizing o top with
  | nil =>
    cases h
    exact List.Subset.refl _
  | cons i p ih =>
    obtain ⟨before, after, n, name, attributes, children, hlist, rfl, hchildren⟩ := place?_cons_eq_some h
    intro m hm
    have hmem := ih hchildren hm
    rw [← ofList_toList o, hlist, nodes_ofList_append]
    simp only [ofList_cons, cons, nodes, List.mem_append, List.mem_cons]
    exact Or.inr (Or.inr (Or.inl hmem))

/-- Putting at a place what is there changes nothing. -/
theorem setBelow_self {o b : Outline} {top c : NodeRef} {p : Path} (h : o.place? top p = some (c, b)) :
    o.setBelow p b = o := by
  induction p generalizing o top with
  | nil =>
    cases h
    rfl
  | cons i p ih =>
    obtain ⟨before, after, n, name, attributes, children, hlist, rfl, hchildren⟩ := place?_cons_eq_some h
    rw [setBelow_cons hlist, ih hchildren, ← hlist, ofList_toList]

/-- What has been put at a place is there, below the same node. -/
theorem place?_setBelow {o b : Outline} {top c : NodeRef} {p : Path} (h : o.place? top p = some (c, b)) (new : Outline) :
    (o.setBelow p new).place? top p = some (c, new) := by
  induction p generalizing o top with
  | nil =>
    cases h
    rfl
  | cons i p ih =>
    obtain ⟨before, after, n, name, attributes, children, hlist, rfl, hchildren⟩ := place?_cons_eq_some h
    rw [setBelow_cons hlist, place?, toList_ofList, getElem?_append_cons]
    exact ih hchildren

/-- Of two outlines put at one place the second remains. -/
theorem setBelow_setBelow {o b : Outline} {top c : NodeRef} {p : Path} (h : o.place? top p = some (c, b))
    (new new' : Outline) : (o.setBelow p new).setBelow p new' = o.setBelow p new' := by
  induction p generalizing o top with
  | nil => rfl
  | cons i p ih =>
    obtain ⟨before, after, n, name, attributes, children, hlist, rfl, hchildren⟩ := place?_cons_eq_some h
    rw [setBelow_cons hlist, setBelow_cons (toList_ofList _), setBelow_cons hlist, ih hchildren]

/-- What is put at a place further on is put into what is at the place. -/
theorem setBelow_append {o b : Outline} {top c : NodeRef} {p : Path} (h : o.place? top p = some (c, b)) (q : Path)
    (new : Outline) : o.setBelow (p ++ q) new = o.setBelow p (b.setBelow q new) := by
  induction p generalizing o top with
  | nil =>
    cases h
    rfl
  | cons i p ih =>
    obtain ⟨before, after, n, name, attributes, children, hlist, rfl, hchildren⟩ := place?_cons_eq_some h
    rw [List.cons_append, setBelow_cons hlist, setBelow_cons hlist, ih hchildren]

/-- The places of an outline are those of its forest. -/
theorem below?_forest (o : Outline) (top : NodeRef) (p : Path) :
    o.forest.below? p = (o.place? top p).map fun place => place.2.forest := by
  induction p generalizing o top with
  | nil => rfl
  | cons i p ih =>
    rw [Forest.below?, place?, toList_forest, List.getElem?_map]
    cases o.toList[i]? with
    | none => rfl
    | some t =>
      cases t with
      | leaf n text => rfl
      | element n name attributes children => exact ih children n

/-- Putting an outline at a place puts its forest at the place of the forest. -/
theorem forest_setBelow {o b : Outline} {top c : NodeRef} {p : Path} (h : o.place? top p = some (c, b))
    (new : Outline) : (o.setBelow p new).forest = o.forest.setBelow p new.forest := by
  induction p generalizing o top with
  | nil => rfl
  | cons i p ih =>
    obtain ⟨before, after, n, name, attributes, children, hlist, rfl, hchildren⟩ := place?_cons_eq_some h
    have hforest : o.forest.toList = before.map OutlineTree.tree ++
        .element name (attributes.map Prod.snd) children.forest :: after.map OutlineTree.tree := by
      rw [toList_forest, hlist, List.map_append, List.map_cons, OutlineTree.tree]
    have hset := Forest.setBelow_cons hforest p new.forest
    rw [List.length_map] at hset
    rw [setBelow_cons hlist, forest_ofList, hset, List.map_append, List.map_cons, OutlineTree.tree, ih hchildren]

/-- Of the entries for an outline and the node it is below, those at one place are one part: the node there and everything
below it. The others stay as they are when another outline is put there. -/
theorem focus {o b : Outline} {top c : NodeRef} {p : Path} (h : o.place? top p = some (c, b)) {payload : Payload}
    (hcontainer : payload.isContainer = true) (above : Option NodeRef) :
    ∃ (payload' : Payload) (above' : Option NodeRef) (N : Multiset (NodeRef × Node))
      (A : Multiset (AttributeRef × Attribute)), payload'.isContainer = true ∧
      ∀ new : Outline, (top, ⟨payload, above, (o.setBelow p new).tops⟩) ::ₘ (o.setBelow p new).entries top =
          (c, ⟨payload', above', new.tops⟩) ::ₘ (new.entries c + N) ∧
        (o.setBelow p new).attributeEntries = new.attributeEntries + A := by
  induction p generalizing o top payload above with
  | nil =>
    cases h
    refine ⟨payload, above, 0, 0, hcontainer, ?_⟩
    intro new
    rw [setBelow, Multiset.add_zero, Multiset.add_zero]
    exact ⟨rfl, rfl⟩
  | cons i p ih =>
    obtain ⟨before, after, n, name, attributes, children, hlist, rfl, hchildren⟩ := place?_cons_eq_some h
    have hcontainer' : (Payload.element name (attributes.map Prod.fst)).isContainer = true := rfl
    obtain ⟨payload', above', N, A, hplace, hfocus⟩ := ih hchildren hcontainer' (some top)
    refine ⟨payload', above', (top, ⟨payload, above, o.tops⟩) ::ₘ
      ((ofList before).entries top + (ofList after).entries top + N),
      (ofList before).attributeEntries + (ofList after).attributeEntries + (attributes + A), hplace, ?_⟩
    intro new
    obtain ⟨hnodes, hattributes⟩ := hfocus new
    have htops : (o.setBelow (before.length :: p) new).tops = o.tops := by
      rw [setBelow_cons hlist, tops_ofList, tops, hlist, List.map_append, List.map_append, List.map_cons, List.map_cons]
      rfl
    rw [htops, setBelow_cons hlist]
    constructor
    · rw [entries_ofList_append, ofList_cons, entries_cons, OutlineTree.entries, OutlineTree.node, OutlineTree.payload,
        OutlineTree.below, hnodes]
      rw [Multiset.cons_add, Multiset.add_cons, Multiset.add_cons, Multiset.cons_swap]
      congr 2
      abel
    · rw [attributeEntries_ofList_append, ofList_cons, attributeEntries_cons, OutlineTree.attributeEntries,
        OutlineTree.attributes, OutlineTree.below, hattributes]
      abel

end Outline

end LiveMarkup
