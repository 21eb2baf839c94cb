import Mathlib.Data.Multiset.AddSub
import Mathlib.Data.Multiset.MapFold
import LiveMarkup.Store.Basic

/-!
# Outlines and what a store holds for them

An outline is the list of its trees, as a forest is. The nodes that a store has to hold for an outline, each with its
parent and its children, are its `entries`; the attributes are its `attributeEntries`.
-/

namespace LiveMarkup

/-- One node of an outline with everything below it. -/
inductive OutlineTree
  | leaf (node : NodeRef) (text : String)
  | element (node : NodeRef) (name : QName) (attributes : List (AttributeRef × Attribute)) (children : Outline)
deriving DecidableEq, Repr

namespace OutlineTree

/-- The handle of the node. -/
def node : OutlineTree → NodeRef
  | leaf node _ => node
  | element node _ _ _ => node

/-- The tree without its handles. -/
def tree : OutlineTree → Tree
  | leaf _ text => .leaf text
  | element _ name attributes children => .element name (attributes.map Prod.snd) children.forest

/-- What the node is. -/
def payload : OutlineTree → Payload
  | leaf _ text => .leaf text
  | element _ name attributes _ => .element name (attributes.map Prod.fst)

/-- The attributes of the node. -/
def attributes : OutlineTree → List (AttributeRef × Attribute)
  | leaf _ _ => []
  | element _ _ attributes _ => attributes

/-- The outline below the node; below a text there is nothing. -/
def below : OutlineTree → Outline
  | leaf _ _ => .nil
  | element _ _ _ children => children

end OutlineTree

/-- The forest below the node of a tree; below a text there is nothing. -/
def Tree.below : Tree → Forest
  | leaf _ => .nil
  | element _ _ children => children

namespace Outline

/-- The trees of an outline, in order. -/
def toList : Outline → List OutlineTree
  | nil => []
  | leaf node text next => .leaf node text :: next.toList
  | element node name attributes children next => .element node name attributes children :: next.toList

/-- The outline that begins with a tree. -/
def cons : OutlineTree → Outline → Outline
  | .leaf node text, next => leaf node text next
  | .element node name attributes children, next => element node name attributes children next

/-- The outline of a list of trees. -/
def ofList (trees : List OutlineTree) : Outline :=
  trees.foldr cons nil

/-- The handles of the nodes at the top. -/
def tops (o : Outline) : List NodeRef :=
  o.toList.map OutlineTree.node

/-- The nodes as they stand in a store that holds the outline below a parent. -/
def entries : (parent : NodeRef) → Outline → Multiset (NodeRef × Node)
  | _, nil => 0
  | parent, leaf n text next => (n, ⟨.leaf text, some parent, []⟩) ::ₘ next.entries parent
  | parent, element n name attributes children next =>
    (n, ⟨.element name (attributes.map Prod.fst), some parent, children.tops⟩) ::ₘ
      (children.entries n + next.entries parent)

/-- The attributes as they stand in a store that holds the outline. -/
def attributeEntries : Outline → Multiset (AttributeRef × Attribute)
  | nil => 0
  | leaf _ _ next => next.attributeEntries
  | element _ _ attributes children next => attributes + (children.attributeEntries + next.attributeEntries)

end Outline

/-- The nodes of a tree as they stand in a store that holds it below a parent. -/
def OutlineTree.entries (parent : NodeRef) (t : OutlineTree) : Multiset (NodeRef × Node) :=
  (t.node, ⟨t.payload, some parent, t.below.tops⟩) ::ₘ t.below.entries t.node

/-- The attributes of a tree as they stand in a store that holds it. -/
def OutlineTree.attributeEntries (t : OutlineTree) : Multiset (AttributeRef × Attribute) :=
  t.attributes + t.below.attributeEntries

namespace Outline

@[simp] theorem toList_cons (t : OutlineTree) (o : Outline) : (cons t o).toList = t :: o.toList := by
  cases t <;> rfl

@[simp] theorem ofList_nil : ofList [] = nil := rfl

@[simp] theorem ofList_cons (t : OutlineTree) (trees : List OutlineTree) : ofList (t :: trees) = cons t (ofList trees) :=
  rfl

/-- An outline is made of its trees. -/
@[simp] theorem ofList_toList (o : Outline) : ofList o.toList = o := by
  induction o with
  | nil => rfl
  | leaf n text next ih => simp [toList, ih, cons]
  | element n name attributes children next _ ih => simp [toList, ih, cons]

/-- The trees of an outline are those it was made of. -/
@[simp] theorem toList_ofList (trees : List OutlineTree) : (ofList trees).toList = trees := by
  induction trees with
  | nil => rfl
  | cons t trees ih => simp [ih]

@[simp] theorem tops_ofList (trees : List OutlineTree) : (ofList trees).tops = trees.map OutlineTree.node := by
  simp [tops]

/-- The trees of an outline's forest are its trees without their handles. -/
theorem toList_forest (o : Outline) : o.forest.toList = o.toList.map OutlineTree.tree := by
  induction o with
  | nil => rfl
  | leaf n text next ih => simp [forest, toList, Forest.toList, ih, OutlineTree.tree]
  | element n name attributes children next _ ih => simp [forest, toList, Forest.toList, ih, OutlineTree.tree]

/-- An outline has as many trees as its forest. -/
theorem length_toList (o : Outline) : o.toList.length = o.forest.length := by
  rw [← Forest.length_toList, toList_forest, List.length_map]

/-- The forest of an outline is made of its trees without their handles. -/
theorem forest_ofList (trees : List OutlineTree) : (ofList trees).forest = .ofList (trees.map OutlineTree.tree) := by
  rw [← Forest.ofList_toList (ofList trees).forest, toList_forest, toList_ofList]

/-- The forest of an outline is made of its trees without their handles. -/
theorem forest_eq (o : Outline) : o.forest = .ofList (o.toList.map OutlineTree.tree) := by
  rw [← forest_ofList, ofList_toList]

/-- The entries of an outline that begins with a tree are those of the tree and of the rest. -/
theorem entries_cons (p : NodeRef) (t : OutlineTree) (o : Outline) :
    (cons t o).entries p = t.entries p + o.entries p := by
  cases t with
  | leaf n text => simp [cons, entries, OutlineTree.entries, OutlineTree.below, OutlineTree.node, OutlineTree.payload, tops,
      toList]
  | element n name attributes children => simp [cons, entries, OutlineTree.entries, OutlineTree.below, OutlineTree.node,
      OutlineTree.payload]

/-- The attributes of an outline are those of its first tree and of the others. -/
theorem attributeEntries_cons (t : OutlineTree) (o : Outline) :
    (cons t o).attributeEntries = t.attributeEntries + o.attributeEntries := by
  cases t with
  | leaf n text => simp [cons, attributeEntries, OutlineTree.attributeEntries, OutlineTree.attributes, OutlineTree.below]
  | element n name attributes children => simp [cons, attributeEntries, OutlineTree.attributeEntries,
      OutlineTree.attributes, OutlineTree.below, Multiset.add_assoc]

/-- The entries of two lists of trees in a row are those of both. -/
theorem entries_ofList_append (p : NodeRef) (l m : List OutlineTree) :
    (ofList (l ++ m)).entries p = (ofList l).entries p + (ofList m).entries p := by
  induction l with
  | nil => simp [entries]
  | cons t l ih => rw [List.cons_append, ofList_cons, ofList_cons, entries_cons, entries_cons, ih, Multiset.add_assoc]

/-- The attributes of two lists of trees are those of the one and of the other. -/
theorem attributeEntries_ofList_append (l m : List OutlineTree) :
    (ofList (l ++ m)).attributeEntries = (ofList l).attributeEntries + (ofList m).attributeEntries := by
  induction l with
  | nil => simp [attributeEntries]
  | cons t l ih =>
    rw [List.cons_append, ofList_cons, ofList_cons, attributeEntries_cons, attributeEntries_cons, ih, Multiset.add_assoc]

/-- The nodes of two lists of trees in a row are those of both. -/
theorem nodes_ofList_append (l m : List OutlineTree) :
    (ofList (l ++ m)).nodes = (ofList l).nodes ++ (ofList m).nodes := by
  induction l with
  | nil => rfl
  | cons t l ih => cases t <;> simp [cons, nodes, ih]

/-- The handles of an outline are those of its entries. -/
theorem map_fst_entries (p : NodeRef) (o : Outline) : (o.entries p).map Prod.fst = o.nodes := by
  induction o generalizing p with
  | nil => rfl
  | leaf n text next ih => simp [entries, nodes, ih]
  | element n name attributes children next ihc ihn => simp [entries, nodes, ihc, ihn]

/-- A tree of an outline stands in the store as the parent of what is below it and a child of the outline's parent. -/
theorem mem_entries_of_mem {o : Outline} {t : OutlineTree} (h : t ∈ o.toList) (p : NodeRef) :
    (t.node, ⟨t.payload, some p, t.below.tops⟩) ∈ o.entries p := by
  obtain ⟨before, after, hl⟩ := List.append_of_mem h
  rw [← ofList_toList o, hl, entries_ofList_append, ofList_cons, entries_cons, OutlineTree.entries]
  simp

/-- The tops of an outline are among its nodes, in the same order. -/
theorem tops_sublist_nodes (o : Outline) : o.tops.Sublist o.nodes := by
  induction o with
  | nil => exact List.Sublist.refl _
  | leaf n text next ih => exact ih.cons_cons n
  | element n name attributes children next _ ih =>
    exact (ih.trans (List.sublist_append_right children.nodes next.nodes)).cons_cons n

/-- The handles of the attributes are those that the trees list. -/
theorem map_fst_attributeEntries (o : Outline) : o.attributeEntries.map Prod.fst = o.attributes := by
  induction o with
  | nil => rfl
  | leaf n text next ih => simp [attributeEntries, attributes, ih]
  | element n name attributes children next ihc ihn => simp [attributeEntries, Outline.attributes, ihc, ihn]

end Outline

end LiveMarkup
