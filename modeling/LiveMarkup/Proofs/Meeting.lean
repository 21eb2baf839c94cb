import LiveMarkup.Proofs.Shows

/-!
# Where two trees meet

Two trees are compared position by position, and two of their nodes at one path come to be compared if all nodes above them
match, those of the one tree with those of the other (`Forest.Meets`). The same by recursion over two outlines is
`Outline.Compared`, which also gives the two trees at the path.
-/

namespace LiveMarkup

namespace Tree

/-- Both nodes are texts, or both are elements of one name. -/
def Matches : Tree → Tree → Prop
  | leaf _, leaf _ => True
  | element a _ _, element b _ _ => a = b
  | _, _ => False

instance (t u : Tree) : Decidable (t.Matches u) :=
  match t, u with
  | leaf _, leaf _ => inferInstanceAs (Decidable True)
  | element a _ _, element b _ _ => inferInstanceAs (Decidable (a = b))
  | leaf _, element _ _ _ => inferInstanceAs (Decidable False)
  | element _ _ _, leaf _ => inferInstanceAs (Decidable False)

/-- The attributes of the node; a text has none. -/
def attributes : Tree → List Attribute
  | leaf _ => []
  | element _ attributes _ => attributes

end Tree

namespace OutlineTree

@[simp] theorem below_tree (t : OutlineTree) : t.tree.below = t.below.forest := by
  cases t <;> rfl

@[simp] theorem attributes_tree (t : OutlineTree) : t.tree.attributes = t.attributes.map Prod.snd := by
  cases t <;> rfl

end OutlineTree

/-- The tree at a path below the root. -/
def Forest.treeAt? : Forest → Path → Option Tree
  | _, [] => none
  | f, [i] => f.toList[i]?
  | f, i :: j :: p => f.toList[i]?.bind fun t => t.below.treeAt? (j :: p)

/-- Both forests have a node at the path and at every path on the way to it, and on the way these nodes match. -/
def Forest.Meets (old new : Forest) (p : Path) : Prop :=
  ∀ q, q <+: p → q ≠ [] → ∃ t t', old.treeAt? q = some t ∧ new.treeAt? q = some t' ∧ (q ≠ p → t.Matches t')

namespace Forest

variable {old new : Forest} {i : Nat} {p : Path} {t t' : Tree}

/-- A longer path leads on below the tree that it begins with. -/
theorem treeAt?_cons (h : old.toList[i]? = some t) (hp : p ≠ []) : old.treeAt? (i :: p) = t.below.treeAt? p := by
  cases p with
  | nil => exact absurd rfl hp
  | cons j p => rw [treeAt?, h, Option.bind_some]

/-- At the root any two documents meet. -/
theorem meets_nil (old new : Forest) : old.Meets new [] := by
  intro q hq hne
  exact absurd (List.prefix_nil.mp hq) hne

/-- Two forests meet at a path if they have trees at its first step, and these match and meet further on, unless the path
ends there. -/
theorem meets_cons (ht : old.toList[i]? = some t) (ht' : new.toList[i]? = some t')
    (h : p = [] ∨ t.Matches t' ∧ t.below.Meets t'.below p) : old.Meets new (i :: p) := by
  intro q hq hne
  obtain ⟨q, rfl, hrest⟩ := (List.prefix_cons_iff.mp hq).resolve_left hne
  by_cases hq' : q = []
  · subst hq'
    refine ⟨t, t', ht, ht', ?_⟩
    intro hlast
    rcases h with rfl | ⟨hmatches, _⟩
    · exact absurd rfl hlast
    · exact hmatches
  · rcases h with rfl | ⟨_, hmeets⟩
    · exact absurd (List.prefix_nil.mp hrest) hq'
    · obtain ⟨u, u', hu, hu', hmatches⟩ := hmeets q hrest hq'
      refine ⟨u, u', by rw [treeAt?_cons ht hq', hu], by rw [treeAt?_cons ht' hq', hu'], ?_⟩
      intro hlast
      exact hmatches fun he => hlast (he ▸ rfl)

/-- Where two forests meet further on, the trees on the way match. -/
theorem Meets.of_cons (h : old.Meets new (i :: p)) : ∃ t t', old.toList[i]? = some t ∧ new.toList[i]? = some t' ∧
    (p = [] ∨ t.Matches t' ∧ t.below.Meets t'.below p) := by
  obtain ⟨t, t', ht, ht', hmatches⟩ := h [i] (List.prefix_append [i] p) (List.cons_ne_nil i [])
  refine ⟨t, t', ht, ht', ?_⟩
  by_cases hp : p = []
  · exact Or.inl hp
  · refine Or.inr ⟨hmatches fun he => hp (List.cons.inj he).2.symm, ?_⟩
    intro q hq hne
    obtain ⟨u, u', hu, hu', hlast⟩ := h (i :: q) ((List.cons_prefix_cons).mpr ⟨rfl, hq⟩) (List.cons_ne_nil i q)
    rw [treeAt?_cons ht hne] at hu
    rw [treeAt?_cons ht' hne] at hu'
    exact ⟨u, u', hu, hu', fun hqp => hlast fun he => hqp (List.cons.inj he).2⟩

end Forest

namespace Outline

/-- The tree at a path below the root. -/
def treeAt? : Outline → Path → Option OutlineTree
  | _, [] => none
  | o, [i] => o.toList[i]?
  | o, i :: j :: p => o.toList[i]?.bind fun t => t.below.treeAt? (j :: p)

/-- Trees of two lists, or below them, that stand at one path and come to be compared. -/
inductive Compared : List OutlineTree → List OutlineTree → Path → OutlineTree → OutlineTree → Prop
  /-- Trees at one position are compared. -/
  | here {old new : List OutlineTree} {i : Nat} {t t' : OutlineTree} (ht : old[i]? = some t) (ht' : new[i]? = some t') :
      Compared old new [i] t t'
  /-- If they match, what is below them is compared. -/
  | inside {old new : List OutlineTree} {i : Nat} {p : Path} {t t' u u' : OutlineTree} (ht : old[i]? = some t)
      (ht' : new[i]? = some t') (same : t.tree.Matches t'.tree)
      (within : Compared t.below.toList t'.below.toList p u u') : Compared old new (i :: p) u u'

variable {o : Outline} {top : NodeRef} {i : Nat} {p : Path} {t t' : OutlineTree} {old new : List OutlineTree}

/-- Beyond the first step the tree at a path is one below the first tree. -/
theorem treeAt?_cons (h : o.toList[i]? = some t) (hp : p ≠ []) : o.treeAt? (i :: p) = t.below.treeAt? p := by
  cases p with
  | nil => exact absurd rfl hp
  | cons j p => rw [treeAt?, h, Option.bind_some]

/-- The trees of an outline's forest are its trees without their handles. -/
theorem treeAt?_forest (o : Outline) (p : Path) : o.forest.treeAt? p = (o.treeAt? p).map OutlineTree.tree := by
  induction p generalizing o with
  | nil => rfl
  | cons i p ih =>
    cases p with
    | nil => rw [Forest.treeAt?, treeAt?, toList_forest, List.getElem?_map]
    | cons j p =>
      rw [Forest.treeAt?, treeAt?, toList_forest, List.getElem?_map]
      cases o.toList[i]? with
      | none => rfl
      | some t =>
        rw [Option.map_some, Option.bind_some, Option.bind_some, OutlineTree.below_tree]
        exact ih t.below

/-- A path leads to the node at the top of the tree there. -/
theorem find?_of_treeAt? (h : o.treeAt? p = some t) : o.find? top p = some t.node := by
  induction p generalizing o top with
  | nil => cases h
  | cons i p ih =>
    cases p with
    | nil =>
      rw [treeAt?] at h
      rw [find?, h]
      rfl
    | cons j p =>
      rw [treeAt?, Option.bind_eq_some_iff] at h
      obtain ⟨u, hu, hbelow⟩ := h
      rw [find?, hu, Option.bind_some]
      exact ih hbelow

theorem map_tree_getElem? (l : List OutlineTree) (i : Nat) :
    (ofList l).forest.toList[i]? = l[i]?.map OutlineTree.tree := by
  rw [toList_forest, toList_ofList, List.getElem?_map]

theorem getElem?_forest_ofList (h : old[i]? = some t) : (ofList old).forest.toList[i]? = some t.tree := by
  rw [map_tree_getElem?, h, Option.map_some]

namespace Compared

/-- Trees are compared at some position below the root. -/
theorem ne_nil (h : Compared old new p t t') : p ≠ [] := by
  cases h <;> exact List.cons_ne_nil _ _

/-- Trees after the first ones are compared whatever these are. -/
theorem next {u u' : OutlineTree} (h : Compared old new (i :: p) u u') : Compared (t :: old) (t' :: new) ((i + 1) :: p) u u' := by
  cases h with
  | here ht ht' => exact .here ht ht'
  | inside ht ht' same within => exact .inside ht ht' same within

/-- Trees that come to be compared are those at the path, and the two forests meet there. -/
theorem meets (h : Compared old new p t t') : (ofList old).treeAt? p = some t ∧ (ofList new).treeAt? p = some t' ∧
    (ofList old).forest.Meets (ofList new).forest p := by
  induction h with
  | @here old new i t t' ht ht' =>
    refine ⟨by rw [treeAt?, toList_ofList, ht], by rw [treeAt?, toList_ofList, ht'], ?_⟩
    exact Forest.meets_cons (getElem?_forest_ofList ht) (getElem?_forest_ofList ht') (Or.inl rfl)
  | @inside old new i p t t' u u' ht ht' same within ih =>
    rw [ofList_toList, ofList_toList, ← OutlineTree.below_tree, ← OutlineTree.below_tree] at ih
    obtain ⟨hold, hnew, hmeets⟩ := ih
    rw [← toList_ofList old] at ht
    rw [← toList_ofList new] at ht'
    refine ⟨by rw [treeAt?_cons ht within.ne_nil, hold], by rw [treeAt?_cons ht' within.ne_nil, hnew], ?_⟩
    rw [toList_ofList] at ht ht'
    exact Forest.meets_cons (getElem?_forest_ofList ht) (getElem?_forest_ofList ht') (Or.inr ⟨same, hmeets⟩)

end Compared

/-- Wherever two forests meet below their roots, two trees come to be compared. -/
theorem exists_compared (hp : p ≠ []) (h : (ofList old).forest.Meets (ofList new).forest p) :
    ∃ t t', Compared old new p t t' := by
  induction p generalizing old new with
  | nil => exact absurd rfl hp
  | cons i p ih =>
    obtain ⟨u, u', hu, hu', hrest⟩ := h.of_cons
    rw [map_tree_getElem?, Option.map_eq_some_iff] at hu hu'
    obtain ⟨t, ht, rfl⟩ := hu
    obtain ⟨t', ht', rfl⟩ := hu'
    rcases hrest with rfl | ⟨hmatches, hmeets⟩
    · exact ⟨t, t', .here ht ht'⟩
    · by_cases hp' : p = []
      · subst hp'
        exact ⟨t, t', .here ht ht'⟩
      · rw [OutlineTree.below_tree, OutlineTree.below_tree, ← ofList_toList t.below, ← ofList_toList t'.below] at hmeets
        obtain ⟨v, v', hcompared⟩ := ih hp' hmeets
        exact ⟨v, v', .inside ht ht' hmatches hcompared⟩

end Outline

end LiveMarkup
