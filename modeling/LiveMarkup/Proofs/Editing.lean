import LiveMarkup.Proofs.PlainEdits
import LiveMarkup.Proofs.Shows

/-!
# Edits of outlines

What an edit does to the nodes of a document is said by the outlines before and after it (`Outline.Edited`): which node is
concerned, which handles stay and what is new. The forest of the outline is edited as a plain forest is.
-/

namespace LiveMarkup

namespace Outline

/-- An edit leads from one outline to another and is reported as a change. -/
inductive Edited (top : NodeRef) (o : Outline) : Edit → Change → Outline → Prop
  /-- The element stays, and so do its attributes, as many as there are new ones. -/
  | setAttributes {path : Path} {c n : NodeRef} {before after : List OutlineTree} {name : QName}
      {old new : List (AttributeRef × Attribute)} {below : Outline}
      (place : o.place? top path = some (c, ofList (before ++ .element n name old below :: after)))
      (kept : (new.map Prod.fst).take old.length = (old.map Prod.fst).take new.length) :
      Edited top o (.setAttributes (path ++ [before.length]) (new.map Prod.snd)) (.updated n)
        (o.setBelow path (ofList (before ++ .element n name new below :: after)))
  /-- The text stays. -/
  | setText {path : Path} {c n : NodeRef} {before after : List OutlineTree} {old : String} (text : String)
      (place : o.place? top path = some (c, ofList (before ++ .leaf n old :: after))) :
      Edited top o (.setText (path ++ [before.length]) text) (.updated n)
        (o.setBelow path (ofList (before ++ .leaf n text :: after)))
  /-- The nodes of the tree are new. -/
  | append {path : Path} {c : NodeRef} {b : Outline} (t : OutlineTree) (place : o.place? top path = some (c, b)) :
      Edited top o (.append path t.tree) (.added t.node c) (o.setBelow path (ofList (b.toList ++ [t])))
  /-- All nodes of the tree go. -/
  | remove {path : Path} {c : NodeRef} {before after : List OutlineTree} {t : OutlineTree}
      (place : o.place? top path = some (c, ofList (before ++ t :: after))) :
      Edited top o (.remove (path ++ [before.length])) (.removed t.node c) (o.setBelow path (ofList (before ++ after)))
  /-- The node at the top of the tree stays. -/
  | replace {path : Path} {c : NodeRef} {before after : List OutlineTree} {t t' : OutlineTree}
      (place : o.place? top path = some (c, ofList (before ++ t :: after))) (kept : t'.node = t.node) :
      Edited top o (.replace (path ++ [before.length]) t'.tree) (.replaced t.node c)
        (o.setBelow path (ofList (before ++ t' :: after)))

/-- Edits lead from one outline to another, one after the other, and are reported as changes in order. -/
inductive EditedAll (top : NodeRef) : Outline → List Edit → List Change → Outline → Prop
  | nil (o : Outline) : EditedAll top o [] [] o
  | cons {o o' o'' : Outline} {e : Edit} {change : Change} {edits : List Edit} {changes : List Change}
      (first : o.Edited top e change o') (rest : EditedAll top o' edits changes o'') :
      EditedAll top o (e :: edits) (change :: changes) o''

variable {o : Outline} {top c : NodeRef} {path : Path} {before after : List OutlineTree} {t : OutlineTree}

/-- The forest at a place, with its trees told apart. -/
theorem below?_of_place? (h : o.place? top path = some (c, ofList (before ++ t :: after))) :
    ∃ below, o.forest.below? path = some below ∧
      below.toList = before.map OutlineTree.tree ++ t.tree :: after.map OutlineTree.tree := by
  refine ⟨(ofList (before ++ t :: after)).forest, by rw [below?_forest o top, h]; rfl, ?_⟩
  rw [toList_forest, toList_ofList, List.map_append, List.map_cons]

/-- Exchanging one tree of an outline for others exchanges it in the forest. -/
theorem exchange_of_place? (h : o.place? top path = some (c, ofList (before ++ t :: after)))
    {change : Tree → Except Illegal (List Tree)} (new : List OutlineTree)
    (hchange : change t.tree = .ok (new.map OutlineTree.tree)) :
    o.forest.exchange (path ++ [before.length]) change = .ok (o.setBelow path (ofList (before ++ (new ++ after)))).forest := by
  obtain ⟨below, hbelow, hsplit⟩ := below?_of_place? h
  have hexchange := Forest.exchange_of_split hbelow hsplit change
  rw [List.length_map, hchange] at hexchange
  rw [hexchange, forest_setBelow h, forest_ofList, List.map_append, List.map_append]

/-- A tree that an exchange refuses is not exchanged. -/
theorem exchange_eq_error (h : o.place? top path = some (c, ofList (before ++ t :: after)))
    {change : Tree → Except Illegal (List Tree)} {reason : Illegal} (hchange : change t.tree = .error reason) :
    o.forest.exchange (path ++ [before.length]) change = .error reason := by
  obtain ⟨below, hbelow, hsplit⟩ := below?_of_place? h
  have hexchange := Forest.exchange_of_split hbelow hsplit change
  rw [List.length_map, hchange] at hexchange
  exact hexchange

/-- What an edit does to an outline is what it does to the forest. -/
theorem Edited.carryOut_eq {o' : Outline} {e : Edit} {change : Change} (h : o.Edited top e change o') :
    o.forest.carryOut e = .ok o'.forest := by
  cases h with
  | setAttributes place kept =>
    rename_i new below
    exact exchange_of_place? place [.element _ _ new below] rfl
  | setText text place => exact exchange_of_place? place [.leaf _ text] rfl
  | append t place =>
    rename_i path c b
    have hbelow : o.forest.below? path = some b.forest := by
      rw [below?_forest o top, place]
      rfl
    have htrees : b.forest.toList ++ [t.tree] = (b.toList ++ [t]).map OutlineTree.tree := by
      rw [toList_forest, List.map_append]
      rfl
    simp only [Forest.carryOut, hbelow]
    rw [htrees, forest_setBelow place, forest_ofList]
  | remove place =>
    rw [Forest.carryOut, if_neg (List.concat_ne_nil _ _)]
    exact exchange_of_place? place [] rfl
  | replace place kept =>
    rename_i t'
    rw [Forest.carryOut, if_neg (List.concat_ne_nil _ _)]
    exact exchange_of_place? place [t'] rfl

/-- A path that leads to a node leads to the root, or to one of the nodes at a place. -/
theorem place?_of_find? {n : NodeRef} (h : o.find? top path = some n) :
    path = [] ∧ n = top ∨ ∃ q c before t after, path = q ++ [List.length before] ∧
      o.place? top q = some (c, ofList (before ++ t :: after)) ∧ n = t.node := by
  rcases List.eq_nil_or_concat path with rfl | ⟨q, i, hpath⟩
  · cases h
    exact Or.inl ⟨rfl, rfl⟩
  · rw [List.concat_eq_append] at hpath
    subst hpath
    rw [find?_concat, Option.bind_eq_some_iff] at h
    obtain ⟨⟨c, b⟩, hplace, hfound⟩ := h
    obtain ⟨t, ht, rfl⟩ := Option.map_eq_some_iff.mp hfound
    obtain ⟨before, after, hsplit, rfl⟩ := exists_split_of_getElem? ht
    refine Or.inr ⟨q, c, before, t, after, rfl, ?_, rfl⟩
    rw [hplace, ← hsplit, ofList_toList]

/-- Where a path leads nowhere, nothing can be exchanged and nothing can be put. -/
theorem misfit_of_find? (h : o.find? top path = none) :
    o.forest.below? path = none ∧ ∀ change, o.forest.exchange path change = .error .misfit := by
  rcases List.eq_nil_or_concat path with rfl | ⟨q, i, hpath⟩
  · cases h
  · rw [List.concat_eq_append] at hpath
    subst hpath
    rw [find?_concat] at h
    rw [Forest.below?_append]
    cases hplace : o.place? top q with
    | none =>
      have hbelow : o.forest.below? q = none := by rw [below?_forest o top, hplace]; rfl
      refine ⟨by rw [hbelow]; rfl, ?_⟩
      intro change
      exact Forest.exchange_of_below?_eq_none hbelow i change
    | some place =>
      have hbelow : o.forest.below? q = some place.2.forest := by rw [below?_forest o top, hplace]; rfl
      have hi : place.2.forest.toList[i]? = none := by
        rw [hplace, Option.bind_some, Option.map_eq_none_iff] at h
        rw [toList_forest, List.getElem?_map, h]
        rfl
      refine ⟨?_, ?_⟩
      · rw [hbelow, Option.bind_some, Forest.below?, hi]
        rfl
      · intro change
        exact Forest.exchange_of_getElem?_eq_none hbelow hi change

end Outline

end LiveMarkup
