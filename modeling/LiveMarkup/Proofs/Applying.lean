import LiveMarkup.Proofs.Editing

/-!
# Edits of a store

On the store of a sound document an edit is carried out exactly if it is legal on the plain tree. Then the store shows the
outline as the edit leaves it, and otherwise the fault is the one that the plain tree has (`Shows.applyEdit_spec`). Lists of
edits are carried out like that one after the other (`Shows.applyAll_spec`).
-/

namespace LiveMarkup.Store

variable {s : Store} {d : DocumentId} {o : Outline}

/-- An edit does to a store that shows an outline what it does to the outline, or fails as it fails on the plain forest. -/
def CarriesOut (s : Store) (d : DocumentId) (o : Outline) (e : Edit) : Prop :=
  (∃ (s' : Store) (o' : Outline) (c : Change), s.applyEdit e = .ok (s', c) ∧ s'.Shows d o' ∧
    o.Edited (rootOf d) e c o') ∨
  (o.forest.carryOut e = .error .misfit ∧ ∃ reason, s.applyEdit e = .error (.misfit reason)) ∨
  (o.forest.carryOut e = .error .root ∧ s.applyEdit e = .error (.rejected (.document .rootRemoval)))

/-- An edit is carried out at the node that its path leads to. -/
theorem applyEdit_eq {e : Edit} {n : NodeRef} (h : s.resolve e.path = .ok n) : s.applyEdit e = s.applyAt n e := by
  rw [applyEdit, h]
  rfl

namespace Shows

variable {path : Path} {c n : NodeRef} {before after : List OutlineTree} {t : OutlineTree}

/-- The root is not in any tree below it. -/
theorem root_notMem_tree (h : s.Shows d o)
    (place : o.place? (rootOf d) path = some (c, .ofList (before ++ t :: after))) :
    rootOf d ∉ (Outline.ofList [t]).nodes := by
  intro hmem
  refine h.root_notMem (Outline.nodes_subset_of_place? place ?_)
  have hsplit : before ++ t :: after = before ++ ([t] ++ after) := rfl
  rw [hsplit, Outline.nodes_ofList_append, Outline.nodes_ofList_append]
  exact List.mem_append_right _ (List.mem_append_left _ hmem)

/-- One tree that a store shows can be told from the rest, which stays as it is when another tree with the same node at its
top is shown in its place. -/
theorem focus_tree (h : s.Shows d o)
    (place : o.place? (rootOf d) path = some (c, .ofList (before ++ t :: after))) :
    ∃ (N : Multiset (NodeRef × Node)) (A : Multiset (AttributeRef × Attribute)),
      s.Holds d (t.entries c + N) (t.attributeEntries + A) ∧
      ∀ (s' : Store) (t' : OutlineTree), t'.node = t.node → s'.Holds d (t'.entries c + N) (t'.attributeEntries + A) →
        s'.Shows d (o.setBelow path (.ofList (before ++ t' :: after))) := by
  obtain ⟨payload, above, N, A, _, hfocus⟩ := focus place
  have hentries : ∀ t' : OutlineTree, t'.node = t.node →
      (c, (⟨payload, above, (Outline.ofList (before ++ t' :: after)).tops⟩ : Node)) ::ₘ
        ((Outline.ofList (before ++ t' :: after)).entries c + N) =
      t'.entries c + (c, (⟨payload, above, (Outline.ofList (before ++ t :: after)).tops⟩ : Node)) ::ₘ
        ((Outline.ofList before).entries c + (Outline.ofList after).entries c + N) := by
    intro t' hnode
    rw [Outline.tops_ofList, Outline.tops_ofList, List.map_append, List.map_append, List.map_cons, List.map_cons, hnode,
      Outline.entries_ofList_append, Outline.ofList_cons, Outline.entries_cons, Multiset.add_cons]
    congr 1
    abel
  have hattributes : ∀ t' : OutlineTree, (Outline.ofList (before ++ t' :: after)).attributeEntries + A =
      t'.attributeEntries + ((Outline.ofList before).attributeEntries + (Outline.ofList after).attributeEntries + A) := by
    intro t'
    rw [Outline.attributeEntries_ofList_append, Outline.ofList_cons, Outline.attributeEntries_cons]
    abel
  have hold := (hfocus s _).mp ((Outline.setBelow_self place).symm ▸ h)
  rw [hentries t rfl, hattributes] at hold
  refine ⟨_, _, hold, ?_⟩
  intro s' t' hnode hnew
  refine (hfocus s' _).mpr ?_
  rw [hentries t' hnode, hattributes]
  exact hnew

/-- The node at the top of a tree that a store shows. -/
theorem node_of_place? (h : s.Shows d o)
    (place : o.place? (rootOf d) path = some (c, .ofList (before ++ t :: after))) :
    s.node t.node = .ok ⟨t.payload, some c, t.below.tops⟩ := by
  obtain ⟨N, A, hold, _⟩ := h.focus_tree place
  refine hold.node_eq ?_
  rw [OutlineTree.entries]
  exact Multiset.mem_add.mpr (Or.inl (Multiset.mem_cons_self _ _))

/-! ## The five edits -/

/-- An edit whose path leads nowhere fits neither the store nor the forest. -/
theorem carriesOut_of_find?_eq_none (h : s.Shows d o) {e : Edit} (hfind : o.find? (rootOf d) e.path = none) :
    s.CarriesOut d o e := by
  have hresolve := h.resolve_eq e.path
  rw [hfind] at hresolve
  obtain ⟨reason, hreason⟩ := hresolve
  obtain ⟨hbelow, hexchange⟩ := Outline.misfit_of_find? hfind
  have hpath : e.path ≠ [] := by
    intro hnil
    rw [hnil] at hfind
    cases hfind
  refine Or.inr (Or.inl ⟨?_, reason, by rw [applyEdit, hreason]; rfl⟩)
  cases e with
  | setAttributes path attributes => exact hexchange _
  | setText path text => exact hexchange _
  | append path tree =>
    have hnone : o.forest.below? path = none := hbelow
    simp only [Forest.carryOut, hnone]
  | remove path =>
    rw [Forest.carryOut]
    exact (if_neg hpath).trans (hexchange _)
  | replace path tree =>
    rw [Forest.carryOut]
    exact (if_neg hpath).trans (hexchange _)

/-- A tree can be appended at a place. -/
theorem applyEdit_append (h : s.Shows d o) {b : Outline} (place : o.place? (rootOf d) path = some (c, b))
    (hresolve : s.resolve path = .ok c) (tree : Tree) :
    ∃ (s' : Store) (t : OutlineTree), t.tree = tree ∧ s.applyEdit (.append path tree) = .ok (s', .added t.node c) ∧
      s'.Shows d (o.setBelow path (.ofList (b.toList ++ [t]))) := by
  obtain ⟨payload, above, N, A, hcontainer, hfocus⟩ := focus place
  have hold := (hfocus s _).mp ((Outline.setBelow_self place).symm ▸ h)
  obtain ⟨t, rfl, happend, hnew⟩ := hold.appendTree hcontainer tree
  refine ⟨s.graft c t.tree.forest, t, rfl, ?_, (hfocus _ _).mpr ?_⟩
  · rw [applyEdit_eq hresolve, applyAt, hold.node_eq (Multiset.mem_cons_self _ _)]
    simp only [EditFault.ofStore, bind, Except.bind, hcontainer, if_true, happend]
  · have hnode : Node.extended ⟨payload, above, b.tops⟩ [t.node] =
        ⟨payload, above, (Outline.ofList (b.toList ++ [t])).tops⟩ := by
      rw [Outline.tops_ofList, List.map_append]
      rfl
    have hentries : t.entries c + (b.entries c + N) = (Outline.ofList (b.toList ++ [t])).entries c + N := by
      rw [Outline.entries_ofList_append, Outline.ofList_toList, Outline.ofList_cons, Outline.entries_cons,
        Outline.ofList_nil, Outline.entries]
      abel
    have hattributes : t.attributeEntries + (b.attributeEntries + A) =
        (Outline.ofList (b.toList ++ [t])).attributeEntries + A := by
      rw [Outline.attributeEntries_ofList_append, Outline.ofList_toList, Outline.ofList_cons,
        Outline.attributeEntries_cons, Outline.ofList_nil, Outline.attributeEntries]
      abel
    rw [hnode, hentries, hattributes] at hnew
    exact hnew

theorem carriesOut_append (h : s.Shows d o) {b : Outline} (place : o.place? (rootOf d) path = some (c, b))
    (hresolve : s.resolve path = .ok c) (tree : Tree) : s.CarriesOut d o (.append path tree) := by
  obtain ⟨s', t, rfl, happly, hs'⟩ := h.applyEdit_append place hresolve tree
  exact Or.inl ⟨s', _, _, happly, hs', .append t place⟩

/-- The attributes of an element can be set. -/
theorem applyEdit_setAttributes {name : QName} {old : List (AttributeRef × Attribute)} {below : Outline} (h : s.Shows d o)
    (place : o.place? (rootOf d) path = some (c, .ofList (before ++ .element n name old below :: after)))
    (hresolve : s.resolve (path ++ [before.length]) = .ok n) (attributes : List Attribute) :
    ∃ (s' : Store) (new : List (AttributeRef × Attribute)), new.map Prod.snd = attributes ∧
      (new.map Prod.fst).take old.length = (old.map Prod.fst).take new.length ∧
      s.applyEdit (.setAttributes (path ++ [before.length]) attributes) = .ok (s', .updated n) ∧
      s'.Shows d (o.setBelow path (.ofList (before ++ .element n name new below :: after))) := by
  have hnode := h.node_of_place? place
  obtain ⟨N, A, hold, hnew⟩ := h.focus_tree place
  obtain ⟨s', new, hset, rfl, hkept, hs'⟩ := hold.setAttributes attributes
  rw [List.length_map] at hkept
  refine ⟨s', new, rfl, hkept, ?_, hnew s' (.element n name new below) rfl hs'⟩
  rw [applyEdit_eq hresolve, applyAt]
  change s.node n = _ at hnode
  rw [hnode]
  simp only [EditFault.ofStore, bind, Except.bind, OutlineTree.payload, hset]

/-- A text can be given new content. -/
theorem applyEdit_setText {old : String} (h : s.Shows d o)
    (place : o.place? (rootOf d) path = some (c, .ofList (before ++ .leaf n old :: after)))
    (hresolve : s.resolve (path ++ [before.length]) = .ok n) (text : String) :
    ∃ s' : Store, s.applyEdit (.setText (path ++ [before.length]) text) = .ok (s', .updated n) ∧
      s'.Shows d (o.setBelow path (.ofList (before ++ .leaf n text :: after))) := by
  have hnode := h.node_of_place? place
  obtain ⟨N, A, hold, hnew⟩ := h.focus_tree place
  obtain ⟨s', hset, hs'⟩ := hold.setText text
  refine ⟨s', ?_, hnew s' (.leaf n text) rfl hs'⟩
  rw [applyEdit_eq hresolve, applyAt]
  change s.node n = _ at hnode
  rw [hnode]
  simp only [EditFault.ofStore, bind, Except.bind, OutlineTree.payload, hset]

section AtTree

variable (h : s.Shows d o) (place : o.place? (rootOf d) path = some (c, .ofList (before ++ t :: after)))
  (hresolve : s.resolve (path ++ [before.length]) = .ok t.node)

include h place hresolve

/-- The attributes of an element can be set, those of a text cannot. -/
theorem carriesOut_setAttributes (attributes : List Attribute) :
    s.CarriesOut d o (.setAttributes (path ++ [before.length]) attributes) := by
  cases t with
  | leaf n text =>
    refine Or.inr (Or.inl ⟨Outline.exchange_eq_error place rfl, .notElement (path ++ [before.length]), ?_⟩)
    rw [applyEdit_eq hresolve, applyAt, h.node_of_place? place]
    rfl
  | element n name old below =>
    obtain ⟨s', new, rfl, hkept, happly, hs'⟩ := h.applyEdit_setAttributes place hresolve attributes
    exact Or.inl ⟨s', _, _, happly, hs', .setAttributes place hkept⟩

/-- A text can be given new content, an element cannot. -/
theorem carriesOut_setText (text : String) : s.CarriesOut d o (.setText (path ++ [before.length]) text) := by
  cases t with
  | leaf n old =>
    obtain ⟨s', happly, hs'⟩ := h.applyEdit_setText place hresolve text
    exact Or.inl ⟨s', _, _, happly, hs', .setText text place⟩
  | element n name attributes below =>
    refine Or.inr (Or.inl ⟨Outline.exchange_eq_error place rfl, .notLeaf (path ++ [before.length]), ?_⟩)
    rw [applyEdit_eq hresolve, applyAt, h.node_of_place? place]
    rfl

/-- A tree can be removed. -/
theorem applyEdit_remove : ∃ s' : Store, s.applyEdit (.remove (path ++ [before.length])) = .ok (s', .removed t.node c) ∧
    s'.Shows d (o.setBelow path (.ofList (before ++ after))) := by
  obtain ⟨payload, above, N, A, hcontainer, hfocus⟩ := focus place
  have hold := (hfocus s _).mp ((Outline.setBelow_self place).symm ▸ h)
  obtain ⟨s', hremove, hs'⟩ := hold.remove hcontainer (h.root_notMem_tree place)
  refine ⟨s', ?_, (hfocus s' _).mpr hs'⟩
  rw [applyEdit_eq hresolve, applyAt, hremove]
  rfl

theorem carriesOut_remove : s.CarriesOut d o (.remove (path ++ [before.length])) := by
  obtain ⟨s', happly, hs'⟩ := h.applyEdit_remove place hresolve
  exact Or.inl ⟨s', _, _, happly, hs', .remove place⟩

/-- A tree can be replaced: it is emptied, which leaves a store that shows what is left of it, and filled again. -/
theorem applyEdit_replace_steps (tree : Tree) : ∃ (m s' : Store) (t' : OutlineTree),
    s.emptied t.node ⟨t.payload, some c, t.below.tops⟩ = .ok m ∧
    m.Shows d (o.setBelow path (.ofList (before ++ t.emptied :: after))) ∧ m.fill t.node tree = .ok s' ∧
    t'.node = t.node ∧ t'.tree = tree ∧
    s.applyEdit (.replace (path ++ [before.length]) tree) = .ok (s', .replaced t.node c) ∧
    s'.Shows d (o.setBelow path (.ofList (before ++ t' :: after))) := by
  obtain ⟨N, A, hold, hnew⟩ := h.focus_tree place
  obtain ⟨m, s', t', hempty, hm, hfill, hreplace, hnode, rfl, hs'⟩ := hold.replace (h.root_notMem_tree place) tree
  refine ⟨m, s', t', hempty, hnew m t.emptied t.node_emptied hm, hfill, hnode, rfl, ?_, hnew s' t' hnode hs'⟩
  rw [applyEdit_eq hresolve, applyAt, hreplace]
  rfl

/-- A tree can be replaced. -/
theorem applyEdit_replace (tree : Tree) : ∃ (s' : Store) (t' : OutlineTree), t'.node = t.node ∧ t'.tree = tree ∧
    s.applyEdit (.replace (path ++ [before.length]) tree) = .ok (s', .replaced t.node c) ∧
    s'.Shows d (o.setBelow path (.ofList (before ++ t' :: after))) := by
  obtain ⟨_, s', t', _, _, _, hnode, htree, happly, hs'⟩ := h.applyEdit_replace_steps place hresolve tree
  exact ⟨s', t', hnode, htree, happly, hs'⟩

theorem carriesOut_replace (tree : Tree) : s.CarriesOut d o (.replace (path ++ [before.length]) tree) := by
  obtain ⟨s', t', hnode, rfl, happly, hs'⟩ := h.applyEdit_replace place hresolve tree
  exact Or.inl ⟨s', _, _, happly, hs', .replace place hnode⟩

end AtTree

/-- At the root nothing but appending is possible. -/
theorem carriesOut_root (h : s.Shows d o) {e : Edit} (hpath : e.path = []) : s.CarriesOut d o e := by
  have hresolve : s.resolve e.path = .ok (rootOf d) := by
    rw [hpath, resolve, h.root]
    rfl
  have hnode : s.node (rootOf d) = .ok ⟨.root, none, o.tops⟩ := h.node_eq (Multiset.mem_cons_self _ _)
  cases e with
  | setAttributes path attributes =>
    obtain rfl : path = [] := hpath
    refine Or.inr (Or.inl ⟨rfl, .notElement [], ?_⟩)
    rw [applyEdit_eq hresolve, applyAt, hnode]
    rfl
  | setText path text =>
    obtain rfl : path = [] := hpath
    refine Or.inr (Or.inl ⟨rfl, .notLeaf [], ?_⟩)
    rw [applyEdit_eq hresolve, applyAt, hnode]
    rfl
  | append path tree =>
    obtain rfl : path = [] := hpath
    exact h.carriesOut_append rfl hresolve tree
  | remove path =>
    obtain rfl : path = [] := hpath
    refine Or.inr (Or.inr ⟨rfl, ?_⟩)
    rw [applyEdit_eq hresolve, applyAt, Store.remove, if_pos h.root.symm]
    rfl
  | replace path tree =>
    obtain rfl : path = [] := hpath
    refine Or.inr (Or.inr ⟨rfl, ?_⟩)
    rw [applyEdit_eq hresolve, applyAt, Store.replace, if_pos h.root.symm]
    rfl

/-- Every edit does to a store that shows an outline what it does to the outline, or fails as it fails on the forest. -/
theorem carriesOut (h : s.Shows d o) (e : Edit) : s.CarriesOut d o e := by
  have hresolve := h.resolve_eq e.path
  cases hfind : o.find? (rootOf d) e.path with
  | none => exact h.carriesOut_of_find?_eq_none hfind
  | some n =>
    rw [hfind] at hresolve
    rcases Outline.place?_of_find? hfind with ⟨hpath, _⟩ | ⟨q, c, before, t, after, hpath, place, rfl⟩
    · exact h.carriesOut_root hpath
    · cases e with
      | setAttributes path attributes =>
        obtain rfl : path = q ++ [before.length] := hpath
        exact h.carriesOut_setAttributes place hresolve attributes
      | setText path text =>
        obtain rfl : path = q ++ [before.length] := hpath
        exact h.carriesOut_setText place hresolve text
      | append path tree =>
        obtain rfl : path = q ++ [before.length] := hpath
        have hat := Outline.place?_concat place
        cases t with
        | leaf n text =>
          have hbelow : o.forest.below? (q ++ [before.length]) = none := by
            rw [Outline.below?_forest o (rootOf d), hat]
            rfl
          refine Or.inr (Or.inl ⟨by simp only [Forest.carryOut, hbelow], .leafParent (q ++ [before.length]), ?_⟩)
          rw [applyEdit_eq hresolve, applyAt, h.node_of_place? place]
          rfl
        | element n name attributes below => exact h.carriesOut_append hat hresolve tree
      | remove path =>
        obtain rfl : path = q ++ [before.length] := hpath
        exact h.carriesOut_remove place hresolve
      | replace path tree =>
        obtain rfl : path = q ++ [before.length] := hpath
        exact h.carriesOut_replace place hresolve tree

/-! ## Lists of edits -/

/-- One edit does to a store that shows an outline what it does to the outline, exactly if it is legal on the forest, and
else it fails as it does there. -/
theorem applyEdit_spec (h : s.Shows d o) (e : Edit) :
    match o.forest.carryOut e with
    | .ok f => ∃ (s' : Store) (o' : Outline) (c : Change), s.applyEdit e = .ok (s', c) ∧ s'.Shows d o' ∧ o'.forest = f ∧
        o.Edited (rootOf d) e c o'
    | .error .misfit => ∃ reason, s.applyEdit e = .error (.misfit reason)
    | .error .root => s.applyEdit e = .error (.rejected (.document .rootRemoval)) := by
  rcases h.carriesOut e with ⟨s', o', c, happly, hs', hedited⟩ | ⟨hmisfit, hfault⟩ | ⟨hroot, hfault⟩
  · rw [hedited.carryOut_eq]
    exact ⟨s', o', c, happly, hs', rfl, hedited⟩
  · rw [hmisfit]
    exact hfault
  · rw [hroot]
    exact hfault

/-- Edits do to a store that shows an outline what they do to the outline, exactly if each of them is legal on the forest
that the ones before it leave, and else the first that is not legal fails as it does there. -/
theorem applyAll_spec (h : s.Shows d o) (number : Nat) (edits : List Edit) :
    match o.forest.carryOutAll number edits with
    | .ok f => ∃ (s' : Store) (o' : Outline) (changes : List Change), s.applyAll number edits = .ok (s', changes) ∧
        s'.Shows d o' ∧ o'.forest = f ∧ o.EditedAll (rootOf d) edits changes o'
    | .error (k, .misfit) => ∃ reason, s.applyAll number edits = .error (.misfit k reason)
    | .error (k, .root) => s.applyAll number edits = .error (.rejected k (.document .rootRemoval)) := by
  induction edits generalizing s o number with
  | nil => exact ⟨s, o, [], rfl, h, rfl, .nil o⟩
  | cons e rest ih =>
    have hfirst := h.applyEdit_spec e
    rw [Forest.carryOutAll]
    cases hcarry : o.forest.carryOut e with
    | error reason =>
      rw [hcarry] at hfirst
      cases reason with
      | misfit =>
        obtain ⟨fault, hfault⟩ := hfirst
        exact ⟨fault, by rw [applyAll, hfault]; rfl⟩
      | root =>
        change s.applyEdit e = _ at hfirst
        change s.applyAll number (e :: rest) = _
        rw [applyAll, hfirst]
        rfl
    | ok f =>
      rw [hcarry] at hfirst
      obtain ⟨s₁, o₁, c, happly, h₁, rfl, hedited⟩ := hfirst
      have hrest := ih h₁ (number + 1)
      split at hrest
      · rename_i f hf
        obtain ⟨s₂, o₂, changes, happlies, h₂, hforest, hediteds⟩ := hrest
        simp only [hf, applyAll, happly, happlies]
        exact ⟨s₂, o₂, c :: changes, rfl, h₂, hforest, .cons hedited hediteds⟩
      · rename_i k hk
        obtain ⟨fault, hfault⟩ := hrest
        simp only [hk, applyAll, happly, hfault]
        exact ⟨fault, rfl⟩
      · rename_i k hk
        simp only [hk, applyAll, happly, hrest]

/-- Edits that are carried out are legal, and the store shows afterwards where they lead. -/
theorem applyAll_eq_ok (h : s.Shows d o) {number : Nat} {edits : List Edit} {changes : List Change}
    (happly : s.applyAll number edits = .ok (s', changes)) :
    ∃ o' : Outline, s'.Shows d o' ∧ o.forest.carryOutAll number edits = .ok o'.forest ∧
      o.EditedAll (rootOf d) edits changes o' := by
  have hall := h.applyAll_spec number edits
  split at hall
  · rename_i f hf
    obtain ⟨s₁, o', changes', happly', h', rfl, hedited⟩ := hall
    rw [happly] at happly'
    cases happly'
    exact ⟨o', h', hf, hedited⟩
  · obtain ⟨reason, hfault⟩ := hall
    rw [happly] at hfault
    cases hfault
  · rw [happly] at hall
    cases hall

end Shows

end LiveMarkup.Store
