import LiveMarkup.Proofs.Removing

/-!
# Changing a node in place

A node keeps its handle and its place when it is given new content, and nothing outside its tree is touched. New content
may be a whole tree (`Holds.replace`), the attributes of an element (`Holds.setAttributes`) or a text (`Holds.setText`).
A tree is put in the place of another in two steps: the old one is emptied, and then the node at its top is filled.
-/

namespace LiveMarkup

namespace OutlineTree

/-- The node at the top of the tree alone, an element without its attributes. -/
def emptied : OutlineTree → OutlineTree
  | leaf node text => leaf node text
  | element node name _ _ => element node name [] .nil

theorem entries_emptied (t : OutlineTree) (c : NodeRef) :
    t.emptied.entries c = {(t.node, ⟨Store.bare t.payload, some c, []⟩)} := by
  cases t <;> rfl

theorem attributeEntries_emptied (t : OutlineTree) : t.emptied.attributeEntries = 0 := by
  cases t <;> rfl

theorem node_emptied (t : OutlineTree) : t.emptied.node = t.node := by
  cases t <;> rfl

end OutlineTree

namespace Store

/-- The store after a node has been emptied, the first step of a replacement. -/
def emptied (s : Store) (n : NodeRef) (node : Node) : Except StoreError Store := do
  let s := s.modifyNode n fun node => { node with payload := bare node.payload, children := [] }
  let s ← s.freeAttributes node.payload.attributes
  s.freeEach node.children

/-- A node below the root is replaced by emptying it and filling it. -/
theorem replace_eq {s : Store} {n c : NodeRef} {payload : Payload} {children : List NodeRef} {t : Tree} (hroot : n ≠ s.root)
    (hnode : s.node n = .ok ⟨payload, some c, children⟩) :
    s.replace n t = (do
      let m ← s.emptied n ⟨payload, some c, children⟩
      let s' ← m.fill n t
      .ok (s', c)) := by
  rw [replace, if_neg hroot, hnode]
  simp only [emptied, bind, Except.bind]
  cases (s.modifyNode n fun node => { node with payload := bare node.payload, children := [] }).freeAttributes
    payload.attributes <;> rfl

namespace Holds

variable {s : Store} {d : DocumentId} {N : Multiset (NodeRef × Node)} {A : Multiset (AttributeRef × Attribute)}
  {c n : NodeRef}

/-! ## Whole trees -/

/-- A node without children can be filled with the content of a tree. -/
theorem fill {payload : Payload} (h : s.Holds d ((n, ⟨payload, some c, []⟩) ::ₘ N) A) (new : Tree) :
    ∃ (s' : Store) (t : OutlineTree), s.fill n new = .ok s' ∧ t.node = n ∧ t.tree = new ∧
      s'.Holds d (t.entries c + N) (t.attributeEntries + A) := by
  cases new with
  | leaf text =>
    have hput := h.modifyNode fun node => { node with payload := .leaf text }
    have hbuild : ∀ v : Store, v.build n [(n, 0)] [] = .ok v := by
      intro v
      rw [Store.build, Store.build]
    refine ⟨s.modifyNode n fun node => { node with payload := .leaf text }, .leaf n text, ?_, rfl, rfl, ?_⟩
    · simp only [Store.fill, Tree.records, Tree.forest, Forest.cons, Forest.records, Record.children, storePayload, bind,
        Except.bind, h.node_eq (Multiset.mem_cons_self _ _)]
      exact hbuild _
    · simpa [OutlineTree.entries, OutlineTree.attributeEntries, OutlineTree.below, OutlineTree.attributes,
        OutlineTree.node, OutlineTree.payload, Outline.entries, Outline.attributeEntries, Outline.tops, Outline.toList]
        using hput
  | element name l children =>
    obtain ⟨pairs, hfst, hsnd, hadded⟩ := h.addAttributes l
    have hput := hadded.modifyNode fun node => { node with payload := .element name (pairs.map Prod.fst) }
    obtain ⟨below, hbelow, hgrafted⟩ := hput.graft children
    have hbuild := hput.build_records rfl children n 0 [] []
    rw [Nat.add_zero, List.append_nil, Store.build, Store.build] at hbuild
    refine ⟨((s.addAttributes l).1.modifyNode n fun node =>
      { node with payload := .element name (pairs.map Prod.fst) }).graft n children,
      .element n name pairs below, ?_, rfl, by rw [OutlineTree.tree, hsnd, hbelow], ?_⟩
    · simp only [Store.fill, Tree.records, Tree.forest, Forest.cons, Forest.records, List.append_nil, Record.children,
        storePayload, bind, Except.bind, hadded.node_eq (Multiset.mem_cons_self _ _), hfst]
      exact hbuild
    · have hentries : (OutlineTree.element n name pairs below).entries c + N =
          (n, Node.extended ⟨.element name (pairs.map Prod.fst), some c, []⟩ below.tops) ::ₘ (below.entries n + N) := by
        rw [OutlineTree.entries, Multiset.cons_add]
        rfl
      have hattributes : (OutlineTree.element n name pairs below).attributeEntries + A =
          below.attributeEntries + (pairs + A) := by
        simp only [OutlineTree.attributeEntries, OutlineTree.attributes, OutlineTree.below]
        abel
      rw [hentries, hattributes]
      exact hgrafted

/-- A tree can be emptied: the node at its top stays, and its attributes and all that is below it go. -/
theorem emptied {t : OutlineTree} (h : s.Holds d (t.entries c + N) (t.attributeEntries + A))
    (hroot : rootOf d ∉ (Outline.ofList [t]).nodes) :
    ∃ m, s.emptied t.node ⟨t.payload, some c, t.below.tops⟩ = .ok m ∧
      m.Holds d (t.emptied.entries c + N) (t.emptied.attributeEntries + A) := by
  have hnodes : (Outline.ofList [t]).nodes = t.node :: t.below.nodes := by
    cases t <;> simp [Outline.cons, Outline.nodes, OutlineTree.node, OutlineTree.below]
  rw [hnodes, List.mem_cons, not_or] at hroot
  rw [OutlineTree.entries, OutlineTree.attributeEntries, Multiset.cons_add, Multiset.add_assoc] at h
  have hpairs : t.payload.attributes = t.attributes.map Prod.fst := by cases t <;> rfl
  obtain ⟨s₁, hclear, h₁⟩ :=
    (h.modifyNode fun node => { node with payload := bare node.payload, children := [] }).freeAttributes
  rw [← Multiset.add_cons] at h₁
  obtain ⟨s₂, hfree, h₂⟩ := h₁.freeEach t.below t.node hroot.2
  refine ⟨s₂, ?_, ?_⟩
  · simp only [Store.emptied, bind, Except.bind, hpairs, hclear, hfree]
  · rw [OutlineTree.entries_emptied, OutlineTree.attributeEntries_emptied, Multiset.singleton_add, Multiset.zero_add]
    exact h₂

/-- A tree can be put in the place of another, once that has been emptied: it takes over the handle of the node at its top. -/
theorem replace {t : OutlineTree} (h : s.Holds d (t.entries c + N) (t.attributeEntries + A))
    (hroot : rootOf d ∉ (Outline.ofList [t]).nodes) (new : Tree) :
    ∃ (m s' : Store) (t' : OutlineTree), s.emptied t.node ⟨t.payload, some c, t.below.tops⟩ = .ok m ∧
      m.Holds d (t.emptied.entries c + N) (t.emptied.attributeEntries + A) ∧ m.fill t.node new = .ok s' ∧
      s.replace t.node new = .ok (s', c) ∧ t'.node = t.node ∧ t'.tree = new ∧
      s'.Holds d (t'.entries c + N) (t'.attributeEntries + A) := by
  have hnode : s.node t.node = .ok ⟨t.payload, some c, t.below.tops⟩ := by
    rw [OutlineTree.entries, Multiset.cons_add] at h
    exact h.node_eq (Multiset.mem_cons_self _ _)
  have hne : t.node ≠ rootOf d := by
    rintro he
    refine hroot ?_
    rw [← he]
    cases t <;> simp [Outline.cons, Outline.nodes, OutlineTree.node]
  obtain ⟨m, hempty, hm⟩ := h.emptied hroot
  have hbare := hm
  rw [OutlineTree.entries_emptied, OutlineTree.attributeEntries_emptied, Multiset.singleton_add, Multiset.zero_add] at hbare
  obtain ⟨s', t', hfill, htop, htree, hs'⟩ := hbare.fill new
  refine ⟨m, s', t', hempty, hm, hfill, ?_, htop, htree, hs'⟩
  rw [replace_eq (by rw [h.root]; exact hne) hnode, hempty]
  simp only [bind, Except.bind, hfill]

/-! ## Attributes and texts -/

/-- Attributes that are there are made up to others: as many as there are new ones keep their handles, in order. -/
theorem rewriteAttributes {old : List (AttributeRef × Attribute)} (h : s.Holds d N (old + A)) (l : List Attribute) :
    ∃ (s' : Store) (new : List (AttributeRef × Attribute)),
      s.rewriteAttributes (old.map Prod.fst) l = .ok (s', new.map Prod.fst) ∧ new.map Prod.snd = l ∧
      (new.map Prod.fst).take old.length = (old.map Prod.fst).take l.length ∧ s'.Holds d N (new + A) := by
  induction old generalizing s l A with
  | nil =>
    obtain ⟨pairs, hfst, hsnd, hadded⟩ := h.addAttributes l
    rw [Multiset.coe_nil, Multiset.zero_add] at hadded
    refine ⟨_, pairs, ?_, hsnd, by simp, hadded⟩
    rw [List.map_nil, Store.rewriteAttributes, ← hfst]
  | cons pair rest ih =>
    obtain ⟨a, v⟩ := pair
    cases l with
    | nil =>
      obtain ⟨s', hfree, hs⟩ := h.freeAttributes
      refine ⟨s', [], ?_, rfl, by simp, by simpa using hs⟩
      rw [List.map_cons] at hfree ⊢
      rw [Store.rewriteAttributes, hfree]
      · rfl
      · simp
    | cons b l =>
      rw [← Multiset.cons_coe, Multiset.cons_add] at h
      obtain ⟨s₁, hupdate, h₁⟩ := h.updateAttribute b
      rw [← Multiset.add_cons] at h₁
      obtain ⟨s₂, new, hrest, hsnd, htake, h₂⟩ := ih h₁ l
      refine ⟨s₂, (a, b) :: new, ?_, by simp [hsnd], by simpa using htake, ?_⟩
      · rw [List.map_cons, Store.rewriteAttributes, hupdate]
        simp only [bind, Except.bind, hrest]
        rfl
      · rw [← Multiset.cons_coe, Multiset.cons_add, ← Multiset.add_cons]
        exact h₂

/-- An element can be given new attributes: as many as there are new ones keep their handles, in order. -/
theorem setAttributes {name : QName} {old : List (AttributeRef × Attribute)} {below : Outline}
    (h : s.Holds d ((OutlineTree.element n name old below).entries c + N)
      ((OutlineTree.element n name old below).attributeEntries + A)) (l : List Attribute) :
    ∃ (s' : Store) (new : List (AttributeRef × Attribute)), s.setAttributes n l = .ok s' ∧ new.map Prod.snd = l ∧
      (new.map Prod.fst).take old.length = (old.map Prod.fst).take l.length ∧
      s'.Holds d ((OutlineTree.element n name new below).entries c + N)
        ((OutlineTree.element n name new below).attributeEntries + A) := by
  rw [OutlineTree.entries, OutlineTree.attributeEntries, Multiset.cons_add, Multiset.add_assoc] at h
  have hnode : s.node n = .ok ⟨.element name (old.map Prod.fst), some c, below.tops⟩ :=
    h.node_eq (Multiset.mem_cons_self _ _)
  obtain ⟨s₁, new, hrewrite, hsnd, htake, h₁⟩ := h.rewriteAttributes l
  change s.rewriteAttributes (old.map Prod.fst) l = _ at hrewrite
  have hstill : s₁.node n = .ok ⟨.element name (old.map Prod.fst), some c, below.tops⟩ :=
    h₁.node_eq (Multiset.mem_cons_self _ _)
  refine ⟨s₁.modifyNode n fun node => withAttributes node (new.map Prod.fst), new, ?_, hsnd, htake, ?_⟩
  · simp only [Store.setAttributes, hnode, bind, Except.bind, hrewrite, hstill]
  · rw [OutlineTree.entries, OutlineTree.attributeEntries, Multiset.cons_add, Multiset.add_assoc]
    exact h₁.modifyNode _

/-- A text can be given new content. -/
theorem setText {old : String} (h : s.Holds d ((OutlineTree.leaf n old).entries c + N) A) (text : String) :
    ∃ s' : Store, s.setText n text = .ok s' ∧ s'.Holds d ((OutlineTree.leaf n text).entries c + N) A := by
  rw [OutlineTree.entries, Multiset.cons_add] at h
  have hnode : s.node n = .ok ⟨.leaf old, some c, []⟩ := h.node_eq (Multiset.mem_cons_self _ _)
  refine ⟨s.modifyNode n fun node => { node with payload := .leaf text }, ?_, ?_⟩
  · simp only [Store.setText, hnode, bind, Except.bind]
  · rw [OutlineTree.entries, Multiset.cons_add]
    exact h.modifyNode _

end Holds

end Store

end LiveMarkup
