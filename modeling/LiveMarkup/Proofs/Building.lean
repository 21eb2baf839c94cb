import LiveMarkup.Proofs.Holds

/-!
# Building below a node

Adding a forest below a node adds an outline of that forest, whose tops the node then lists after its other children
(`Holds.graft`). A listing is built up to the same store as the forest that it lists, whatever else stands on the stack of
nodes that still lack children (`Holds.build_records`).
-/

namespace LiveMarkup

/-- A node with more children behind those that it has. -/
def Node.extended (node : Node) (more : List NodeRef) : Node :=
  { node with children := node.children ++ more }

@[simp] theorem Node.extended_nil (node : Node) : node.extended [] = node := by
  simp [extended]

@[simp] theorem Node.extended_extended (node : Node) (l m : List NodeRef) :
    (node.extended l).extended m = node.extended (l ++ m) := by
  simp [extended]

/-- A forest without a node at its top has none at all. -/
theorem Forest.eq_nil_of_length {f : Forest} (h : f.length = 0) : f = .nil := by
  cases f with
  | nil => rfl
  | leaf text next => simp [length] at h
  | element name attributes children next => simp [length] at h

namespace Store.Holds

variable {s : Store} {d : DocumentId} {N : Multiset (NodeRef × Node)} {A : Multiset (AttributeRef × Attribute)}
  {p : NodeRef} {node : Node}

/-- A text that is added is there, and its parent lists it last. -/
theorem addLeaf (h : s.Holds d ((p, node) ::ₘ N) A) (text : String) :
    (s.addLeaf p text).1.Holds d ((p, node.extended [(s.addLeaf p text).2]) ::ₘ
      ((s.addLeaf p text).2, ⟨.leaf text, some p, []⟩) ::ₘ N) A :=
  h.link (.leaf text)

/-- An element that is added is there with its attributes, and its parent lists it last. -/
theorem addElement (h : s.Holds d ((p, node) ::ₘ N) A) (name : QName) (l : List Attribute) :
    ∃ pairs : List (AttributeRef × Attribute), pairs.map Prod.snd = l ∧
      (s.addElement p name l).1.Holds d ((p, node.extended [(s.addElement p name l).2]) ::ₘ
        ((s.addElement p name l).2, ⟨.element name (pairs.map Prod.fst), some p, []⟩) ::ₘ N) (pairs + A) := by
  obtain ⟨pairs, hfst, hsnd, hpairs⟩ := h.addAttributes l
  refine ⟨pairs, hsnd, ?_⟩
  have hlink := hpairs.link (.element name (s.addAttributes l).2)
  rw [hfst] at hlink
  simp only [Store.addElement, hfst]
  exact hlink

/-- A forest that is added below a node is there, and the node lists its tops last. -/
theorem graft (h : s.Holds d ((p, node) ::ₘ N) A) (f : Forest) :
    ∃ o : Outline, o.forest = f ∧
      (s.graft p f).Holds d ((p, node.extended o.tops) ::ₘ (o.entries p + N)) (o.attributeEntries + A) := by
  induction f generalizing s p node N A with
  | nil => exact ⟨.nil, rfl, by simpa [Store.graft, Outline.tops, Outline.toList, Outline.entries,
      Outline.attributeEntries] using h⟩
  | leaf text next ih =>
    obtain ⟨o, ho, hs⟩ := ih (h.addLeaf text)
    refine ⟨.leaf (s.addLeaf p text).2 text o, by rw [Outline.forest, ho], ?_⟩
    have htops : (node.extended [(s.addLeaf p text).2]).extended o.tops =
        node.extended (Outline.leaf (s.addLeaf p text).2 text o).tops := by
      rw [Node.extended_extended]
      rfl
    rw [Store.graft, ← htops, Outline.entries, Outline.attributeEntries, Multiset.cons_add]
    rw [Multiset.add_cons] at hs
    exact hs
  | element name l children next ihc ihn =>
    obtain ⟨pairs, hsnd, hadded⟩ := h.addElement name l
    generalize hc : (s.addElement p name l).2 = c at hadded
    rw [Multiset.cons_swap] at hadded
    obtain ⟨below, hbelow, hs⟩ := ihc hadded
    rw [Multiset.add_cons, Multiset.cons_swap] at hs
    obtain ⟨o, ho, hs'⟩ := ihn hs
    refine ⟨.element c name pairs below o, by rw [Outline.forest, hbelow, ho, hsnd], ?_⟩
    have htops : (node.extended [c]).extended o.tops = node.extended (Outline.element c name pairs below o).tops := by
      rw [Node.extended_extended]
      rfl
    have hentries : Outline.entries p (.element c name pairs below o) + N =
        o.entries p + (c, Node.extended ⟨.element name (pairs.map Prod.fst), some p, []⟩ below.tops) ::ₘ
          (below.entries c + N) := by
      rw [Outline.entries, Multiset.cons_add, Multiset.add_cons]
      congr 1
      abel
    have hattributes : (Outline.element c name pairs below o).attributeEntries + A =
        o.attributeEntries + (below.attributeEntries + (pairs + A)) := by
      rw [Outline.attributeEntries]
      abel
    rw [← htops, hentries, hattributes]
    simp only [Store.graft, hc]
    exact hs'

/-- What a record describes is added below a node that may have children. -/
theorem addRecord (h : s.Holds d ((p, node) ::ₘ N) A) (hc : node.payload.isContainer = true) (r : Record) :
    s.addRecord p r = .ok (match r with
      | .leaf text => s.addLeaf p text
      | .element name l _ => s.addElement p name l) := by
  simp only [Store.addRecord, h.node_eq (Multiset.mem_cons_self _ _)]
  cases r <;> exact if_pos hc

/-- Building the listing of a forest below a node that lacks as many children as the forest has trees, and then some more,
comes to adding the forest. -/
theorem build_records (h : s.Holds d ((p, node) ::ₘ N) A) (hc : node.payload.isContainer = true) (f : Forest)
    (top : NodeRef) (more : Nat) (outer : List (NodeRef × Nat)) (rest : List Record) :
    s.build top ((p, f.length + more) :: outer) (f.records ++ rest) =
      (s.graft p f).build top ((p, more) :: outer) rest := by
  induction f generalizing s p node N A more outer rest with
  | nil => simp [Forest.length, Forest.records, Store.graft]
  | leaf text next ih =>
    have hlength : (Forest.leaf text next).length + more = next.length + more + 1 := by
      simp only [Forest.length]
      omega
    have hrest := ih (h.addLeaf text) hc more outer rest
    rw [hlength, Forest.records, List.cons_append, Store.build, h.addRecord hc]
    exact hrest
  | element name l children next ihc ihn =>
    obtain ⟨pairs, _, hadded⟩ := h.addElement name l
    rw [Multiset.cons_swap] at hadded
    obtain ⟨below, _, hgrafted⟩ := hadded.graft children
    rw [Multiset.add_cons, Multiset.cons_swap] at hgrafted
    have hnext := ihn hgrafted hc more outer rest
    have hchildren := ihc hadded rfl 0 ((p, next.length + more) :: outer) (next.records ++ rest)
    have hlength : (Forest.element name l children next).length + more = next.length + more + 1 := by
      simp only [Forest.length]
      omega
    rw [hlength, Forest.records, List.cons_append, List.append_assoc, Store.build, h.addRecord hc]
    change (if children.length = 0 then _ else _) = _
    split
    · rename_i hzero
      rw [Forest.eq_nil_of_length hzero] at hnext ⊢
      exact hnext
    · rw [Nat.add_zero] at hchildren
      refine hchildren.trans ?_
      rw [Store.build]
      exact hnext

/-- Appending a tree to a node that may have children succeeds; the tree is there, and the node lists its top last. -/
theorem appendTree (h : s.Holds d ((p, node) ::ₘ N) A) (hc : node.payload.isContainer = true) (t : Tree) :
    ∃ o : OutlineTree, o.tree = t ∧ s.appendTree p t = .ok (s.graft p t.forest, o.node) ∧
      (s.graft p t.forest).Holds d ((p, node.extended [o.node]) ::ₘ (o.entries p + N)) (o.attributeEntries + A) := by
  cases t with
  | leaf text =>
    refine ⟨.leaf (s.addLeaf p text).2 text, rfl, ?_, ?_⟩
    · have hbuild : (s.addLeaf p text).1.build (s.addLeaf p text).2 [((s.addLeaf p text).2, 0)] [] =
          .ok (s.addLeaf p text).1 := by
        rw [Store.build, Store.build]
      simp only [Store.appendTree, Tree.records, Tree.forest, Forest.cons, Forest.records, h.addRecord hc, Record.children]
      change (do
        let s' ← (s.addLeaf p text).1.build (s.addLeaf p text).2 [((s.addLeaf p text).2, 0)] []
        Except.ok (s', (s.addLeaf p text).2)) = _
      rw [hbuild]
      rfl
    · have hadded := h.addLeaf text
      simpa [OutlineTree.entries, OutlineTree.attributeEntries, OutlineTree.below, OutlineTree.attributes,
        OutlineTree.node, OutlineTree.payload, Outline.entries, Outline.attributeEntries, Outline.tops, Outline.toList,
        Tree.forest, Forest.cons, Store.graft] using hadded
  | element name l children =>
    obtain ⟨pairs, hsnd, hadded⟩ := h.addElement name l
    generalize hc' : (s.addElement p name l).2 = c at hadded
    rw [Multiset.cons_swap] at hadded
    obtain ⟨below, hbelow, hgrafted⟩ := hadded.graft children
    have hbuild := hadded.build_records rfl children c 0 [] []
    rw [Nat.add_zero, List.append_nil, Store.build, Store.build] at hbuild
    refine ⟨.element c name pairs below, by rw [OutlineTree.tree, hsnd, hbelow], ?_, ?_⟩
    · simp only [Store.appendTree, Tree.records, Tree.forest, Forest.cons, Forest.records, List.append_nil, h.addRecord hc,
        Record.children]
      change (do
        let s' ← (s.addElement p name l).1.build (s.addElement p name l).2
          [((s.addElement p name l).2, children.length)] children.records
        Except.ok (s', (s.addElement p name l).2)) = _
      rw [hc', hbuild]
      simp only [Store.graft, hc']
      rfl
    · simp only [Tree.forest, Forest.cons, Store.graft, hc']
      have hentries : (OutlineTree.element c name pairs below).entries p + N =
          (c, Node.extended ⟨.element name (pairs.map Prod.fst), some p, []⟩ below.tops) ::ₘ (below.entries c + N) := by
        rw [OutlineTree.entries, Multiset.cons_add]
        rfl
      have hattributes : (OutlineTree.element c name pairs below).attributeEntries + A =
          below.attributeEntries + (pairs + A) := by
        simp only [OutlineTree.attributeEntries, OutlineTree.attributes, OutlineTree.below]
        abel
      rw [hentries, hattributes, Multiset.cons_swap]
      rw [Multiset.add_cons] at hgrafted
      exact hgrafted

end Store.Holds

end LiveMarkup
