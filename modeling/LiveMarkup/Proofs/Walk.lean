import LiveMarkup.Document.Compare
import LiveMarkup.Proofs.Differences
import LiveMarkup.Proofs.Shows

/-!
# Comparing documents is comparing forests

The walk over two documents, with its stack of comparisons still to be made, comes to a recursion over their two forests
(`Forest.walk`), in at most two steps for each node of the first. So the difference of two sound documents is found, and
depends on nothing but their forests (`Document.compare_eq`).
-/

namespace LiveMarkup

/-- Notes that the trees of a list had no counterparts so far. -/
def Diff.noteAdditions (d : Diff) (parent : Path) (trees : List Tree) : Diff :=
  trees.foldl (fun d t => d.noteAdded parent t) d

namespace Forest

/-- Compares two forests below the node at a path, both of them from a position on. -/
def walk : Path → (position : Nat) → (old new : Forest) → Diff → Diff
  | p, _, .nil, new, d => d.noteAdditions p new.toList
  | p, i, .leaf _ old, .nil, d => d.noteRemovals (p ++ [i]) (old.length + 1)
  | p, i, .element _ _ _ old, .nil, d => d.noteRemovals (p ++ [i]) (old.length + 1)
  | p, i, .leaf a old, .leaf b new, d => walk p (i + 1) old new (d.noteLeaves (p ++ [i]) a b)
  | p, i, .leaf _ old, .element b bs below new, d =>
    walk p (i + 1) old new (d.noteReplaced (p ++ [i]) (.element b bs below))
  | p, i, .element _ _ _ old, .leaf b new, d => walk p (i + 1) old new (d.noteReplaced (p ++ [i]) (.leaf b))
  | p, i, .element a as below old, .element b bs below' new, d =>
    walk p (i + 1) old new
      (if a = b then walk (p ++ [i]) 0 below below' (d.noteElements (p ++ [i]) as bs)
      else d.noteReplaced (p ++ [i]) (.element b bs below'))

/-- The difference of a forest from another one. -/
def diff (old new : Forest) : Diff :=
  let d := walk [] 0 old new .start
  { d with edits := d.edits.reverse }

theorem edits_noteRemovals (d : Diff) (p : Path) (n : Nat) :
    (d.noteRemovals p n).edits = (List.replicate n (.remove p)).reverse ++ d.edits := by
  induction n generalizing d with
  | zero => rfl
  | succ n ih =>
    rw [Diff.noteRemovals, ih, List.replicate_succ, List.reverse_cons, List.append_assoc]
    rfl

theorem edits_noteAdditions (d : Diff) (p : Path) (trees : List Tree) :
    (d.noteAdditions p trees).edits = (trees.map (Edit.append p)).reverse ++ d.edits := by
  induction trees generalizing d with
  | nil => rfl
  | cons t trees ih =>
    have hstep : d.noteAdditions p (t :: trees) = (d.noteAdded p t).noteAdditions p trees := rfl
    rw [hstep, ih, List.map_cons, List.reverse_cons, List.append_assoc]
    rfl

/-- A comparison gathers the differences of the two forests, the last one first. -/
theorem edits_walk (p : Path) (i : Nat) (old new : Forest) (d : Diff) :
    (walk p i old new d).edits = (differences p i old new).reverse ++ d.edits := by
  induction old generalizing p i new d with
  | nil => exact edits_noteAdditions d p new.toList
  | leaf a old ih =>
    cases new with
    | nil => exact edits_noteRemovals d (p ++ [i]) (old.length + 1)
    | leaf b new =>
      rw [walk, ih, differences, Diff.noteLeaves]
      split <;> simp
    | element b bs below new =>
      rw [walk, ih, differences]
      simp [Diff.noteReplaced]
  | element a as below old ihb ih =>
    cases new with
    | nil => exact edits_noteRemovals d (p ++ [i]) (old.length + 1)
    | leaf b new =>
      rw [walk, ih, differences]
      simp [Diff.noteReplaced]
    | element b bs below' new =>
      rw [walk, ih, differences]
      split
      · rw [ihb, Diff.noteElements]
        split <;> simp
      · simp [Diff.noteReplaced]

/-- The edits of a difference, in order. -/
theorem edits_diff (old new : Forest) : (old.diff new).edits = differences [] 0 old new := by
  have hwalk := edits_walk [] 0 old new .start
  rw [Diff.start, List.append_nil] at hwalk
  rw [diff, Diff.start, hwalk, List.reverse_reverse]

end Forest

/-! ## Parts of documents -/

/-- The store holds an outline below a node, and maybe more. -/
def Store.Carries (s : Store) (p : NodeRef) (o : Outline) : Prop :=
  ∃ d N A, s.Holds d N A ∧ o.entries p ≤ N ∧ o.attributeEntries ≤ A

namespace Store.Carries

variable {s : Store} {p : NodeRef} {o next : Outline}

/-- A store that shows an outline carries it. -/
theorem of_shows {d : DocumentId} (h : s.Shows d o) : s.Carries (rootOf d) o :=
  ⟨d, _, _, h, Multiset.le_cons_self _ _, le_refl _⟩

/-- A part of what a store carries is carried. -/
theorem mono {o' : Outline} {p' : NodeRef} (h : s.Carries p o) (hentries : o'.entries p' ≤ o.entries p)
    (hattributes : o'.attributeEntries ≤ o.attributeEntries) : s.Carries p' o' := by
  obtain ⟨d, N, A, hs, hN, hA⟩ := h
  exact ⟨d, N, A, hs, hentries.trans hN, hattributes.trans hA⟩

/-- The first tree and the others are carried. -/
theorem head {t : OutlineTree} (h : s.Carries p (.cons t next)) : s.Carries p (.ofList [t]) := by
  refine h.mono ?_ ?_
  · rw [Outline.ofList_cons, Outline.entries_cons, Outline.entries_cons, Outline.ofList_nil, Outline.entries]
    exact add_le_add_right (Multiset.zero_le _) _
  · rw [Outline.ofList_cons, Outline.attributeEntries_cons, Outline.attributeEntries_cons, Outline.ofList_nil,
      Outline.attributeEntries]
    exact add_le_add_right (Multiset.zero_le _) _

theorem tail {t : OutlineTree} (h : s.Carries p (.cons t next)) : s.Carries p next := by
  refine h.mono ?_ ?_
  · rw [Outline.entries_cons]
    exact Multiset.le_add_left _ _
  · rw [Outline.attributeEntries_cons]
    exact Multiset.le_add_left _ _

/-- What is below the first tree is carried. -/
theorem below {t : OutlineTree} (h : s.Carries p (.cons t next)) : s.Carries t.node t.below := by
  refine h.mono ?_ ?_
  · rw [Outline.entries_cons, OutlineTree.entries]
    exact (Multiset.le_cons_self _ _).trans (Multiset.le_add_right _ _)
  · rw [Outline.attributeEntries_cons, OutlineTree.attributeEntries]
    exact (Multiset.le_add_left _ _).trans (Multiset.le_add_right _ _)

/-- The node at the top of the first tree. -/
theorem node? {t : OutlineTree} (h : s.Carries p (.cons t next)) :
    s.node? t.node = some ⟨t.payload, some p, t.below.tops⟩ := by
  obtain ⟨d, N, A, hs, hN, _⟩ := h
  refine hs.node?_eq.mpr (Multiset.mem_of_le hN ?_)
  rw [Outline.entries_cons, OutlineTree.entries]
  exact Multiset.mem_add.mpr (Or.inl (Multiset.mem_cons_self _ _))

/-- The attributes of the first tree are found. -/
theorem attribute? {t : OutlineTree} (h : s.Carries p (.cons t next)) {pair : AttributeRef × Attribute}
    (hpair : pair ∈ t.attributes) : s.attribute? pair.1 = some pair.2 := by
  obtain ⟨d, N, A, hs, _, hA⟩ := h
  refine hs.attribute?_eq.mpr (Multiset.mem_of_le hA ?_)
  rw [Outline.attributeEntries_cons, OutlineTree.attributeEntries]
  exact Multiset.mem_add.mpr (Or.inl (Multiset.mem_add.mpr (Or.inl hpair)))

/-- What a store carries is read off it. -/
theorem outline_tops (h : s.Carries p o) : s.outline o.tops = o := by
  obtain ⟨d, N, A, hs, hN, hA⟩ := h
  have hspan := o.span_le_length_nodes
  have hcard := Multiset.card_le_card hN
  have hsize := hs.card_nodes_le
  rw [← Multiset.card_map Prod.fst, Outline.map_fst_entries, Multiset.coe_card] at hcard
  exact hs.read_eq (Multiset.subset_of_le hN) (Multiset.subset_of_le hA) (by omega)

end Store.Carries

namespace Document

variable {d : Document} {p : NodeRef} {next : Outline} {t : OutlineTree}

theorem get_of_carries (h : d.store.Carries p (.cons t next)) : d.get t.node = .ok t.payload := by
  simp only [Document.get, Document.node, h.node?]
  rfl

theorem children_of_carries (h : d.store.Carries p (.cons t next)) : d.children t.node = .ok t.below.tops := by
  simp only [Document.children, Document.node, h.node?]
  rfl

/-- Attributes that are all there are looked up one after the other. -/
theorem mapM_attributeOf {pairs : List (AttributeRef × Attribute)}
    (h : ∀ pair ∈ pairs, d.store.attribute? pair.1 = some pair.2) :
    (pairs.map Prod.fst).mapM d.attributeOf = .ok (pairs.map Prod.snd) := by
  induction pairs with
  | nil => rfl
  | cons pair pairs ih =>
    have hfirst : d.attributeOf pair.1 = .ok pair.2 := by
      rw [attributeOf, h pair List.mem_cons_self]
    rw [List.map_cons, List.mapM_cons, hfirst, ih (fun q hq => h q (List.mem_cons_of_mem _ hq))]
    rfl

theorem attributes_of_carries (h : d.store.Carries p (.cons t next)) :
    d.attributes t.node = .ok (t.attributes.map Prod.snd) := by
  have hmap : (t.attributes.map Prod.fst).mapM d.attributeOf = .ok (t.attributes.map Prod.snd) :=
    mapM_attributeOf fun pair hpair => h.attribute? hpair
  simp only [Document.attributes, Document.attributeRefs, get_of_carries h]
  cases t with
  | leaf n text => rfl
  | element n name pairs below => exact hmap

/-- The forest that a node below the root stands for is its tree. -/
theorem forestAt_of_carries (h : d.store.Carries p (.cons t next)) : d.forestAt t.node = .ok t.tree.forest := by
  have houtline : d.store.outline [t.node] = .ofList [t] := by
    have htops := h.head.outline_tops
    rw [Outline.tops_ofList] at htops
    exact htops
  simp only [Document.forestAt, get_of_carries h, houtline, Outline.forest_ofList]
  cases t <;> rfl

/-- The tree from a node downwards. -/
theorem subtree_of_carries (h : d.store.Carries p (.cons t next)) : d.subtree t.node = .ok t.tree := by
  simp only [Document.subtree, get_of_carries h, forestAt_of_carries h]
  cases t with
  | leaf n text => rfl
  | element n name pairs below => rfl

end Document

/-! ## The walk -/

namespace Comparison.State

variable {target incoming : Document}

/-- A number of comparisons leads from one state to another. -/
def Reaches (target incoming : Document) (s : State) (steps : Nat) (s' : State) : Prop :=
  ∀ limit, s.run target incoming (steps + limit) = s'.run target incoming limit

namespace Reaches

variable {s s' s'' : State} {m n : Nat}

theorem trans (h : Reaches target incoming s m s') (h' : Reaches target incoming s' n s'') :
    Reaches target incoming s (m + n) s'' := by
  intro limit
  rw [Nat.add_assoc, h, h']

/-- One comparison is made. -/
theorem step {next : Comparison} {pending : List Comparison} (hpending : s.pending = next :: pending)
    (hstep : { s with pending }.step target incoming next = .ok s') : Reaches target incoming s 1 s' := by
  intro limit
  obtain ⟨path, _, diff⟩ := s
  obtain rfl : _ = next :: pending := hpending
  simp only [Nat.add_comm 1 limit, run, hstep]

end Reaches

/-- Nodes without counterparts are noted with their trees. -/
theorem noteAdditions_eq {q : NodeRef} {b : Outline} (hb : incoming.store.Carries q b) (s : State) :
    s.noteAdditions incoming b.tops = .ok { s with diff := s.diff.noteAdditions s.path b.forest.toList } := by
  obtain ⟨trees, rfl⟩ : ∃ trees, b = Outline.ofList trees := ⟨b.toList, b.ofList_toList.symm⟩
  induction trees generalizing s with
  | nil => rfl
  | cons t trees ih =>
    rw [Outline.ofList_cons] at hb
    have hrest := ih { s with diff := s.diff.noteAdded s.path t.tree } hb.tail
    rw [Outline.forest_ofList, Forest.toList_ofList, Outline.tops_ofList] at hrest ⊢
    rw [List.map_cons, noteAdditions, Document.subtree_of_carries hb]
    exact hrest

/-- Where one of two lists of children has come to its end, the rest of the other is noted. -/
theorem compareSurplus_eq {A B q : NodeRef} {pre pre' : List NodeRef} {a b : Outline}
    (hA : target.children A = .ok (pre ++ a.tops)) (hB : incoming.children B = .ok (pre' ++ b.tops))
    (hlength : pre.length = pre'.length) (hend : a = .nil ∨ b = .nil) (hb : incoming.store.Carries q b) (s : State) :
    s.compareSurplus target incoming A B = .ok { s with
      diff := (s.diff.noteRemovals (s.path ++ [pre.length]) a.tops.length).noteAdditions s.path b.forest.toList } := by
  have hmin : min (pre ++ a.tops).length (pre' ++ b.tops).length = pre.length := by
    rw [List.length_append, List.length_append]
    rcases hend with rfl | rfl
    · change min (pre.length + 0) _ = _
      omega
    · change min _ (pre'.length + 0) = _
      omega
  have hsurplus : (pre ++ a.tops).length - pre.length = a.tops.length := by
    rw [List.length_append]
    omega
  have hdrop : (pre' ++ b.tops).drop pre.length = b.tops := by
    rw [hlength]
    exact List.drop_left
  simp only [compareSurplus, hA, hB, bind, Except.bind, hmin, hsurplus, hdrop]
  exact noteAdditions_eq hb _

/-- A state in which the children of two nodes at a path are to be compared from a position on. -/
structure Before (target incoming : Document) (a b : Outline) (p : Path) (i : Nat) (rest : List Comparison) (s : State) :
    Prop where
  path : s.path.take p.length = p
  pending : ∃ A B pre pre', List.length pre = i ∧ List.length pre' = i ∧ target.children A = .ok (pre ++ a.tops) ∧
    incoming.children B = .ok (pre' ++ b.tops) ∧
    s.pending = pairs p.length i a.tops b.tops ++ .surplus A B p.length :: rest

/-- From a state, comparisons lead to one in which a rest of them is still to be made, and the difference is another. -/
def Makes (target incoming : Document) (p : Path) (rest : List Comparison) (bound : Nat) (diff : Diff) (s : State) : Prop :=
  ∃ s' steps, Reaches target incoming s steps s' ∧ steps ≤ bound ∧ s'.path.take p.length = p ∧ s'.pending = rest ∧
    s'.diff = diff

variable {a b : Outline} {p : Path} {i : Nat} {rest : List Comparison} {s : State}

/-- Where one of two lists of children has come to its end, one comparison is left. -/
theorem Before.makes_surplus (h : Before target incoming a b p i rest s) (hend : a = .nil ∨ b = .nil) {q : NodeRef}
    (hb : incoming.store.Carries q b) :
    Makes target incoming p rest 1
      ((s.diff.noteRemovals (p ++ [i]) a.tops.length).noteAdditions p b.forest.toList) s := by
  obtain ⟨A, B, pre, pre', rfl, hlength, hA, hB, hpending⟩ := h.pending
  have hnone : pairs p.length pre.length a.tops b.tops = [] := by
    rcases hend with rfl | rfl
    · rfl
    · cases a <;> rfl
  rw [hnone, List.nil_append] at hpending
  have hstep := compareSurplus_eq hA hB hlength.symm hend hb { s with path := p, pending := rest }
  refine ⟨{
    path := p
    pending := rest
    diff := (s.diff.noteRemovals (p ++ [pre.length]) a.tops.length).noteAdditions p b.forest.toList },
    1, .step hpending ?_, le_refl 1, List.take_length, rfl, rfl⟩
  rw [State.step, h.path]
  exact hstep

variable {t u : OutlineTree}

/-- Where both lists of children go on, their next two nodes are compared, and then those that follow. -/
theorem Before.next (h : Before target incoming (.cons t a) (.cons u b) p i rest s) :
    ∃ pending, s.pending = .pair t.node u.node p.length i :: pending ∧
      ∀ s', s'.path.take p.length = p → s'.pending = pending → Before target incoming a b p (i + 1) rest s' := by
  obtain ⟨A, B, pre, pre', hpre, hpre', hA, hB, hpending⟩ := h.pending
  have hsplit : ∀ (o : Outline) (v : OutlineTree) (l : List NodeRef),
      l ++ (Outline.cons v o).tops = (l ++ [v.node]) ++ o.tops := by
    intro o v l
    rw [Outline.tops, Outline.toList_cons, List.map_cons, List.append_assoc]
    rfl
  have htops : ∀ (o : Outline) (v : OutlineTree), (Outline.cons v o).tops = v.node :: o.tops := fun o v => hsplit o v []
  rw [htops, htops, pairs] at hpending
  refine ⟨_, hpending, ?_⟩
  intro s' hpath hs'
  refine ⟨hpath, A, B, pre ++ [t.node], pre' ++ [u.node], ?_, ?_, ?_, ?_, hs'⟩
  · rw [List.length_append, hpre]
    rfl
  · rw [List.length_append, hpre']
    rfl
  · rw [← hsplit]
    exact hA
  · rw [← hsplit]
    exact hB

/-- The comparison of two nodes comes first, in a state at their path. -/
theorem Before.reaches (h : Before target incoming (.cons t a) (.cons u b) p i rest s) {pending : List Comparison}
    (hpending : s.pending = .pair t.node u.node p.length i :: pending) {s' : State}
    (hstep : State.compareNodes target incoming ⟨p ++ [i], pending, s.diff⟩ t.node u.node = .ok s') :
    Reaches target incoming s 1 s' := by
  refine .step hpending ?_
  rw [State.step, h.path]
  exact hstep

/-- Comparisons that have been made count with those that follow. -/
theorem Makes.of_reaches {s' : State} {m n k : Nat} {diff : Diff} (h : Reaches target incoming s m s')
    (hmakes : Makes target incoming p rest n diff s') (hk : m + n ≤ k) : Makes target incoming p rest k diff s := by
  obtain ⟨s'', steps, hreaches, hsteps, hpath, hpending, hdiff⟩ := hmakes
  exact ⟨s'', m + steps, h.trans hreaches, by omega, hpath, hpending, hdiff⟩

/-- A path that has been taken further still begins as it did. -/
theorem take_concat (p : Path) (i : Nat) : (p ++ [i]).take p.length = p :=
  List.take_left

/-- Where the first list of children goes on and the second does not, the rest of the first is noted. -/
theorem Before.makes_removals (h : Before target incoming a .nil p i rest s) {q : NodeRef}
    (hb : incoming.store.Carries q .nil) {k : Nat} (hk : 1 ≤ k) :
    Makes target incoming p rest k (s.diff.noteRemovals (p ++ [i]) a.forest.length) s := by
  have hlength : a.tops.length = a.forest.length := by
    rw [Outline.tops, List.length_map, ← Forest.length_toList, Outline.toList_forest, List.length_map]
  obtain ⟨s', steps, hreaches, hsteps, hpath, hpending, hdiff⟩ := h.makes_surplus (Or.inr rfl) hb
  rw [hlength] at hdiff
  exact ⟨s', steps, hreaches, hsteps.trans hk, hpath, hpending, hdiff⟩

/-- A pair of nodes that do not match is noted with the tree of the second. -/
theorem Before.reaches_replaced (h : Before target incoming (.cons t a) (.cons u b) p i rest s)
    {pending : List Comparison} (hpending : s.pending = .pair t.node u.node p.length i :: pending) {q q' : NodeRef}
    (ha : target.store.Carries q (.cons t a)) (hb : incoming.store.Carries q' (.cons u b))
    (hmatch : ∀ name as bs, t.payload = .element name as → u.payload ≠ .element name bs)
    (hleaf : ∀ text text', t.payload = .leaf text → u.payload ≠ .leaf text') :
    Reaches target incoming s 1 ⟨p ++ [i], pending, s.diff.noteReplaced (p ++ [i]) u.tree⟩ := by
  refine h.reaches hpending ?_
  simp only [State.compareNodes, Document.get_of_carries ha, Document.get_of_carries hb,
    Document.subtree_of_carries hb, bind, Except.bind]
  split
  · rename_i name as name' bs ht hu
    by_cases hname : name = name'
    · subst hname
      exact absurd hu (hmatch name as bs ht)
    · rw [if_neg hname]
  · rename_i text text' ht hu
    exact absurd hu (hleaf text text' ht)
  · rfl

/-- A pair of elements of one name is noted, and then what is below them is compared. -/
theorem Before.reaches_below {n m : NodeRef} {name : QName} {as bs : List (AttributeRef × Attribute)}
    {below below' : Outline}
    (h : Before target incoming (.cons (.element n name as below) a) (.cons (.element m name bs below') b) p i rest s)
    {pending : List Comparison} (hpending : s.pending = .pair n m p.length i :: pending) {q q' : NodeRef}
    (ha : target.store.Carries q (.cons (.element n name as below) a))
    (hb : incoming.store.Carries q' (.cons (.element m name bs below') b)) :
    ∃ s', Reaches target incoming s 1 s' ∧ Before target incoming below below' (p ++ [i]) 0 pending s' ∧
      s'.diff = s.diff.noteElements (p ++ [i]) (as.map Prod.snd) (bs.map Prod.snd) := by
  have hget : target.get n = .ok (.element name (as.map Prod.fst)) := Document.get_of_carries ha
  have hget' : incoming.get m = .ok (.element name (bs.map Prod.fst)) := Document.get_of_carries hb
  have hchildren : target.children n = .ok below.tops := Document.children_of_carries ha
  have hchildren' : incoming.children m = .ok below'.tops := Document.children_of_carries hb
  have hattributes : target.attributes n = .ok (as.map Prod.snd) := Document.attributes_of_carries ha
  have hattributes' : incoming.attributes m = .ok (bs.map Prod.snd) := Document.attributes_of_carries hb
  refine ⟨⟨p ++ [i], pairs (p ++ [i]).length 0 below.tops below'.tops ++ .surplus n m (p ++ [i]).length :: pending,
    s.diff.noteElements (p ++ [i]) (as.map Prod.snd) (bs.map Prod.snd)⟩, h.reaches hpending ?_, ?_, rfl⟩
  · simp only [State.compareNodes, OutlineTree.node, hget, hget', hattributes, hattributes', State.schedule, hchildren,
      hchildren', bind, Except.bind, if_true]
  · exact ⟨List.take_length, n, m, [], [], rfl, rfl, hchildren, hchildren', rfl⟩

/-- The comparison of two lists of children comes to the comparison of their forests. -/
theorem Before.makes_walk {q q' : NodeRef} (ha : target.store.Carries q a) (hb : incoming.store.Carries q' b)
    (h : Before target incoming a b p i rest s) :
    Makes target incoming p rest (2 * a.nodes.length + 1) (Forest.walk p i a.forest b.forest s.diff) s := by
  induction a generalizing b p i rest s q q' with
  | nil => exact h.makes_surplus (Or.inl rfl) hb
  | leaf n text next ih =>
    have hbound : 1 + (2 * next.nodes.length + 1) ≤ 2 * (Outline.leaf n text next).nodes.length + 1 := by
      simp only [Outline.nodes, List.length_cons]
      omega
    change target.store.Carries q (.cons (.leaf n text) next) at ha
    cases b with
    | nil => exact h.makes_removals hb (by omega)
    | leaf m text' next' =>
      change incoming.store.Carries q' (.cons (.leaf m text') next') at hb
      change Before target incoming (.cons (.leaf n text) next) (.cons (.leaf m text') next') p i rest s at h
      obtain ⟨pending, hpending, hnext⟩ := h.next
      have hreaches : Reaches target incoming s 1 ⟨p ++ [i], pending, s.diff.noteLeaves (p ++ [i]) text text'⟩ := by
        refine h.reaches hpending ?_
        simp only [State.compareNodes, Document.get_of_carries ha, Document.get_of_carries hb]
        rfl
      exact .of_reaches hreaches (ih ha.tail hb.tail (hnext _ (take_concat p i) rfl)) hbound
    | element m name bs below next' =>
      change incoming.store.Carries q' (.cons (.element m name bs below) next') at hb
      change Before target incoming (.cons (.leaf n text) next) (.cons (.element m name bs below) next') p i rest s at h
      obtain ⟨pending, hpending, hnext⟩ := h.next
      have hreaches := h.reaches_replaced hpending ha hb (by rintro _ _ _ ⟨⟩) (by rintro _ _ _ ⟨⟩)
      exact .of_reaches hreaches (ih ha.tail hb.tail (hnext _ (take_concat p i) rfl)) hbound
  | element n name as below next ihb ih =>
    have hbound : 1 + (2 * next.nodes.length + 1) ≤ 2 * (Outline.element n name as below next).nodes.length + 1 := by
      simp only [Outline.nodes, List.length_cons, List.length_append]
      omega
    change target.store.Carries q (.cons (.element n name as below) next) at ha
    cases b with
    | nil => exact h.makes_removals hb (by omega)
    | leaf m text' next' =>
      change incoming.store.Carries q' (.cons (.leaf m text') next') at hb
      change Before target incoming (.cons (.element n name as below) next) (.cons (.leaf m text') next') p i rest s at h
      obtain ⟨pending, hpending, hnext⟩ := h.next
      have hreaches := h.reaches_replaced hpending ha hb (by rintro _ _ _ _ ⟨⟩) (by rintro _ _ ⟨⟩)
      exact .of_reaches hreaches (ih ha.tail hb.tail (hnext _ (take_concat p i) rfl)) hbound
    | element m name' bs below' next' =>
      change incoming.store.Carries q' (.cons (.element m name' bs below') next') at hb
      change Before target incoming (.cons (.element n name as below) next) (.cons (.element m name' bs below') next')
        p i rest s at h
      obtain ⟨pending, hpending, hnext⟩ := h.next
      rw [Outline.forest, Outline.forest, Forest.walk]
      split
      · rename_i hname
        subst hname
        obtain ⟨s₁, hfirst, hbefore, hdiff⟩ := h.reaches_below hpending ha hb
        obtain ⟨s₂, steps, hreaches, hsteps, hpath, hrest, hdiff'⟩ := ihb ha.below hb.below hbefore
        have hback : s₂.path.take p.length = p := by
          have htake := congrArg (List.take p.length) hpath
          rw [List.take_take, List.length_append, Nat.min_eq_left (Nat.le_add_right _ _), take_concat] at htake
          exact htake
        have hmakes := ih ha.tail hb.tail (hnext s₂ hback hrest)
        rw [hdiff', hdiff] at hmakes
        refine .of_reaches (hfirst.trans hreaches) hmakes ?_
        simp only [Outline.nodes, List.length_cons, List.length_append]
        change steps ≤ 2 * below.nodes.length + 1 at hsteps
        omega
      · rename_i hname
        have hreaches := h.reaches_replaced hpending ha hb (by rintro _ _ _ ⟨⟩ ⟨⟩; exact hname rfl)
          (by rintro _ _ ⟨⟩)
        exact .of_reaches hreaches (ih ha.tail hb.tail (hnext _ (take_concat p i) rfl)) hbound

/-- Where no comparison is left, the run is over. -/
theorem run_of_pending_eq_nil (h : s.pending = []) (limit : Nat) : s.run target incoming limit = .ok s := by
  obtain ⟨path, _, diff⟩ := s
  obtain rfl : _ = [] := h
  cases limit <;> rfl

end Comparison.State

namespace Document

open Comparison (pairs State)

/-- The comparison of two documents whose stores show outlines finds the difference of their forests. -/
theorem compare_of_shows {d incoming : Document} {o o' : Outline} (h : d.store.Shows d.id o)
    (h' : incoming.store.Shows incoming.id o') : d.compare incoming = .ok (o.forest.diff o'.forest) := by
  have hchildren : d.children d.root = .ok o.tops := by
    simp only [Document.children, Document.node, Document.root, h.root, h.root_eq]
    rfl
  have hchildren' : incoming.children incoming.root = .ok o'.tops := by
    simp only [Document.children, Document.node, Document.root, h'.root, h'.root_eq]
    rfl
  have hschedule : State.schedule d incoming ⟨[], [], .start⟩ d.root incoming.root =
      .ok ⟨[], pairs 0 0 o.tops o'.tops ++ [.surplus d.root incoming.root 0], .start⟩ := by
    simp only [State.schedule, hchildren, hchildren', bind, Except.bind, List.length_nil]
  have hbefore : State.Before d incoming o o' [] 0 []
      ⟨[], pairs 0 0 o.tops o'.tops ++ [.surplus d.root incoming.root 0], .start⟩ :=
    ⟨rfl, d.root, incoming.root, [], [], rfl, rfl, hchildren, hchildren', rfl⟩
  obtain ⟨s, steps, hreaches, hsteps, _, hpending, hdiff⟩ := hbefore.makes_walk (.of_shows h) (.of_shows h')
  have hcount : d.nodeCount = o.nodes.length + 1 := by
    rw [Document.nodeCount, h.count_nodes, Multiset.card_cons, ← Multiset.card_map Prod.fst, Outline.map_fst_entries,
      Multiset.coe_card]
  obtain ⟨limit, hlimit⟩ : ∃ limit, 2 * d.nodeCount = steps + limit := ⟨2 * d.nodeCount - steps, by omega⟩
  simp only [Document.compare, hschedule, hlimit, hreaches limit, State.run_of_pending_eq_nil hpending, hdiff,
    Forest.diff]

end Document

end LiveMarkup
