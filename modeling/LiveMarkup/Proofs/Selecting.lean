import LiveMarkup.Proofs.AttributeQueries

/-!
# Selections

A selection takes one node after the other from a walk (`Document.Visits`), and ends at the first element it finds if there can be
only one (`Selector.Yields`). What it finds is the filtered walk, or the first of it (`Selector.yields_of_visits`).

The tests of what is above an element climb along the parents, and the walk goes down along the lists of children. Both give the
same elements (`Document.combinators_walk_down`), because the nodes that are climbed over are those that the element is below,
and what is below a node stands together in the walk of the document. A selection that ends at its first element misses nothing
if ids differ (`Document.unique_selections_complete`): then a selector that is taken for unique is matched by one element at
most (`Selector.eq_of_unique`).
-/

namespace LiveMarkup

/-! ## Filtered lists -/

/-- The part of a list without repetitions that is in one stretch of it is the stretch. -/
theorem filter_mem_of_infix {α : Type} [DecidableEq α] {part whole : List α} (hnodup : whole.Nodup) (h : part <:+: whole) :
    whole.filter (· ∈ part) = part := by
  obtain ⟨before, after, rfl⟩ := h
  obtain ⟨hfirst, -, hafter⟩ := List.nodup_append.mp hnodup
  obtain ⟨-, -, hbefore⟩ := List.nodup_append.mp hfirst
  have hnone : before.filter (· ∈ part) = [] :=
    List.filter_eq_nil_iff.mpr fun x hx => by simpa using fun hpart => hbefore x hx x hpart rfl
  have hnone' : after.filter (· ∈ part) = [] :=
    List.filter_eq_nil_iff.mpr fun x hx => by
      simpa using fun hpart => hafter x (List.mem_append_right before hpart) x hx rfl
  have hall : part.filter (· ∈ part) = part := List.filter_eq_self.mpr fun x hx => decide_eq_true hx
  rw [List.filter_append, List.filter_append, hnone, hnone', hall, List.nil_append, List.append_nil]

/-- A list without repetitions has one element at most if all its elements are equal. -/
theorem length_le_one_of_nodup {α : Type} {l : List α} (hnodup : l.Nodup) (h : ∀ x ∈ l, ∀ y ∈ l, x = y) : l.length ≤ 1 := by
  match l with
  | [] | [_] => simp
  | x :: y :: _ => exact absurd (h x (by simp) y (by simp)) fun heq => (List.nodup_cons.mp hnodup).1 (by simp [heq])

/-! ## Walks -/

namespace Document

/-- The walk from a stack of nodes: the first of them is visited, and its children take its place. -/
inductive Visits (d : Document) : (stack visited : List NodeRef) → Prop
  | done : d.Visits [] []
  | next {n : NodeRef} {stack visited : List NodeRef} (rest : d.Visits (d.store.childrenOf n ++ stack) visited) :
      d.Visits (n :: stack) (n :: visited)

variable {d : Document} {n p : NodeRef} {o : Outline} {stack visited : List NodeRef}

/-- A node is visited, and then its children before what was left. -/
theorem Visits.next_of_children {children : List NodeRef} (h : d.children n = .ok children)
    (rest : d.Visits (children ++ stack) visited) : d.Visits (n :: stack) (n :: visited) := by
  rw [← childrenOf_of_children h] at rest
  exact .next rest

/-- The walk goes through an outline that is carried before it goes on. -/
theorem visits_of_carries (h : d.store.Carries p o) (hrest : d.Visits stack visited) :
    d.Visits (o.tops ++ stack) (o.nodes ++ visited) := by
  induction o generalizing p stack visited with
  | nil => exact hrest
  | leaf n text next ih =>
    have hchildren : d.children n = .ok [] := children_of_carries (t := .leaf n text) h
    exact Visits.next_of_children hchildren (ih (Store.Carries.tail (t := .leaf n text) h) hrest)
  | element n name pairs below next ihb ihn =>
    have hchildren : d.children n = .ok below.tops := children_of_carries (t := .element n name pairs below) h
    have hnext := ihn (Store.Carries.tail (t := .element n name pairs below) h) hrest
    have hbelow := ihb (Store.Carries.below (t := .element n name pairs below) h) hnext
    rw [Outline.nodes, List.cons_append, List.append_assoc]
    exact Visits.next_of_children hchildren hbelow

/-- The walk below a node visits its descendants in order. -/
theorem Reachable.visits (h : d.Reachable) (hn : d.Has n) {below : List NodeRef} (hbelow : d.descendants n = .ok below) :
    d.Visits (d.store.childrenOf n) below := by
  obtain ⟨o, hcarried, hchildren, -⟩ := h.exists_outline hn
  obtain rfl : o.nodes = below := Except.ok.inj ((descendants_of_children hcarried hchildren).symm.trans hbelow)
  have hvisits := visits_of_carries hcarried Visits.done
  rwa [List.append_nil, List.append_nil, ← childrenOf_of_children hchildren] at hvisits

end Document

/-! ## Selections that go through a walk -/

namespace Selector

variable {d : Document} {stack found found' visited : List NodeRef} {s : Selector}

/-- What a selection finds from a stack of nodes on: it visits nodes until it finds one, and ends there if it is unique. -/
inductive Yields (s : Selector) (d : Document) : (stack found : List NodeRef) → Prop
  | ended : s.Yields d [] []
  | pass {n : NodeRef} {stack found : List NodeRef} (hno : s.matchesNode d n = false)
      (rest : s.Yields d (d.store.childrenOf n ++ stack) found) : s.Yields d (n :: stack) found
  | find {n : NodeRef} {stack found : List NodeRef} (hmatches : s.matchesNode d n = true) (hmore : s.isUnique = false)
      (rest : s.Yields d (d.store.childrenOf n ++ stack) found) : s.Yields d (n :: stack) (n :: found)
  | stop {n : NodeRef} {stack : List NodeRef} (hmatches : s.matchesNode d n = true) (hunique : s.isUnique = true) :
      s.Yields d (n :: stack) [n]

/-- A walk yields one list only. -/
theorem Yields.unique (h : s.Yields d stack found) (h' : s.Yields d stack found') : found = found' := by
  induction h generalizing found' with
  | ended =>
    cases h'
    rfl
  | pass hno _ ih =>
    cases h' with
    | pass _ rest => exact ih rest
    | find hmatches => cases hmatches.symm.trans hno
    | stop hmatches => cases hmatches.symm.trans hno
  | find hmatches hmore _ ih =>
    cases h' with
    | pass hno => cases hmatches.symm.trans hno
    | find _ _ rest => exact congrArg _ (ih rest)
    | stop _ hunique => cases hunique.symm.trans hmore
  | stop hmatches hunique =>
    cases h' with
    | pass hno => cases hmatches.symm.trans hno
    | find _ hmore => cases hunique.symm.trans hmore
    | stop => rfl

/-- Without an early end, the filter gives all that is matched. -/
theorem filter_of_not_unique (hmore : s.isUnique = false) : s.filter d visited = visited.filter (s.matchesNode d) := by
  rw [filter, hmore]
  rfl

/-- A selection finds the filtered walk, or the first of it. -/
theorem yields_of_visits (h : d.Visits stack visited) : s.Yields d stack (s.filter d visited) := by
  induction h with
  | done =>
    have hnil : s.filter d [] = [] := by simp [filter]
    rw [hnil]
    exact .ended
  | @next n stack visited _ ih =>
    cases hmatches : s.matchesNode d n with
    | false =>
      have hskip : s.filter d (n :: visited) = s.filter d visited := by
        rw [filter, filter, List.filter_cons_of_neg (Bool.not_eq_true _ ▸ hmatches)]
      rw [hskip]
      exact .pass hmatches ih
    | true =>
      cases hunique : s.isUnique with
      | false =>
        rw [filter_of_not_unique hunique] at ih ⊢
        rw [List.filter_cons_of_pos hmatches]
        exact .find hmatches hunique ih
      | true =>
        have hfirst : s.filter d (n :: visited) = [n] := by
          rw [filter, hunique, List.filter_cons_of_pos hmatches]
          rfl
        rw [hfirst]
        exact .stop hmatches hunique

end Selector

namespace Document

variable {d : Document} {m n : NodeRef} {s : Selector}

/-! ## Selections of a document -/

/-- The selection below a node are its descendants that match, in order. -/
theorem selectWithin_of_descendants {below : List NodeRef} (hbelow : d.descendants n = .ok below) :
    d.selectWithin n s = .ok (s.filter d below) := by
  rw [selectWithin, hbelow]
  rfl

/-- A selection that is not unique finds what matches. -/
theorem Reachable.mem_select_iff (h : d.Reachable) (hmore : s.isUnique = false) :
    m ∈ d.select s ↔ s.matchesNode d m = true := by
  rw [select, Selector.filter_of_not_unique hmore, List.mem_filter]
  exact ⟨And.right, fun hmatches => ⟨h.mem_nodes_of_isElement (Selector.isElement_of_matches hmatches), hmatches⟩⟩

/-- What is selected are nodes below the root, in order. -/
theorem select_sublist : (d.select s).Sublist d.outline.nodes := by
  rw [select, Selector.filter]
  split
  · exact (List.take_sublist _ _).trans List.filter_sublist
  · exact List.filter_sublist

/-- A selection within a node finds what matches and is below the node. -/
theorem Reachable.mem_selectWithin_iff (h : d.Reachable) (hmore : s.isUnique = false) :
    (∃ found, d.selectWithin n s = .ok found ∧ m ∈ found) ↔ d.Below n m ∧ s.matchesNode d m = true := by
  constructor
  · rintro ⟨found, hfound, hm⟩
    obtain ⟨below, hbelow, hfilter⟩ := exists_of_bind_eq_ok hfound
    obtain ⟨below', hbelow', -, hmem⟩ := h.exists_descendants (has_of_descendants hbelow)
    obtain rfl : below = below' := Except.ok.inj (hbelow.symm.trans hbelow')
    obtain rfl : s.filter d below = found := Except.ok.inj hfilter
    rw [Selector.filter_of_not_unique hmore] at hm
    obtain ⟨hin, hmatches⟩ := List.mem_filter.mp hm
    exact ⟨(hmem m).mp hin, hmatches⟩
  · rintro ⟨hbelow, hmatches⟩
    obtain ⟨below, hdescendants, -, hmem⟩ := h.exists_descendants (h.has_of_below hbelow).1
    refine ⟨_, selectWithin_of_descendants hdescendants, ?_⟩
    rw [Selector.filter_of_not_unique hmore]
    exact List.mem_filter.mpr ⟨(hmem m).mpr hbelow, hmatches⟩

/-- Selections that are not unique come to the same, whether what is above is tested by a climb along the parents or selected first
and followed by a walk down. What is selected with something above it is what is selected within an element that passes the
test for that; what is selected as a child is what has such an element for its parent. Within a node is selected what is
selected in the document and is below the node. All this is in the order of the walk of the document, without repetition. -/
theorem combinators_walk_down (h : d.Reachable) (a b : Selector) (hb : b.isUnique = false) :
    ∃ walk, d.descendants d.root = .ok walk ∧ walk.Nodup ∧
      ((d.select (.descendant a b)).Sublist walk ∧ ∀ m, m ∈ d.select (.descendant a b) ↔
        ∃ n found, a.matchesNode d n = true ∧ d.selectWithin n b = .ok found ∧ m ∈ found) ∧
      ((d.select (.child a b)).Sublist walk ∧ ∀ m, m ∈ d.select (.child a b) ↔
        b.matchesNode d m = true ∧ ∃ p, d.parent m = .ok (some p) ∧ a.matchesNode d p = true) ∧
      ∀ n, d.Has n → ∃ below, d.descendants n = .ok below ∧ d.Visits (d.store.childrenOf n) below ∧
        (∀ m, m ∈ below ↔ d.Below n m) ∧ d.selectWithin n b = .ok ((d.select b).filter (· ∈ below)) := by
  refine ⟨_, h.descendants_root, h.nodup_nodes, ⟨select_sublist, ?_⟩, ⟨select_sublist, ?_⟩, ?_⟩
  · intro m
    rw [h.mem_select_iff (s := .descendant a b) hb, Selector.matchesNode_descendant]
    constructor
    · rintro ⟨hmatches, n, hn, habove⟩
      obtain ⟨found, hfound, hm⟩ := (h.mem_selectWithin_iff hb).mpr ⟨h.mem_ancestors_iff.mp hn, hmatches⟩
      exact ⟨n, found, habove, hfound, hm⟩
    · rintro ⟨n, found, habove, hfound, hm⟩
      obtain ⟨hbelow, hmatches⟩ := (h.mem_selectWithin_iff hb).mp ⟨found, hfound, hm⟩
      exact ⟨hmatches, n, h.mem_ancestors_iff.mpr hbelow, habove⟩
  · intro m
    simp only [h.mem_select_iff (s := .child a b) hb, Selector.matchesNode_child, h.head?_ancestors_eq_some_iff]
  · intro n hn
    obtain ⟨below, hbelow, hpart, hmem⟩ := h.exists_descendants hn
    refine ⟨below, hbelow, h.visits hn hbelow, hmem, ?_⟩
    have hstretch := filter_mem_of_infix h.nodup_nodes hpart
    rw [selectWithin_of_descendants hbelow, select, Selector.filter_of_not_unique hb, Selector.filter_of_not_unique hb]
    conv_lhs => rw [← hstretch]
    rw [List.filter_comm]

/-- A list in an item of a list, both with ids. -/
def nestedLists : Document :=
  (Document.empty ⟨1⟩).after (.applyEdits [.append [] (.element ⟨"", "ul"⟩ [⟨⟨"", "id"⟩, "outer"⟩]
    (.element ⟨"", "li"⟩ [] (.element ⟨"", "ul"⟩ [⟨⟨"", "id"⟩, "inner"⟩] (.leaf "item" .nil) .nil) .nil))])

theorem nestedLists_reachable : nestedLists.Reachable :=
  .applyEdits (.empty ⟨1⟩) _

/-- The inner list is selected within the item, so it is selected as a list below an item and as a child of one. -/
theorem inner_list_selected :
    (Selector.tag "ul").isUnique = false ∧ nestedLists.Has ⟨⟨1⟩, ⟨2, 0⟩⟩ ∧
    nestedLists.selectWithin ⟨⟨1⟩, ⟨2, 0⟩⟩ (.tag "ul") = .ok [⟨⟨1⟩, ⟨3, 0⟩⟩] ∧
    ⟨⟨1⟩, ⟨3, 0⟩⟩ ∈ nestedLists.select (.descendant (.tag "li") (.tag "ul")) ∧
    ⟨⟨1⟩, ⟨3, 0⟩⟩ ∈ nestedLists.select (.child (.tag "li") (.tag "ul")) := by
  have hn : nestedLists.Has ⟨⟨1⟩, ⟨2, 0⟩⟩ := ⟨_, by cbv⟩
  obtain ⟨walk, -, -, ⟨-, hdescendant⟩, ⟨-, hchild⟩, hwithin⟩ :=
    combinators_walk_down nestedLists_reachable (.tag "li") (.tag "ul") rfl
  obtain ⟨below, hbelow, -, -, hselected⟩ := hwithin _ hn
  have hvisited : nestedLists.descendants ⟨⟨1⟩, ⟨2, 0⟩⟩ = .ok [⟨⟨1⟩, ⟨3, 0⟩⟩, ⟨⟨1⟩, ⟨4, 0⟩⟩] := by cbv
  obtain rfl := Except.ok.inj (hvisited.symm.trans hbelow)
  have hlists : nestedLists.select (.tag "ul") = [⟨⟨1⟩, ⟨1, 0⟩⟩, ⟨⟨1⟩, ⟨3, 0⟩⟩] := by cbv
  rw [hlists] at hselected
  refine ⟨rfl, hn, hselected, ?_, ?_⟩
  · exact (hdescendant _).mpr ⟨_, _, by cbv, hselected, by decide⟩
  · exact (hchild _).mpr ⟨by cbv, ⟨⟨1⟩, ⟨2, 0⟩⟩, by cbv, by cbv⟩

/-! ## Unique selections -/

/-- No two elements have an attribute `id` with one value. -/
def IdsDiffer (d : Document) : Prop :=
  ∀ m n as bs, d.attributes m = .ok as → d.attributes n = .ok bs →
    ∀ a ∈ as, ∀ b ∈ bs, a.name = .plain "id" → b.name = .plain "id" → a.value = b.value → m = n

/-- The ids of a document with the elements that have them, in document order. -/
def ids (d : Document) : List (String × NodeRef) :=
  d.outline.nodes.flatMap fun n =>
    match d.attributes n with
    | .ok attributes => (attributes.filter (·.name = .plain "id")).map fun a => (a.value, n)
    | .error _ => []

theorem Reachable.mem_ids_iff (h : d.Reachable) {value : String} : (value, n) ∈ d.ids ↔
    ∃ attributes, d.attributes n = .ok attributes ∧ ∃ a ∈ attributes, a.name = .plain "id" ∧ a.value = value := by
  rw [ids, List.mem_flatMap]
  constructor
  · rintro ⟨m, -, hlisted⟩
    split at hlisted
    · rename_i attributes hattributes
      obtain ⟨a, ha, hvalue⟩ := List.mem_map.mp hlisted
      obtain ⟨rfl, rfl⟩ := Prod.mk.inj hvalue
      obtain ⟨hmem, hname⟩ := List.mem_filter.mp ha
      exact ⟨attributes, hattributes, a, hmem, of_decide_eq_true hname, rfl⟩
    · cases hlisted
  · rintro ⟨attributes, hattributes, a, ha, hname, rfl⟩
    refine ⟨n, h.mem_nodes_of_isElement (isElement_of_attribute hattributes ha), ?_⟩
    rw [hattributes]
    exact List.mem_map_of_mem (List.mem_filter.mpr ⟨ha, decide_eq_true hname⟩)

/-- Whether ids differ can be read off the list of them. -/
theorem Reachable.idsDiffer_iff (h : d.Reachable) : d.IdsDiffer ↔ ∀ x ∈ d.ids, ∀ y ∈ d.ids, x.1 = y.1 → x.2 = y.2 := by
  constructor
  · rintro hids ⟨value, m⟩ hx ⟨value', n⟩ hy hvalue
    obtain ⟨as, has, a, ha, hname, rfl⟩ := h.mem_ids_iff.mp hx
    obtain ⟨bs, hbs, b, hb, hname', rfl⟩ := h.mem_ids_iff.mp hy
    exact hids m n as bs has hbs a ha b hb hname hname' hvalue
  · intro hids m n as bs has hbs a ha b hb hname hname' hvalue
    have hm : (a.value, m) ∈ d.ids := h.mem_ids_iff.mpr ⟨as, has, a, ha, hname, rfl⟩
    have hn : (b.value, n) ∈ d.ids := h.mem_ids_iff.mpr ⟨bs, hbs, b, hb, hname', rfl⟩
    exact hids _ hm _ hn hvalue

end Document

/-- What has an id has an attribute with this name and the id as its value. -/
theorem Selector.matchesNode_id_iff {d : Document} {n : NodeRef} {value : String} : (id value).matchesNode d n = true ↔
    ∃ attributes, d.attributes n = .ok attributes ∧ ∃ a ∈ attributes, a.name = .plain "id" ∧ a.value = value := by
  have hasked : QName.asked "id" = .plain "id" := by decide
  simp [matchesNode_id, attributePasses_iff, Attribute.isNamed_iff, hasked, ValueTest.passes]

/-- If ids differ, a selector that is taken for unique is matched by one element at most. -/
theorem Selector.eq_of_unique {d : Document} {s : Selector} (hids : d.IdsDiffer) (hunique : s.isUnique = true) {m n : NodeRef}
    (hm : s.matchesNode d m = true) (hn : s.matchesNode d n = true) : m = n := by
  induction s with
  | all => cases hunique
  | tag written => cases hunique
  | or left right => cases hunique
  | hasAttribute written test => cases hunique
  | id value =>
    obtain ⟨as, has, a, ha, hname, hvalue⟩ := matchesNode_id_iff.mp hm
    obtain ⟨bs, hbs, b, hb, hname', hvalue'⟩ := matchesNode_id_iff.mp hn
    exact hids m n as bs has hbs a ha b hb hname hname' (hvalue.trans hvalue'.symm)
  | and left right ihl ihr =>
    obtain ⟨hml, hmr⟩ := matchesNode_and.mp hm
    obtain ⟨hnl, hnr⟩ := matchesNode_and.mp hn
    rcases Bool.or_eq_true_iff.mp hunique with hleft | hright
    · exact ihl hleft hml hnl
    · exact ihr hright hmr hnr
  | descendant above inner _ ih =>
    exact ih hunique (matchesNode_descendant.mp hm).1 (matchesNode_descendant.mp hn).1
  | child parent inner _ ih =>
    exact ih hunique (matchesNode_child.mp hm).1 (matchesNode_child.mp hn).1

namespace Document

variable {d : Document} {s : Selector}

/-- A filter that ends at the first element loses nothing if there is only one. -/
theorem filter_eq_of_unique {nodes : List NodeRef} (hids : d.IdsDiffer) (hunique : s.isUnique = true) (hnodup : nodes.Nodup) :
    s.filter d nodes = nodes.filter (s.matchesNode d) := by
  have hone : (nodes.filter (s.matchesNode d)).length ≤ 1 := by
    refine length_le_one_of_nodup (hnodup.filter _) fun x hx y hy => ?_
    exact s.eq_of_unique hids hunique (List.mem_filter.mp hx).2 (List.mem_filter.mp hy).2
  rw [Selector.filter, if_pos hunique, List.take_of_length_le hone]

/-- If ids differ, a selection that ends at the first element it finds, as it goes through the walk of a document or of what is
below a node, finds all elements that match: there is one at most. -/
theorem unique_selections_complete (h : d.Reachable) (hids : d.IdsDiffer) (s : Selector) (hs : s.isUnique = true) :
    (∀ m n, s.matchesNode d m = true → s.matchesNode d n = true → m = n) ∧
    (∃ walk, d.descendants d.root = .ok walk ∧ d.select s = walk.filter (s.matchesNode d) ∧
      ∀ m, m ∈ d.select s ↔ s.matchesNode d m = true) ∧
    ∀ n, d.Has n → ∃ below, d.descendants n = .ok below ∧
      d.selectWithin n s = .ok (below.filter (s.matchesNode d)) ∧
      (∀ found, s.Yields d (d.store.childrenOf n) found ↔ found = below.filter (s.matchesNode d)) ∧
      ∀ m, m ∈ below.filter (s.matchesNode d) ↔ d.Below n m ∧ s.matchesNode d m = true := by
  have hselect : d.select s = d.outline.nodes.filter (s.matchesNode d) := filter_eq_of_unique hids hs h.nodup_nodes
  refine ⟨fun m n => s.eq_of_unique hids hs, ⟨_, h.descendants_root, hselect, ?_⟩, ?_⟩
  · intro m
    rw [hselect, List.mem_filter]
    exact ⟨And.right, fun hmatches => ⟨h.mem_nodes_of_isElement (Selector.isElement_of_matches hmatches), hmatches⟩⟩
  · intro n hn
    obtain ⟨below, hbelow, hpart, hmem⟩ := h.exists_descendants hn
    have hfilter := filter_eq_of_unique hids hs (hpart.sublist.nodup h.nodup_nodes)
    have hyields : s.Yields d (d.store.childrenOf n) (s.filter d below) := Selector.yields_of_visits (h.visits hn hbelow)
    rw [hfilter] at hyields
    refine ⟨below, hbelow, hfilter ▸ selectWithin_of_descendants hbelow, fun found => ?_, fun m => ?_⟩
    · exact ⟨fun hfound => hfound.unique hyields, fun heq => heq ▸ hyields⟩
    · rw [List.mem_filter, hmem]

/-- The inner list is the only list with its id, and the selection finds it. -/
theorem inner_list_found :
    nestedLists.IdsDiffer ∧ (Selector.and (.tag "ul") (.id "inner")).isUnique = true ∧
    ∀ m, m ∈ nestedLists.select (.and (.tag "ul") (.id "inner")) ↔ m = ⟨⟨1⟩, ⟨3, 0⟩⟩ := by
  have hlisted : nestedLists.ids = [("outer", ⟨⟨1⟩, ⟨1, 0⟩⟩), ("inner", ⟨⟨1⟩, ⟨3, 0⟩⟩)] := by cbv
  have hids : nestedLists.IdsDiffer := by
    rw [nestedLists_reachable.idsDiffer_iff, hlisted]
    decide
  have hone : (Selector.and (.tag "ul") (.id "inner")).matchesNode nestedLists ⟨⟨1⟩, ⟨3, 0⟩⟩ = true := by cbv
  obtain ⟨hunique, ⟨-, -, -, hselected⟩, -⟩ :=
    unique_selections_complete nestedLists_reachable hids (.and (.tag "ul") (.id "inner")) rfl
  refine ⟨hids, rfl, fun m => (hselected m).trans ⟨fun hm => hunique m _ hm hone, ?_⟩⟩
  rintro rfl
  exact hone

end Document

end LiveMarkup
