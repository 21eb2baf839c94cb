import LiveMarkup.Proofs.Ancestry
import LiveMarkup.Selector

/-!
# What selectors match

Only elements match (`Selector.isElement_of_matches`). For each kind of selector it is said what it matches, without the look at
the node that comes first: the parts of a selector match elements only, and only elements have attributes.
-/

namespace LiveMarkup

namespace Document

/-- The handle names an element. -/
def IsElement (d : Document) (n : NodeRef) : Prop :=
  ∃ name refs above children, d.store.node? n = some ⟨.element name refs, above, children⟩

variable {d : Document} {n : NodeRef}

/-- The elements are below the root. -/
theorem Reachable.mem_nodes_of_isElement (h : d.Reachable) (hn : d.IsElement n) : n ∈ d.outline.nodes := by
  obtain ⟨name, refs, above, children, hnode⟩ := hn
  have hwalk : n ∈ Store.rootOf d.id :: d.outline.nodes := h.shows.mem_nodes_iff.mpr (by rw [hnode, Option.isSome_some])
  refine (List.mem_cons.mp hwalk).resolve_left ?_
  rintro rfl
  rw [h.shows.root_eq] at hnode
  cases hnode

/-- Only elements have attributes. -/
theorem isElement_of_attribute {attributes : List Attribute} {v : Attribute} (h : d.attributes n = .ok attributes)
    (hv : v ∈ attributes) : d.IsElement n := by
  rw [Document.attributes, attributeRefs, get, node] at h
  cases hnode : d.store.node? n with
  | none =>
    rw [hnode] at h
    cases h
  | some node =>
    rw [hnode] at h
    obtain ⟨payload, above, children⟩ := node
    cases payload with
    | element name refs => exact ⟨name, refs, above, children, hnode⟩
    | root =>
      cases h
      cases hv
    | leaf text =>
      cases h
      cases hv

end Document

namespace Selector

variable {d : Document} {n : NodeRef} {s a b : Selector} {name : QName} {refs : List AttributeRef} {above : Option NodeRef}
  {children : List NodeRef} {written value : String} {test : ValueTest}

/-- What matches is an element. -/
theorem isElement_of_matches (h : s.matchesNode d n = true) : d.IsElement n := by
  unfold matchesNode at h
  split at h
  · exact ⟨_, _, _, _, ‹_›⟩
  · cases h

/-- An element matches what its name, its attributes and the elements above it say. -/
theorem matchesNode_of_element (hnode : d.store.node? n = some ⟨.element name refs, above, children⟩) :
    s.matchesNode d n = match s with
      | all => true
      | tag written => name.qualified == written
      | id value => attributePasses d n "id" (.equals value)
      | and left right => left.matchesNode d n && right.matchesNode d n
      | or left right => left.matchesNode d n || right.matchesNode d n
      | descendant above inner => inner.matchesNode d n && (d.store.ancestors n).any fun m => above.matchesNode d m
      | child parent inner => inner.matchesNode d n && (d.store.ancestors n).head?.any fun m => parent.matchesNode d m
      | hasAttribute written test => attributePasses d n written test := by
  cases s <;> rw [matchesNode, hnode]

/-- What holds of elements only, and agrees with a selector on them, agrees with it everywhere. -/
theorem matchesNode_eq {holds : Bool} (helement : holds = true → d.IsElement n)
    (h : ∀ name refs above children, d.store.node? n = some ⟨.element name refs, above, children⟩ →
      s.matchesNode d n = holds) : s.matchesNode d n = holds := by
  rw [Bool.eq_iff_iff]
  constructor
  · intro hs
    obtain ⟨_, _, _, _, hnode⟩ := isElement_of_matches hs
    rwa [h _ _ _ _ hnode] at hs
  · intro hholds
    obtain ⟨_, _, _, _, hnode⟩ := helement hholds
    rwa [h _ _ _ _ hnode]

theorem isElement_of_and {further : Bool} (h : (s.matchesNode d n && further) = true) : d.IsElement n :=
  isElement_of_matches ((Bool.and_eq_true _ _).mp h).1

theorem matchesNode_and : (a.and b).matchesNode d n = true ↔ a.matchesNode d n = true ∧ b.matchesNode d n = true := by
  rw [matchesNode_eq isElement_of_and fun _ _ _ _ hnode => matchesNode_of_element hnode, Bool.and_eq_true]

/-- An element is matched below what another selector matches if one of its ancestors is matched by that. -/
theorem matchesNode_descendant : (descendant a b).matchesNode d n = true ↔
    b.matchesNode d n = true ∧ ∃ m ∈ d.store.ancestors n, a.matchesNode d m = true := by
  rw [matchesNode_eq isElement_of_and fun _ _ _ _ hnode => matchesNode_of_element hnode, Bool.and_eq_true, List.any_eq_true]

/-- An element is matched as a child of what another selector matches if its nearest ancestor is matched by that. -/
theorem matchesNode_child : (child a b).matchesNode d n = true ↔
    b.matchesNode d n = true ∧ ∃ m, (d.store.ancestors n).head? = some m ∧ a.matchesNode d m = true := by
  rw [matchesNode_eq isElement_of_and fun _ _ _ _ hnode => matchesNode_of_element hnode, Bool.and_eq_true,
    Option.any_eq_true]

/-- A node has an attribute that passes if one of those that the written name asks for has a value that passes. -/
theorem attributePasses_iff : attributePasses d n written test = true ↔
    ∃ attributes, d.attributes n = .ok attributes ∧
      ∃ v ∈ attributes, v.isNamed written = true ∧ test.passes v.value = true := by
  rw [attributePasses]
  cases d.attributes n with
  | error e => simp
  | ok attributes => simp

theorem isElement_of_attributePasses (h : attributePasses d n written test = true) : d.IsElement n := by
  obtain ⟨attributes, hattributes, v, hv, -⟩ := attributePasses_iff.mp h
  exact Document.isElement_of_attribute hattributes hv

theorem matchesNode_hasAttribute : (hasAttribute written test).matchesNode d n = attributePasses d n written test :=
  matchesNode_eq isElement_of_attributePasses fun _ _ _ _ hnode => matchesNode_of_element hnode

/-- An id is the value of an attribute. -/
theorem matchesNode_id : (id value).matchesNode d n = attributePasses d n "id" (.equals value) :=
  matchesNode_eq isElement_of_attributePasses fun _ _ _ _ hnode => matchesNode_of_element hnode

end Selector

end LiveMarkup
