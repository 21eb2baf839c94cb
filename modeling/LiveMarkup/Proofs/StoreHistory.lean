import LiveMarkup.Edit.Apply
import LiveMarkup.Proofs.SlotHistory

/-!
# What changes do to the slots of a store

Adding nodes only stores values (`Store.Fills`), and removing nodes only takes values out (`Store.Clears`), in the slots of
the nodes and in those of the attributes. Every edit takes values out first and stores others then
(`Store.turns_applyEdit`).
-/

namespace LiveMarkup

/-- What a step gives that comes after another one, which has given something. -/
theorem exists_of_bind_eq_ok {ε α β : Type} {x : Except ε α} {f : α → Except ε β} {b : β} (h : x >>= f = .ok b) :
    ∃ a, x = .ok a ∧ f a = .ok b := by
  cases x with
  | error e => cases h
  | ok a => exact ⟨a, rfl, h⟩

namespace Store

variable {s s' s'' : Store}

/-- Nodes and attributes are only changed and removed. -/
structure Clears (s s' : Store) : Prop where
  document : s'.document = s.document
  nodes : s.nodes.Clears s'.nodes
  attributes : s.attributes.Clears s'.attributes

/-- Nodes and attributes are only changed and added. -/
structure Fills (s s' : Store) : Prop where
  document : s'.document = s.document
  nodes : s.nodes.Fills s'.nodes
  attributes : s.attributes.Fills s'.attributes

/-- Nodes and attributes are removed first, and then others are added. -/
structure Turns (s s' : Store) : Prop where
  document : s'.document = s.document
  nodes : s.nodes.Turns s'.nodes
  attributes : s.attributes.Turns s'.attributes

theorem Clears.refl (s : Store) : Clears s s :=
  ⟨rfl, .refl _, .refl _⟩

theorem Clears.trans (h : Clears s s') (h' : Clears s' s'') : Clears s s'' :=
  ⟨h'.document.trans h.document, h.nodes.trans h'.nodes, h.attributes.trans h'.attributes⟩

theorem Fills.refl (s : Store) : Fills s s :=
  ⟨rfl, .refl _, .refl _⟩

theorem Fills.trans (h : Fills s s') (h' : Fills s' s'') : Fills s s'' :=
  ⟨h'.document.trans h.document, h.nodes.trans h'.nodes, h.attributes.trans h'.attributes⟩

/-- First something is taken out, and then something is added. -/
theorem Turns.of_clears_fills (h : Clears s s') (h' : Fills s' s'') : Turns s s'' :=
  ⟨h'.document.trans h.document, ⟨_, h.nodes, h'.nodes⟩, ⟨_, h.attributes, h'.attributes⟩⟩

theorem Clears.turns (h : Clears s s') : Turns s s' :=
  .of_clears_fills h (.refl s')

theorem Fills.turns (h : Fills s s') : Turns s s' :=
  .of_clears_fills (.refl s) h

/-! ## Adding nodes -/

/-- Changing a node in place takes nothing out. -/
theorem clears_modifyNode (s : Store) (n : NodeRef) (f : Node → Node) : Clears s (s.modifyNode n f) := by
  unfold modifyNode
  split
  · exact ⟨rfl, .modify _ _ _, .refl _⟩
  · exact .refl s

/-- Changing a node in place adds nothing. -/
theorem fills_modifyNode (s : Store) (n : NodeRef) (f : Node → Node) : Fills s (s.modifyNode n f) := by
  unfold modifyNode
  split
  · exact ⟨rfl, .modify _ _ _, .refl _⟩
  · exact .refl s

/-- Adding attributes only adds something. -/
theorem fills_addAttributes (s : Store) (attributes : List Attribute) : Fills s (s.addAttributes attributes).1 := by
  induction attributes generalizing s with
  | nil => exact .refl s
  | cons a rest ih =>
    have hfirst : Fills s { s with attributes := (s.attributes.insert a).1 } := ⟨rfl, .refl _, .insert _ a⟩
    exact hfirst.trans (ih _)

/-- Adding a node below another one only adds something. -/
theorem fills_link (s : Store) (parent : NodeRef) (payload : Payload) : Fills s (s.link parent payload).1 := by
  have hfirst : Fills s { s with nodes := (s.nodes.insert ⟨payload, some parent, []⟩).1 } :=
    ⟨rfl, .insert _ _, .refl _⟩
  exact hfirst.trans (fills_modifyNode _ _ _)

theorem fills_addLeaf (s : Store) (parent : NodeRef) (text : String) : Fills s (s.addLeaf parent text).1 :=
  fills_link s parent _

/-- Adding an element only adds something. -/
theorem fills_addElement (s : Store) (parent : NodeRef) (name : QName) (attributes : List Attribute) :
    Fills s (s.addElement parent name attributes).1 :=
  (fills_addAttributes s attributes).trans (fills_link _ parent _)

/-- Adding a forest only adds something. -/
theorem fills_graft (s : Store) (parent : NodeRef) (f : Forest) : Fills s (s.graft parent f) := by
  induction f generalizing s parent with
  | nil => exact .refl s
  | leaf text next ih => exact (fills_addLeaf s parent text).trans (ih _ _)
  | element name attributes children next ihc ihn =>
    exact (fills_addElement s parent name attributes).trans ((ihc _ _).trans (ihn _ _))

/-- Adding what a record says only adds something. -/
theorem fills_addRecord {parent n : NodeRef} {r : Record} (h : s.addRecord parent r = .ok (s', n)) : Fills s s' := by
  obtain ⟨node, _, h⟩ := exists_of_bind_eq_ok h
  split at h
  · split at h
    · cases h
      exact fills_addLeaf s parent _
    · cases h
      exact fills_addElement s parent _ _
  · cases h

/-- Building from a listing only adds something. -/
theorem fills_build {top : NodeRef} {lacking : List (NodeRef × Nat)} {records : List Record}
    (h : s.build top lacking records = .ok s') : Fills s s' := by
  fun_induction build s top lacking records with
  | case1 s records =>
    cases h
    exact .refl _
  | case2 s n outer records ih => exact ih h
  | case3 => cases h
  | case4 s n count outer r rest ih ih' =>
    obtain ⟨⟨t, child⟩, hfirst, h⟩ := exists_of_bind_eq_ok h
    refine (fills_addRecord hfirst).trans ?_
    simp only at h
    split at h
    · exact ih t h
    · exact ih' t child h

/-- Appending a tree only adds something. -/
theorem fills_appendTree {parent n : NodeRef} {t : Tree} (h : s.appendTree parent t = .ok (s', n)) : Fills s s' := by
  unfold appendTree at h
  split at h
  · cases h
  · obtain ⟨⟨s₁, top⟩, hfirst, h⟩ := exists_of_bind_eq_ok h
    obtain ⟨s₂, hrest, h⟩ := exists_of_bind_eq_ok h
    cases h
    exact (fills_addRecord hfirst).trans (fills_build hrest)

/-! ## Removing nodes -/

/-- Taking out a node only takes something out. -/
theorem clears_freeNode {n : NodeRef} {node : Node} (h : s.freeNode n = .ok (s', node)) : Clears s s' := by
  unfold freeNode at h
  split at h
  · cases h
  · split at h
    · split at h
      · rename_i nodes _ hremove
        cases h
        exact ⟨rfl, .remove hremove, .refl _⟩
      · cases h
    · cases h

/-- Taking out an attribute only takes something out. -/
theorem clears_freeAttribute {a : AttributeRef} (h : s.freeAttribute a = .ok s') : Clears s s' := by
  unfold freeAttribute at h
  split at h
  · split at h
    · rename_i hremove
      cases h
      exact ⟨rfl, .refl _, .remove hremove⟩
    · cases h
  · cases h

/-- Taking out attributes only takes something out. -/
theorem clears_freeAttributes {refs : List AttributeRef} (h : s.freeAttributes refs = .ok s') : Clears s s' := by
  induction refs generalizing s with
  | nil =>
    cases h
    exact .refl _
  | cons a rest ih =>
    obtain ⟨s₁, hfirst, h⟩ := exists_of_bind_eq_ok h
    exact (clears_freeAttribute hfirst).trans (ih h)

/-- Taking out all that is below nodes only takes something out. -/
theorem clears_freeSubtrees {nodes : List NodeRef} (h : s.freeSubtrees nodes = .ok s') : Clears s s' := by
  fun_induction freeSubtrees s nodes with
  | case1 s =>
    cases h
    exact .refl _
  | case4 s n rest s₁ node hfreed s₂ hcleared ih =>
    exact (clears_freeNode hfreed).trans ((clears_freeAttributes hcleared).trans (ih h))
  | _ => cases h

/-- Taking out trees only takes something out. -/
theorem clears_freeEach {nodes : List NodeRef} (h : s.freeEach nodes = .ok s') : Clears s s' := by
  induction nodes generalizing s with
  | nil =>
    cases h
    exact .refl _
  | cons n rest ih =>
    obtain ⟨s₁, hfirst, h⟩ := exists_of_bind_eq_ok h
    exact (clears_freeSubtrees hfirst).trans (ih h)

/-- Setting the children of a node takes nothing out. -/
theorem clears_setChildren {n : NodeRef} {children : List NodeRef} (h : s.setChildren n children = .ok s') :
    Clears s s' := by
  obtain ⟨node, _, h⟩ := exists_of_bind_eq_ok h
  split at h
  · obtain ⟨_, _, h⟩ := exists_of_bind_eq_ok h
    cases h
    exact clears_modifyNode s n _
  · cases h

/-- Removing a tree only takes something out. -/
theorem clears_remove {n parent : NodeRef} (h : s.remove n = .ok (s', parent)) : Clears s s' := by
  unfold remove at h
  split at h
  · cases h
  · obtain ⟨node, _, h⟩ := exists_of_bind_eq_ok h
    split at h
    · cases h
    · obtain ⟨above, _, h⟩ := exists_of_bind_eq_ok h
      simp only at h
      split at h
      · cases h
      · obtain ⟨s₁, hchildren, h⟩ := exists_of_bind_eq_ok h
        obtain ⟨s₂, hfreed, h⟩ := exists_of_bind_eq_ok h
        cases h
        exact (clears_setChildren hchildren).trans (clears_freeSubtrees hfreed)

/-! ## Changing nodes in place -/

/-- Storing the payload of a record only adds something. -/
theorem fills_storePayload (s : Store) (r : Record) : Fills s (s.storePayload r).1 := by
  cases r with
  | leaf text => exact .refl s
  | element name attributes children => exact fills_addAttributes s attributes

/-- Filling an empty node only adds something. -/
theorem fills_fill {n : NodeRef} {t : Tree} (h : s.fill n t = .ok s') : Fills s s' := by
  unfold fill at h
  split at h
  · cases h
  · rename_i r rest _
    obtain ⟨_, _, h⟩ := exists_of_bind_eq_ok h
    exact (fills_storePayload s r).trans ((fills_modifyNode _ n _).trans (fills_build h))

/-- Replacing a tree takes out all of it but its node, and then adds the new one. -/
theorem turns_replace {n parent : NodeRef} {t : Tree} (h : s.replace n t = .ok (s', parent)) : Turns s s' := by
  unfold replace at h
  split at h
  · cases h
  · obtain ⟨node, _, h⟩ := exists_of_bind_eq_ok h
    split at h
    · cases h
    · obtain ⟨s₁, hattributes, h⟩ := exists_of_bind_eq_ok h
      obtain ⟨s₂, hchildren, h⟩ := exists_of_bind_eq_ok h
      obtain ⟨s₃, hfilled, h⟩ := exists_of_bind_eq_ok h
      cases h
      have hcleared := (clears_modifyNode s n _).trans ((clears_freeAttributes hattributes).trans (clears_freeEach hchildren))
      exact .of_clears_fills hcleared (fills_fill hfilled)

/-- New content for an attribute is neither an addition nor a removal. -/
theorem clears_and_fills_updateAttribute {a : AttributeRef} {new : Attribute} (h : s.updateAttribute a new = .ok s') :
    Clears s s' ∧ Fills s s' := by
  unfold updateAttribute at h
  split at h
  · cases h
    exact ⟨⟨rfl, .refl _, .modify _ _ _⟩, ⟨rfl, .refl _, .modify _ _ _⟩⟩
  · cases h

/-- Attributes are changed position by position, and then either some are added or some are removed. -/
theorem clears_or_fills_rewriteAttributes {current refs : List AttributeRef} {attributes : List Attribute}
    (h : s.rewriteAttributes current attributes = .ok (s', refs)) : Clears s s' ∨ Fills s s' := by
  fun_induction rewriteAttributes s current attributes generalizing s' refs with
  | case1 s a current new rest ih =>
    obtain ⟨s₁, hfirst, h⟩ := exists_of_bind_eq_ok h
    obtain ⟨⟨s₂, more⟩, hrest, h⟩ := exists_of_bind_eq_ok h
    cases h
    obtain ⟨hclears, hfills⟩ := clears_and_fills_updateAttribute hfirst
    exact (ih _ hrest).imp hclears.trans hfills.trans
  | case2 s rest =>
    have hadded := fills_addAttributes s rest
    rw [show s.addAttributes rest = (s', refs) from Except.ok.inj h] at hadded
    exact Or.inr hadded
  | case3 s current =>
    obtain ⟨s₁, hfreed, h⟩ := exists_of_bind_eq_ok h
    cases h
    exact Or.inl (clears_freeAttributes hfreed)

/-- Setting attributes takes out those that are left over, or adds those that are missing. -/
theorem turns_setAttributes {n : NodeRef} {attributes : List Attribute} (h : s.setAttributes n attributes = .ok s') :
    Turns s s' := by
  obtain ⟨node, _, h⟩ := exists_of_bind_eq_ok h
  split at h
  · obtain ⟨⟨s₁, refs⟩, hrewritten, h⟩ := exists_of_bind_eq_ok h
    obtain ⟨_, _, h⟩ := exists_of_bind_eq_ok h
    cases h
    rcases clears_or_fills_rewriteAttributes hrewritten with hclears | hfills
    · exact .of_clears_fills hclears (fills_modifyNode _ _ _)
    · exact (hfills.trans (fills_modifyNode _ _ _)).turns
  · cases h

/-- Setting the content of a text neither takes out nor adds anything. -/
theorem turns_setText {n : NodeRef} {text : String} (h : s.setText n text = .ok s') : Turns s s' := by
  obtain ⟨node, _, h⟩ := exists_of_bind_eq_ok h
  split at h
  · cases h
    exact (fills_modifyNode s n _).turns
  · cases h

/-! ## Edits -/

/-- What is given where faults of the store are named in another way was given without a fault. -/
theorem ofStore_eq_ok {α : Type} {x : Except StoreError α} {a : α} (h : EditFault.ofStore x = .ok a) : x = .ok a := by
  cases x with
  | error e => cases h
  | ok b =>
    cases h
    rfl

/-- An edit at a node takes something out, and then adds something. -/
theorem turns_applyAt {n : NodeRef} {e : Edit} {c : Change} (h : s.applyAt n e = .ok (s', c)) : Turns s s' := by
  cases e with
  | setAttributes path attributes =>
    obtain ⟨node, _, h⟩ := exists_of_bind_eq_ok h
    split at h
    · obtain ⟨s₁, hset, h⟩ := exists_of_bind_eq_ok h
      cases h
      exact turns_setAttributes (ofStore_eq_ok hset)
    · cases h
  | setText path text =>
    obtain ⟨node, _, h⟩ := exists_of_bind_eq_ok h
    split at h
    · obtain ⟨s₁, hset, h⟩ := exists_of_bind_eq_ok h
      cases h
      exact turns_setText (ofStore_eq_ok hset)
    · cases h
  | append path tree =>
    obtain ⟨node, _, h⟩ := exists_of_bind_eq_ok h
    split at h
    · obtain ⟨⟨s₁, child⟩, happend, h⟩ := exists_of_bind_eq_ok h
      cases h
      exact (fills_appendTree (ofStore_eq_ok happend)).turns
    · cases h
  | remove path =>
    obtain ⟨⟨s₁, parent⟩, hremove, h⟩ := exists_of_bind_eq_ok h
    cases h
    exact (clears_remove (ofStore_eq_ok hremove)).turns
  | replace path tree =>
    obtain ⟨⟨s₁, parent⟩, hreplace, h⟩ := exists_of_bind_eq_ok h
    cases h
    exact turns_replace (ofStore_eq_ok hreplace)

/-- An edit takes values out of the slots first, and stores others then. -/
theorem turns_applyEdit {e : Edit} {c : Change} (h : s.applyEdit e = .ok (s', c)) : Turns s s' := by
  obtain ⟨n, _, h⟩ := exists_of_bind_eq_ok h
  exact turns_applyAt h

end Store

end LiveMarkup
