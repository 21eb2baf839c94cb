import Mathlib.Data.List.Basic
import LiveMarkup.Edit.Apply

/-!
# Stores under other identities

Every handle names the document that issued it. When the documents are renamed in all handles of a store, and no two of them
get one name, then every change of the store goes on as before, with the same slots and generations, and is reported by the
same changes under the new names (`Store.mirrors_applyAll`).
-/

namespace LiveMarkup

/-- The second computation succeeds, with the image of the result, where the first one succeeds. -/
def Mirrors {ε α β : Type} (f : α → β) (x : Except ε α) (y : Except ε β) : Prop :=
  ∀ a, x = .ok a → y = .ok (f a)

namespace Mirrors

variable {ε α α' β β' : Type} {f : α → β} {g : α' → β'}

theorem ok {a : α} {b : β} (h : b = f a) : Mirrors f (.ok a : Except ε α) (.ok b) := by
  rintro a' he
  cases he
  rw [h]

theorem error {e : ε} {y : Except ε β} : Mirrors f (.error e) y := fun _ he => by cases he

/-- Steps that mirror each other do so one after the other. -/
theorem bind {x : Except ε α} {y : Except ε β} {k : α → Except ε α'} {k' : β → Except ε β'} (h : Mirrors f x y)
    (hk : ∀ a, Mirrors g (k a) (k' (f a))) : Mirrors g (x >>= k) (y >>= k') := by
  intro a' hx
  cases x with
  | error e => cases hx
  | ok a =>
    rw [h a rfl]
    exact hk a a' hx

theorem ite {c c' : Prop} [Decidable c] [Decidable c'] {x z : Except ε α} {y w : Except ε β} (hc : c' ↔ c)
    (hx : c → Mirrors f x y) (hz : ¬ c → Mirrors f z w) : Mirrors f (if c then x else z) (if c' then y else w) := by
  by_cases h : c
  · rw [if_pos h, if_pos (hc.mpr h)]
    exact hx h
  · rw [if_neg h, if_neg fun h' => h (hc.mp h')]
    exact hz h

end Mirrors

/-! ## Slots -/

namespace Slots

variable {α β : Type}

/-- The slots with every value changed. -/
def map (f : α → β) (s : Slots α) : Slots β :=
  ⟨s.slots.map fun slot => ⟨slot.generation, slot.value.map f⟩, s.vacant, s.count⟩

/-- A key gives what it gave, under the new names. -/
theorem get?_map (f : α → β) (s : Slots α) (k : SlotKey) : (s.map f).get? k = (s.get? k).map f := by
  rw [get?, get?, map, Array.getElem?_map]
  cases s.slots[k.index]? with
  | none => rfl
  | some slot =>
    change (if slot.generation = k.generation then _ else _) = Option.map f (if slot.generation = k.generation then _ else _)
    split <;> rfl

/-- A changed value gets the slot that the value would get. -/
theorem insert_map (f : α → β) (s : Slots α) (a : α) :
    (s.map f).insert (f a) = ((s.insert a).1.map f, (s.insert a).2) := by
  obtain ⟨slots, vacant, count⟩ := s
  cases vacant with
  | nil => simp [insert, map]
  | cons i vacant =>
    have hgeneration : (((slots.map fun slot => (⟨slot.generation, slot.value.map f⟩ : Slot β))[i]?).map Slot.generation) =
        slots[i]?.map Slot.generation := by
      rw [Array.getElem?_map, Option.map_map]
      rfl
    simp only [insert, map, hgeneration, Array.map_setIfInBounds, Option.map_some]

/-- Changing a value goes on as before if its names do not matter to the change. -/
theorem modify_map {f : α → β} {m : α → α} {m' : β → β} (h : ∀ a, f (m a) = m' (f a)) (s : Slots α) (k : SlotKey) :
    (s.map f).modify k m' = (s.modify k m).map f := by
  rw [modify, modify, get?_map]
  cases s.get? k with
  | none => rfl
  | some a => simp only [Option.map_some, map, Array.map_setIfInBounds, h]

/-- Taking a value out goes on as before. -/
theorem remove?_map (f : α → β) (s : Slots α) (k : SlotKey) :
    (s.map f).remove? k = (s.remove? k).map fun (s', a) => (s'.map f, f a) := by
  rw [remove?, remove?, get?_map]
  cases s.get? k with
  | none => rfl
  | some a => simp only [Option.map_some, map, Array.map_setIfInBounds, Option.map_none]

end Slots

/-! ## Handles and nodes -/

/-- The handle with its document renamed. -/
def NodeRef.renamed (f : DocumentId → DocumentId) (n : NodeRef) : NodeRef :=
  ⟨f n.document, n.key⟩

/-- The handle with its document renamed. -/
def AttributeRef.renamed (f : DocumentId → DocumentId) (a : AttributeRef) : AttributeRef :=
  ⟨f a.document, a.key⟩

/-- The payload with the documents in its handles renamed. -/
def Payload.renamed (f : DocumentId → DocumentId) : Payload → Payload
  | root => root
  | element name attributes => element name (attributes.map (AttributeRef.renamed f))
  | leaf text => leaf text

/-- The node with the documents in its handles renamed. -/
def Node.renamed (f : DocumentId → DocumentId) (node : Node) : Node :=
  ⟨node.payload.renamed f, node.parent.map (NodeRef.renamed f), node.children.map (NodeRef.renamed f)⟩

/-- The store with the documents in all handles renamed, its own among them. Slots and generations stay as they are. -/
def Store.renamed (f : DocumentId → DocumentId) (s : Store) : Store :=
  ⟨f s.document, s.nodes.map (Node.renamed f), s.attributes⟩

/-- The change with the documents in its handles renamed. -/
def Change.renamed (f : DocumentId → DocumentId) : Change → Change
  | updated node => updated (node.renamed f)
  | added node parent => added (node.renamed f) (parent.renamed f)
  | removed node parent => removed (node.renamed f) (parent.renamed f)
  | replaced node parent => replaced (node.renamed f) (parent.renamed f)

@[simp] theorem Payload.isContainer_renamed (f : DocumentId → DocumentId) (p : Payload) :
    (p.renamed f).isContainer = p.isContainer := by
  cases p <;> rfl

@[simp] theorem Payload.attributes_renamed (f : DocumentId → DocumentId) (p : Payload) :
    (p.renamed f).attributes = p.attributes.map (AttributeRef.renamed f) := by
  cases p <;> rfl

/-- Whether a node can have children is no matter of names. -/
theorem Node.isContainer_renamed (f : DocumentId → DocumentId) (node : Node) :
    (node.renamed f).payload.isContainer = true ↔ node.payload.isContainer = true :=
  iff_of_eq (congrArg (· = true) (Payload.isContainer_renamed f node.payload))

namespace Store

variable {f : DocumentId → DocumentId}

@[simp] theorem document_renamed (s : Store) : (s.renamed f).document = f s.document := rfl

@[simp] theorem nodes_renamed (s : Store) : (s.renamed f).nodes = s.nodes.map (Node.renamed f) := rfl

@[simp] theorem attributes_renamed (s : Store) : (s.renamed f).attributes = s.attributes := rfl

/-- The root has the new name of the document. -/
theorem root_renamed (s : Store) : (s.renamed f).root = s.root.renamed f := rfl

variable (hf : Function.Injective f)

include hf

/-- Handles that are different stay so, as no two documents get one name. -/
theorem renamed_eq_iff {n m : NodeRef} : n.renamed f = m.renamed f ↔ n = m := by
  constructor
  · intro h
    obtain ⟨hdocument, hkey⟩ := NodeRef.mk.inj h
    cases n
    cases m
    rw [NodeRef.mk.injEq]
    exact ⟨hf hdocument, hkey⟩
  · exact congrArg (NodeRef.renamed f)

/-- A handle belongs to the store under the new name as it did under the old. -/
theorem document_renamed_iff {n : NodeRef} {s : Store} :
    (n.renamed f).document = (s.renamed f).document ↔ n.document = s.document :=
  hf.eq_iff

/-- Whether a handle is one of the document is no matter of names. -/
theorem document_renamed_iff' {a : AttributeRef} {s : Store} :
    (a.renamed f).document = (s.renamed f).document ↔ a.document = s.document :=
  hf.eq_iff

/-- A handle under its new name gives the node that it gave, with the names in it changed. -/
theorem node?_renamed (s : Store) (n : NodeRef) : (s.renamed f).node? (n.renamed f) = (s.node? n).map (Node.renamed f) := by
  by_cases h : n.document = s.document
  · rw [node?, node?, if_pos h, if_pos ((document_renamed_iff hf).mpr h)]
    exact s.nodes.get?_map (Node.renamed f) n.key
  · rw [node?, node?, if_neg h, if_neg (mt (document_renamed_iff hf).mp h)]
    rfl

/-- A node is found under its new name. -/
theorem mirrors_node (s : Store) (n : NodeRef) :
    Mirrors (Node.renamed f) (s.node n) ((s.renamed f).node (n.renamed f)) := by
  rw [node, node, node?_renamed hf]
  cases s.node? n with
  | none => exact .error
  | some node => exact .ok rfl

/-- An attribute holds no handles, so it is found as it was. -/
theorem attribute?_renamed (s : Store) (a : AttributeRef) : (s.renamed f).attribute? (a.renamed f) = s.attribute? a := by
  by_cases h : a.document = s.document
  · rw [attribute?, attribute?, if_pos h, if_pos ((document_renamed_iff' hf).mpr h)]
    rfl
  · rw [attribute?, attribute?, if_neg h, if_neg (mt (document_renamed_iff' hf).mp h)]

/-- Changing a node in place goes on as before if its names do not matter to the change. -/
theorem modifyNode_renamed (m m' : Node → Node) (h : ∀ node, (m node).renamed f = m' (node.renamed f)) (s : Store)
    (n : NodeRef) : (s.renamed f).modifyNode (n.renamed f) m' = (s.modifyNode n m).renamed f := by
  by_cases hdocument : n.document = s.document
  · rw [modifyNode, modifyNode, if_pos hdocument, if_pos ((document_renamed_iff hf).mpr hdocument)]
    have hnodes := Slots.modify_map h s.nodes n.key
    simp only [Store.renamed, NodeRef.renamed, hnodes]
  · rw [modifyNode, modifyNode, if_neg hdocument, if_neg (mt (document_renamed_iff hf).mp hdocument)]

/-! ## Adding nodes -/

omit hf in
/-- Attributes come into the same slots. -/
theorem addAttributes_renamed (s : Store) (l : List Attribute) : (s.renamed f).addAttributes l =
    ((s.addAttributes l).1.renamed f, (s.addAttributes l).2.map (AttributeRef.renamed f)) := by
  induction l generalizing s with
  | nil => rfl
  | cons a rest ih =>
    have hrest := ih { s with attributes := (s.attributes.insert a).1 }
    simp only [addAttributes, attributes_renamed]
    simp only [Store.renamed] at hrest ⊢
    rw [hrest]
    rfl

/-- A node comes into the same slot, and is listed by its parent. -/
theorem link_renamed (s : Store) (parent : NodeRef) (payload : Payload) :
    (s.renamed f).link (parent.renamed f) (payload.renamed f) =
      ((s.link parent payload).1.renamed f, (s.link parent payload).2.renamed f) := by
  have hinsert := Slots.insert_map (Node.renamed f) s.nodes ⟨payload, some parent, []⟩
  have hnew : (⟨payload.renamed f, some (parent.renamed f), []⟩ : Node) = Node.renamed f ⟨payload, some parent, []⟩ := rfl
  rw [link, link, hnew, nodes_renamed, hinsert]
  refine Prod.ext ?_ rfl
  refine modifyNode_renamed hf _ _ ?_ { s with nodes := (s.nodes.insert ⟨payload, some parent, []⟩).1 } parent
  intro node
  simp only [Node.renamed, List.map_append, List.map_cons, List.map_nil]
  rfl

/-- What is added is the same under the new name. -/
theorem addLeaf_renamed (s : Store) (parent : NodeRef) (text : String) :
    (s.renamed f).addLeaf (parent.renamed f) text =
      ((s.addLeaf parent text).1.renamed f, (s.addLeaf parent text).2.renamed f) :=
  link_renamed hf s parent (.leaf text)

/-- An element comes into the same slots. -/
theorem addElement_renamed (s : Store) (parent : NodeRef) (name : QName) (l : List Attribute) :
    (s.renamed f).addElement (parent.renamed f) name l =
      ((s.addElement parent name l).1.renamed f, (s.addElement parent name l).2.renamed f) := by
  rw [addElement, addElement, addAttributes_renamed]
  exact link_renamed hf (s.addAttributes l).1 parent (.element name (s.addAttributes l).2)

/-- A record of a listing goes on as before. -/
theorem mirrors_addRecord (s : Store) (parent : NodeRef) (r : Record) :
    Mirrors (Prod.map (renamed f) (NodeRef.renamed f)) (s.addRecord parent r)
      ((s.renamed f).addRecord (parent.renamed f) r) := by
  refine (mirrors_node hf s parent).bind fun node => ?_
  refine .ite (node.isContainer_renamed f) (fun _ => ?_) fun _ => .error
  cases r with
  | leaf text => exact .ok (addLeaf_renamed hf s parent text)
  | element name attributes count => exact .ok (addElement_renamed hf s parent name attributes)

/-- Building from a listing goes on as before, whatever still lacks children. -/
theorem mirrors_build (s : Store) (top : NodeRef) (lacking : List (NodeRef × Nat)) (records : List Record) :
    Mirrors (renamed f) (s.build top lacking records)
      ((s.renamed f).build (top.renamed f) (lacking.map (Prod.map (NodeRef.renamed f) id)) records) := by
  fun_induction build s top lacking records with
  | case1 s records =>
    rw [List.map_nil, build]
    exact .ok rfl
  | case2 s n outer records ih =>
    simp only [List.map_cons, Prod.map_apply, id_eq]
    rw [build]
    exact ih
  | case3 s n count outer => exact .error
  | case4 s n count outer r rest ih₁ ih₂ =>
    simp only [List.map_cons, Prod.map_apply, id_eq]
    rw [build]
    refine (mirrors_addRecord hf s n r).bind fun added => ?_
    obtain ⟨s', child⟩ := added
    exact .ite Iff.rfl (fun _ => ih₁ s') (fun _ => ih₂ s' child)

/-- Appending a tree goes on as before. -/
theorem mirrors_appendTree (s : Store) (parent : NodeRef) (t : Tree) :
    Mirrors (Prod.map (renamed f) (NodeRef.renamed f)) (s.appendTree parent t)
      ((s.renamed f).appendTree (parent.renamed f) t) := by
  rw [appendTree, appendTree]
  cases t.records with
  | nil => exact .error
  | cons r rest =>
    refine (mirrors_addRecord hf s parent r).bind fun added => ?_
    obtain ⟨s', top⟩ := added
    refine (mirrors_build hf s' top [(top, r.children)] rest).bind fun s'' => ?_
    exact .ok rfl

/-! ## Removing nodes -/

/-- Taking a node out goes on as before. -/
theorem mirrors_freeNode (s : Store) (n : NodeRef) :
    Mirrors (Prod.map (renamed f) (Node.renamed f)) (s.freeNode n) ((s.renamed f).freeNode (n.renamed f)) := by
  rw [freeNode, freeNode, root_renamed]
  refine .ite (renamed_eq_iff hf) (fun _ => .error) fun _ => ?_
  refine .ite (document_renamed_iff hf) (fun _ => ?_) fun _ => .error
  have hremove : (s.renamed f).nodes.remove? (n.renamed f).key = _ := Slots.remove?_map (Node.renamed f) s.nodes n.key
  rw [hremove]
  cases s.nodes.remove? n.key with
  | none => exact .error
  | some removed => exact .ok rfl

/-- Taking an attribute out goes on as before. -/
theorem mirrors_freeAttribute (s : Store) (a : AttributeRef) :
    Mirrors (renamed f) (s.freeAttribute a) ((s.renamed f).freeAttribute (a.renamed f)) := by
  rw [freeAttribute, freeAttribute]
  refine .ite (document_renamed_iff' hf) (fun _ => ?_) fun _ => .error
  have hremove : (s.renamed f).attributes.remove? (a.renamed f).key = s.attributes.remove? a.key := rfl
  rw [hremove]
  cases s.attributes.remove? a.key with
  | none => exact .error
  | some removed => exact .ok rfl

/-- Taking attributes out one after the other goes on as before. -/
theorem mirrors_freeAttributes (s : Store) (refs : List AttributeRef) :
    Mirrors (renamed f) (s.freeAttributes refs) ((s.renamed f).freeAttributes (refs.map (AttributeRef.renamed f))) := by
  induction refs generalizing s with
  | nil => exact .ok rfl
  | cons a rest ih => exact (mirrors_freeAttribute hf s a).bind ih

/-- Subtrees that can be freed can be freed under the new name, in the same order. -/
theorem mirrors_freeSubtrees (s : Store) (nodes : List NodeRef) :
    Mirrors (renamed f) (s.freeSubtrees nodes) ((s.renamed f).freeSubtrees (nodes.map (NodeRef.renamed f))) := by
  fun_induction freeSubtrees s nodes with
  | case1 s =>
    rw [List.map_nil, freeSubtrees]
    exact .ok rfl
  | case2 s n rest e hfreed => exact .error
  | case3 s n rest s' node hfreed e hcleared => exact .error
  | case4 s n rest s' node hfreed s'' hcleared ih =>
    have hfreed' : (s.renamed f).freeNode (n.renamed f) = .ok (s'.renamed f, node.renamed f) :=
      mirrors_freeNode hf s n _ hfreed
    have hcleared' : (s'.renamed f).freeAttributes (node.renamed f).payload.attributes = .ok (s''.renamed f) := by
      have hattributes : (node.renamed f).payload.attributes = node.payload.attributes.map (AttributeRef.renamed f) :=
        node.payload.attributes_renamed f
      rw [hattributes]
      exact mirrors_freeAttributes hf s' _ _ hcleared
    rw [List.map_cons, freeSubtrees]
    split
    · rename_i e he
      rw [hfreed'] at he
      cases he
    · rename_i t m he
      rw [hfreed'] at he
      cases he
      split
      · rename_i e he
        rw [hcleared'] at he
        cases he
      · rename_i t' he
        rw [hcleared'] at he
        cases he
        have hchildren : (node.renamed f).children ++ rest.map (NodeRef.renamed f) =
            (node.children ++ rest).map (NodeRef.renamed f) := List.map_append.symm
        rw [hchildren]
        exact ih

/-- The check of a list of children finds no other faults. -/
theorem mirrors_checkChildren (s : Store) (parent : NodeRef) (seen children : List NodeRef) :
    Mirrors id (s.checkChildren parent seen children) ((s.renamed f).checkChildren (parent.renamed f)
      (seen.map (NodeRef.renamed f)) (children.map (NodeRef.renamed f))) := by
  have hinjective : Function.Injective (NodeRef.renamed f) := fun _ _ h => (renamed_eq_iff hf).mp h
  induction children generalizing seen with
  | nil => exact .ok rfl
  | cons child rest ih =>
    refine (mirrors_node hf s child).bind fun node => ?_
    have hparent : (node.renamed f).parent ≠ some (parent.renamed f) ↔ node.parent ≠ some parent := by
      have hsome : some (parent.renamed f) = (some parent).map (NodeRef.renamed f) := rfl
      rw [Node.renamed, hsome, (Option.map_injective hinjective).ne_iff]
    refine .ite hparent (fun _ => .error) fun _ => ?_
    exact .ite (List.mem_map_of_injective hinjective) (fun _ => .error) fun _ => ih (child :: seen)

/-- Setting the children of a node goes on as before. -/
theorem mirrors_setChildren (s : Store) (n : NodeRef) (children : List NodeRef) :
    Mirrors (renamed f) (s.setChildren n children)
      ((s.renamed f).setChildren (n.renamed f) (children.map (NodeRef.renamed f))) := by
  refine (mirrors_node hf s n).bind fun node => ?_
  refine .ite (node.isContainer_renamed f) (fun _ => ?_) fun _ => .error
  refine (mirrors_checkChildren hf s n [] children).bind fun _ => ?_
  exact .ok (modifyNode_renamed hf (fun node => { node with children }) _ (fun _ => rfl) s n)

/-- Removing a tree goes on as before. -/
theorem mirrors_remove (s : Store) (n : NodeRef) :
    Mirrors (Prod.map (renamed f) (NodeRef.renamed f)) (s.remove n) ((s.renamed f).remove (n.renamed f)) := by
  rw [remove, remove, root_renamed]
  refine .ite (renamed_eq_iff hf) (fun _ => .error) fun _ => ?_
  refine (mirrors_node hf s n).bind fun node => ?_
  obtain ⟨payload, parent, children⟩ := node
  cases parent with
  | none => exact .error
  | some parent =>
    refine (mirrors_node hf s parent).bind fun above => ?_
    have hremaining : (above.renamed f).children.filter (· ≠ n.renamed f) =
        (above.children.filter (· ≠ n)).map (NodeRef.renamed f) := by
      rw [Node.renamed, List.filter_map]
      congr 1
      refine List.filter_congr ?_
      intro child _
      simp only [Function.comp_apply, ne_eq, renamed_eq_iff hf]
    have hlength : ((above.children.filter (· ≠ n)).map (NodeRef.renamed f)).length = (above.renamed f).children.length ↔
        (above.children.filter (· ≠ n)).length = above.children.length := by
      rw [Node.renamed, List.length_map, List.length_map]
    simp only [hremaining]
    refine .ite hlength (fun _ => .error) fun _ => ?_
    refine (mirrors_setChildren hf s parent _).bind fun s' => ?_
    refine (mirrors_freeSubtrees hf s' [n]).bind fun s'' => ?_
    exact .ok rfl

/-! ## Changing nodes in place -/

/-- Taking trees out one after the other goes on as before. -/
theorem mirrors_freeEach (s : Store) (nodes : List NodeRef) :
    Mirrors (renamed f) (s.freeEach nodes) ((s.renamed f).freeEach (nodes.map (NodeRef.renamed f))) := by
  induction nodes generalizing s with
  | nil => exact .ok rfl
  | cons n rest ih => exact (mirrors_freeSubtrees hf s [n]).bind ih

omit hf in
/-- The payload of a record is stored in the same slots. -/
theorem storePayload_renamed (s : Store) (r : Record) : (s.renamed f).storePayload r =
    ((s.storePayload r).1.renamed f, (s.storePayload r).2.renamed f) := by
  cases r with
  | leaf text => rfl
  | element name attributes count =>
    rw [storePayload, storePayload, addAttributes_renamed]
    rfl

/-- Filling an empty node goes on as before. -/
theorem mirrors_fill (s : Store) (n : NodeRef) (t : Tree) :
    Mirrors (renamed f) (s.fill n t) ((s.renamed f).fill (n.renamed f) t) := by
  rw [fill, fill]
  cases t.records with
  | nil => exact .error
  | cons r rest =>
    simp only [storePayload_renamed]
    refine (mirrors_node hf (s.storePayload r).1 n).bind fun _ => ?_
    have hmodify := modifyNode_renamed hf (fun node => { node with payload := (s.storePayload r).2 })
      (fun node => { node with payload := (s.storePayload r).2.renamed f }) (fun _ => rfl) (s.storePayload r).1 n
    rw [hmodify]
    exact mirrors_build hf _ n [(n, r.children)] rest

/-- Replacing a tree goes on as before. -/
theorem mirrors_replace (s : Store) (n : NodeRef) (t : Tree) :
    Mirrors (Prod.map (renamed f) (NodeRef.renamed f)) (s.replace n t) ((s.renamed f).replace (n.renamed f) t) := by
  rw [replace, replace, root_renamed]
  refine .ite (renamed_eq_iff hf) (fun _ => .error) fun _ => ?_
  refine (mirrors_node hf s n).bind fun node => ?_
  obtain ⟨payload, parent, children⟩ := node
  cases parent with
  | none => exact .error
  | some parent =>
    have hbare : ∀ p : Payload, bare (p.renamed f) = (bare p).renamed f := by
      intro p
      cases p <;> rfl
    have hemptied := modifyNode_renamed hf (fun node => { node with payload := bare node.payload, children := [] })
      (fun node => { node with payload := bare node.payload, children := [] })
      (fun node => by simp only [Node.renamed, hbare, List.map_nil]) s n
    simp only [hemptied, Node.renamed, Payload.attributes_renamed]
    refine (mirrors_freeAttributes hf _ payload.attributes).bind fun cleared => ?_
    refine (mirrors_freeEach hf cleared children).bind fun freed => ?_
    refine (mirrors_fill hf freed n t).bind fun filled => ?_
    exact .ok rfl

/-- Changing an attribute goes on as before. -/
theorem mirrors_updateAttribute (s : Store) (a : AttributeRef) (new : Attribute) :
    Mirrors (renamed f) (s.updateAttribute a new) ((s.renamed f).updateAttribute (a.renamed f) new) := by
  rw [updateAttribute, updateAttribute, attribute?_renamed hf]
  cases s.attribute? a with
  | none => exact .error
  | some old => exact .ok rfl

/-- Exchanging attributes goes on as before, one handle after the other. -/
theorem mirrors_rewriteAttributes (s : Store) (current : List AttributeRef) (l : List Attribute) :
    Mirrors (Prod.map (renamed f) (List.map (AttributeRef.renamed f))) (s.rewriteAttributes current l)
      ((s.renamed f).rewriteAttributes (current.map (AttributeRef.renamed f)) l) := by
  induction current generalizing s l with
  | nil => exact .ok (addAttributes_renamed s l)
  | cons a current ih =>
    cases l with
    | nil =>
      refine (mirrors_freeAttributes hf s (a :: current)).bind fun s' => ?_
      exact .ok rfl
    | cons new rest =>
      refine (mirrors_updateAttribute hf s a new).bind fun s' => ?_
      refine (ih s' rest).bind fun rewritten => ?_
      exact .ok rfl

/-- Setting the attributes of an element goes on as before. -/
theorem mirrors_setAttributes (s : Store) (n : NodeRef) (l : List Attribute) :
    Mirrors (renamed f) (s.setAttributes n l) ((s.renamed f).setAttributes (n.renamed f) l) := by
  refine (mirrors_node hf s n).bind fun node => ?_
  obtain ⟨payload, parent, children⟩ := node
  cases payload with
  | root => exact .error
  | leaf text => exact .error
  | element name current =>
    refine (mirrors_rewriteAttributes hf s current l).bind fun rewritten => ?_
    obtain ⟨s', refs⟩ := rewritten
    refine (mirrors_node hf s' n).bind fun _ => ?_
    refine .ok (modifyNode_renamed hf (fun node => withAttributes node refs) _ ?_ s' n)
    rintro ⟨payload, parent, children⟩
    cases payload <;> rfl

/-- Setting the content of a text goes on as before. -/
theorem mirrors_setText (s : Store) (n : NodeRef) (text : String) :
    Mirrors (renamed f) (s.setText n text) ((s.renamed f).setText (n.renamed f) text) := by
  refine (mirrors_node hf s n).bind fun node => ?_
  obtain ⟨payload, parent, children⟩ := node
  cases payload with
  | root => exact .error
  | element name attributes => exact .error
  | leaf old => exact .ok (modifyNode_renamed hf (fun node => { node with payload := .leaf text }) _ (fun _ => rfl) s n)

/-! ## Edits -/

omit hf in
/-- Naming the faults of a store in another way changes nothing of this. -/
theorem mirrors_ofStore {α β : Type} {g : α → β} {x : Except StoreError α} {y : Except StoreError β} (h : Mirrors g x y) :
    Mirrors g (EditFault.ofStore x) (EditFault.ofStore y) := by
  intro a ha
  cases x with
  | error e => cases ha
  | ok a' =>
    cases ha
    rw [h a rfl]
    rfl

/-- A path leads to the same node under the new name. -/
theorem mirrors_follow (s : Store) (path : Path) (n : NodeRef) (taken : Nat) (rest : Path) :
    Mirrors (NodeRef.renamed f) (s.follow path n taken rest) ((s.renamed f).follow path (n.renamed f) taken rest) := by
  induction rest generalizing n taken with
  | nil => exact .ok rfl
  | cons step rest ih =>
    refine (mirrors_ofStore (mirrors_node hf s n)).bind fun node => ?_
    have hchild : (node.renamed f).children[step]? = node.children[step]?.map (NodeRef.renamed f) := List.getElem?_map
    rw [hchild]
    cases node.children[step]? with
    | some child => exact ih child (taken + 1)
    | none =>
      obtain ⟨payload, parent, children⟩ := node
      cases payload <;> exact .error

/-- A path leads to the same node under its new name. -/
theorem mirrors_resolve (s : Store) (path : Path) :
    Mirrors (NodeRef.renamed f) (s.resolve path) ((s.renamed f).resolve path) :=
  mirrors_follow hf s path s.root 0 path

/-- An edit at a node goes on as before, and is reported by the same change under the new names. -/
theorem mirrors_applyAt (s : Store) (n : NodeRef) (e : Edit) :
    Mirrors (Prod.map (renamed f) (Change.renamed f)) (s.applyAt n e) ((s.renamed f).applyAt (n.renamed f) e) := by
  cases e with
  | setAttributes path attributes =>
    refine (mirrors_ofStore (mirrors_node hf s n)).bind fun node => ?_
    obtain ⟨payload, parent, children⟩ := node
    cases payload with
    | root => exact .error
    | leaf text => exact .error
    | element name current =>
      refine (mirrors_ofStore (mirrors_setAttributes hf s n attributes)).bind fun s' => ?_
      exact .ok rfl
  | setText path text =>
    refine (mirrors_ofStore (mirrors_node hf s n)).bind fun node => ?_
    obtain ⟨payload, parent, children⟩ := node
    cases payload with
    | root => exact .error
    | element name current => exact .error
    | leaf old =>
      refine (mirrors_ofStore (mirrors_setText hf s n text)).bind fun s' => ?_
      exact .ok rfl
  | append path tree =>
    refine (mirrors_ofStore (mirrors_node hf s n)).bind fun node => ?_
    refine .ite (node.isContainer_renamed f) (fun _ => ?_) fun _ => .error
    refine (mirrors_ofStore (mirrors_appendTree hf s n tree)).bind fun added => ?_
    exact .ok rfl
  | remove path =>
    refine (mirrors_ofStore (mirrors_remove hf s n)).bind fun removed => ?_
    exact .ok rfl
  | replace path tree =>
    refine (mirrors_ofStore (mirrors_replace hf s n tree)).bind fun replaced => ?_
    exact .ok rfl

/-- An edit goes on as before, and is reported by the same change under the new names. -/
theorem mirrors_applyEdit (s : Store) (e : Edit) :
    Mirrors (Prod.map (renamed f) (Change.renamed f)) (s.applyEdit e) ((s.renamed f).applyEdit e) :=
  (mirrors_resolve hf s e.path).bind fun n => mirrors_applyAt hf s n e

/-- Edits that are carried out on a store are carried out on it under the new name, with the same effect. -/
theorem mirrors_applyAll (s : Store) (number : Nat) (edits : List Edit) :
    Mirrors (Prod.map (renamed f) (List.map (Change.renamed f))) (s.applyAll number edits)
      ((s.renamed f).applyAll number edits) := by
  induction edits generalizing s number with
  | nil => exact .ok rfl
  | cons e rest ih =>
    rintro ⟨s'', changes⟩ happly
    rw [applyAll] at happly ⊢
    split at happly
    · cases happly
    · rename_i s' change hfirst
      split at happly
      · cases happly
      · rename_i final more hrest
        cases happly
        simp only [mirrors_applyEdit hf s e _ hfirst, Prod.map, ih s' (number + 1) _ hrest]
        rfl

end Store

/-! ## Outlines -/

/-- The outline with the documents in its handles renamed. -/
def Outline.renamed (f : DocumentId → DocumentId) : Outline → Outline
  | nil => nil
  | leaf node text next => leaf (node.renamed f) text (next.renamed f)
  | element node name attributes children next =>
    element (node.renamed f) name (attributes.map (Prod.map (AttributeRef.renamed f) id)) (children.renamed f)
      (next.renamed f)

/-- Without its handles the outline is the same. -/
theorem Outline.forest_renamed (f : DocumentId → DocumentId) (o : Outline) : (o.renamed f).forest = o.forest := by
  induction o with
  | nil => rfl
  | leaf node text next ih => rw [renamed, forest, forest, ih]
  | element node name attributes children next ihc ihn =>
    rw [renamed, forest, forest, ihc, ihn, List.map_map]
    rfl

namespace Store

variable {f : DocumentId → DocumentId} (hf : Function.Injective f)

include hf

/-- The outline that is read from handles is the same under the new names. -/
theorem read_renamed (s : Store) (limit : Nat) (nodes : List NodeRef) :
    (s.renamed f).read limit (nodes.map (NodeRef.renamed f)) = (s.read limit nodes).renamed f := by
  induction limit generalizing nodes with
  | zero => rfl
  | succ limit ih =>
    cases nodes with
    | nil => rfl
    | cons n rest =>
      rw [List.map_cons, read, read, node?_renamed hf, ih]
      cases s.node? n with
      | none => rfl
      | some node =>
        obtain ⟨payload, parent, children⟩ := node
        cases payload with
        | root => rfl
        | leaf text => rfl
        | element name attributes =>
          have hattributes : (attributes.map (AttributeRef.renamed f)).filterMap
              (fun a => ((s.renamed f).attribute? a).map (a, ·)) =
              (attributes.filterMap fun a => (s.attribute? a).map (a, ·)).map (Prod.map (AttributeRef.renamed f) id) := by
            rw [List.filterMap_map, List.map_filterMap]
            refine List.filterMap_congr ?_
            intro a _
            rw [Function.comp_apply, attribute?_renamed hf, Option.map_map]
            rfl
          simp only [Option.map_some, Node.renamed, Payload.renamed, Outline.renamed, hattributes, ih]

/-- A node lists the same children under their new names. -/
theorem childrenOf_renamed (s : Store) (n : NodeRef) :
    (s.renamed f).childrenOf (n.renamed f) = (s.childrenOf n).map (NodeRef.renamed f) := by
  rw [childrenOf, childrenOf, node?_renamed hf]
  cases s.node? n <;> rfl

/-- The outline below handles is the same under the new names. -/
theorem outline_renamed (s : Store) (nodes : List NodeRef) :
    (s.renamed f).outline (nodes.map (NodeRef.renamed f)) = (s.outline nodes).renamed f := by
  have hsize : (s.renamed f).nodes.slots.size = s.nodes.slots.size := Array.size_map
  rw [outline, outline, hsize]
  exact read_renamed hf s _ nodes

end Store

end LiveMarkup
