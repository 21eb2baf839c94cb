import Mathlib.Data.Finmap
import LiveMarkup.Document.Basic
import LiveMarkup.Edit.Basic
import LiveMarkup.Proofs.Outline

/-!
# Mirrors

A host keeps a mirror of a document, by the slots of its nodes: what each node is, and the slots of its children
(`Document.mirror`). When it is told of changes it brings the mirror up to date one change after the other, and reads
nothing but the document as it is in the end (`Mirror.follow`). It stops where it is told to copy a node into a slot that is
still taken, or to look for one in a slot where there is none.

What a mirror shows is described by what its steps do to the nodes that they touch, as for a store: `Mirror.Holds`.
-/

namespace LiveMarkup

/-! ## What a mirror is -/

/-- What a host shows of a node besides its children. -/
inductive Face
  | root
  | element (name : QName) (attributes : List (AttributeRef × Attribute))
  | leaf (text : String)
deriving DecidableEq, Repr

/-- A node as a mirror has it. -/
structure Mirrored where
  face : Face
  /-- The slots of its children in order. -/
  children : List Nat
deriving DecidableEq, Repr

/-- The nodes of a document by their slots. -/
abbrev Mirror := Finmap fun _ : Nat => Mirrored

/-- Why a mirror cannot be brought up to date. -/
inductive MirrorFault
  /-- A node shall be copied into a slot that is still taken. -/
  | taken (index : Nat)
  /-- There is no node in the slot. -/
  | vacant (index : Nat)
  /-- The document refuses what it is asked. -/
  | refused (error : DocumentError)
deriving DecidableEq, Repr

/-- What the document refuses is a fault of the mirror. -/
def MirrorFault.ofDocument {α : Type} : Except DocumentError α → Except MirrorFault α
  | .ok a => .ok a
  | .error e => .error (.refused e)

/-- What a host shows of a payload. -/
def Store.faceOf (s : Store) : Payload → Face
  | .root => .root
  | .element name attributes => .element name (attributes.filterMap fun a => (s.attribute? a).map (a, ·))
  | .leaf text => .leaf text

/-- A node as a mirror has it. -/
def Store.mirroredOf (s : Store) (node : Node) : Mirrored :=
  ⟨s.faceOf node.payload, node.children.map NodeRef.index⟩

/-- The node in a slot as a mirror has it. -/
def Store.mirroredAt? (s : Store) (i : Nat) : Option Mirrored :=
  (s.nodes.slots[i]?.bind Slot.value).map s.mirroredOf

namespace Document

/-- The mirror of a document. -/
def mirror (d : Document) : Mirror :=
  ((List.range d.store.nodes.slots.size).filterMap fun i => (d.store.mirroredAt? i).map (Sigma.mk i)).toFinmap

/-- What a host shows of a node. -/
def face (d : Document) (n : NodeRef) : Except DocumentError Face := do
  return d.store.faceOf (← d.get n)

/-- The outline of a node and everything below it. -/
def outlineFrom (d : Document) (n : NodeRef) : Except DocumentError Outline := do
  let _ ← d.node n
  return d.store.outline [n]

end Document

/-- The slots of the nodes at the top. -/
def Outline.indices (o : Outline) : List Nat :=
  o.tops.map NodeRef.index

namespace Mirror

open MirrorFault (ofDocument)

/-- The node in a slot. -/
def nodeAt (m : Mirror) (i : Nat) : Except MirrorFault Mirrored :=
  match m.lookup i with
  | some node => .ok node
  | none => .error (.vacant i)

/-- Puts a node into a slot that is not taken. -/
def put (m : Mirror) (i : Nat) (node : Mirrored) : Except MirrorFault Mirror :=
  if i ∈ m then .error (.taken i) else .ok (m.insert i node)

/-- Changes the node in a slot. -/
def change (m : Mirror) (i : Nat) (f : Mirrored → Mirrored) : Except MirrorFault Mirror := do
  let node ← m.nodeAt i
  .ok (m.insert i (f node))

/-- Copies the nodes of an outline. -/
def copy (m : Mirror) : Outline → Except MirrorFault Mirror
  | .nil => .ok m
  | .leaf n text next => do
    let m ← m.put n.index ⟨.leaf text, []⟩
    m.copy next
  | .element n name attributes children next => do
    let m ← m.put n.index ⟨.element name attributes, children.indices⟩
    let m ← m.copy children
    m.copy next

/-- Deletes the nodes in slots and everything that the mirror has below them. -/
def delete (m : Mirror) : List Nat → Except MirrorFault Mirror
  | [] => .ok m
  | i :: rest =>
    match _found : m.lookup i with
    | some node => delete (m.erase i) (node.children ++ rest)
    | none => .error (.vacant i)
termination_by m.keys.card
decreasing_by
  rw [Finmap.keys_erase]
  exact Finset.card_erase_lt_of_mem (Finmap.mem_keys.mpr (Finmap.mem_of_lookup_eq_some _found))

/-- Brings the mirror up to date with a change, looking at the document as it is after all changes. -/
def follow (m : Mirror) (d : Document) : Change → Except MirrorFault Mirror
  | .updated n => do
    let face ← ofDocument (d.face n)
    m.change n.index fun node => { node with face }
  | .added n p => do
    let added ← ofDocument (d.outlineFrom n)
    let m ← m.change p.index fun node => { node with children := node.children ++ [n.index] }
    m.copy added
  | .removed n p => do
    let m ← m.change p.index fun node => { node with children := node.children.erase n.index }
    m.delete [n.index]
  | .replaced n _ => do
    let face ← ofDocument (d.face n)
    let below ← ofDocument (d.outlineBelow n)
    let node ← m.nodeAt n.index
    let m ← m.delete node.children
    let m ← m.change n.index fun _ => ⟨face, below.indices⟩
    m.copy below

/-- Brings the mirror up to date with changes, one after the other. -/
def followAll (m : Mirror) (d : Document) : List Change → Except MirrorFault Mirror
  | [] => .ok m
  | c :: changes => do
    let m ← m.follow d c
    m.followAll d changes

end Mirror

/-! ## What a mirror holds -/

namespace OutlineTree

/-- What a host shows of the node. -/
def face : OutlineTree → Face
  | leaf _ text => .leaf text
  | element _ name attributes _ => .element name attributes

end OutlineTree

namespace Outline

/-- The nodes of the outline as a mirror has them. -/
def mirrored : Outline → Multiset (Nat × Mirrored)
  | nil => 0
  | leaf n text next => (n.index, ⟨.leaf text, []⟩) ::ₘ next.mirrored
  | element n name attributes children next =>
    (n.index, ⟨.element name attributes, children.indices⟩) ::ₘ (children.mirrored + next.mirrored)

/-- The slots of the mirrored nodes are those of the nodes. -/
theorem map_fst_mirrored (o : Outline) : o.mirrored.map Prod.fst = (o.nodes.map NodeRef.index : List Nat) := by
  induction o with
  | nil => rfl
  | leaf n text next ih => simp [mirrored, nodes, ih]
  | element n name attributes children next ihc ihn => simp [mirrored, nodes, ihc, ihn]

end Outline

/-- The nodes of a tree as a mirror has them. -/
def OutlineTree.mirrored (t : OutlineTree) : Multiset (Nat × Mirrored) :=
  (t.node.index, ⟨t.face, t.below.indices⟩) ::ₘ t.below.mirrored

namespace Outline

theorem mirrored_cons (t : OutlineTree) (o : Outline) : (cons t o).mirrored = t.mirrored + o.mirrored := by
  cases t with
  | leaf n text =>
    rw [cons, mirrored, OutlineTree.mirrored, OutlineTree.below, mirrored, Multiset.cons_add, Multiset.zero_add]
    rfl
  | element n name attributes children =>
    rw [cons, mirrored, OutlineTree.mirrored, Multiset.cons_add]
    rfl

theorem mirrored_ofList_append (l m : List OutlineTree) :
    (ofList (l ++ m)).mirrored = (ofList l).mirrored + (ofList m).mirrored := by
  induction l with
  | nil => rw [List.nil_append, ofList_nil, mirrored, Multiset.zero_add]
  | cons t l ih =>
    rw [List.cons_append, ofList_cons, ofList_cons, mirrored_cons, mirrored_cons, ih, Multiset.add_assoc]

end Outline

/-- The mirror has these nodes and no others, one in a slot. -/
structure Mirror.Holds (m : Mirror) (E : Multiset (Nat × Mirrored)) : Prop where
  nodup : (E.map Prod.fst).Nodup
  lookup_iff : ∀ i node, m.lookup i = some node ↔ (i, node) ∈ E

namespace Mirror.Holds

variable {m m' : Mirror} {E : Multiset (Nat × Mirrored)} {i : Nat} {node : Mirrored}

/-- What a mirror holds is all there is to it. -/
theorem unique (h : m.Holds E) (h' : m'.Holds E) : m = m' :=
  Finmap.ext_lookup fun i => Option.ext fun node => (h.lookup_iff i node).trans (h'.lookup_iff i node).symm

theorem nodeAt_eq (h : m.Holds ((i, node) ::ₘ E)) : m.nodeAt i = .ok node := by
  rw [Mirror.nodeAt, (h.lookup_iff i node).mpr (Multiset.mem_cons_self _ _)]

/-- There is nothing else in the slot of a node. -/
theorem notMem (h : m.Holds ((i, node) ::ₘ E)) : i ∉ E.map Prod.fst := by
  have hnodup := h.nodup
  rw [Multiset.map_cons] at hnodup
  exact (Multiset.nodup_cons.mp hnodup).1

/-- A node that is stored takes the place of one in the same slot. -/
theorem insert (h : m.Holds E) (hi : i ∉ E.map Prod.fst) (node : Mirrored) :
    Holds (m.insert i node) ((i, node) ::ₘ E) := by
  refine ⟨?_, ?_⟩
  · rw [Multiset.map_cons]
    exact Multiset.nodup_cons.mpr ⟨hi, h.nodup⟩
  · intro j other
    rw [Multiset.mem_cons, Prod.mk.injEq]
    by_cases hj : j = i
    · subst hj
      have hnone : (j, other) ∉ E := fun hmem => hi (Multiset.mem_map_of_mem Prod.fst hmem)
      rw [Finmap.lookup_insert]
      simp [hnone, eq_comm]
    · rw [Finmap.lookup_insert_of_ne m hj, h.lookup_iff]
      simp [hj]

theorem erase (h : m.Holds ((i, node) ::ₘ E)) : Holds (m.erase i) E := by
  have hi := h.notMem
  refine ⟨?_, ?_⟩
  · have hnodup := h.nodup
    rw [Multiset.map_cons] at hnodup
    exact (Multiset.nodup_cons.mp hnodup).2
  · intro j other
    by_cases hj : j = i
    · subst hj
      have hnone : (j, other) ∉ E := fun hmem => hi (Multiset.mem_map_of_mem Prod.fst hmem)
      rw [Finmap.lookup_erase]
      simp [hnone]
    · rw [Finmap.lookup_erase_ne hj, h.lookup_iff, Multiset.mem_cons, Prod.mk.injEq]
      simp [hj]

/-- A node is put into a slot that is not taken. -/
theorem put (h : m.Holds E) (hi : i ∉ E.map Prod.fst) (node : Mirrored) :
    ∃ m', m.put i node = .ok m' ∧ m'.Holds ((i, node) ::ₘ E) := by
  have hvacant : i ∉ m := by
    intro hmem
    obtain ⟨other, hother⟩ := Finmap.mem_iff.mp hmem
    exact hi (Multiset.mem_map_of_mem Prod.fst ((h.lookup_iff i other).mp hother))
  exact ⟨m.insert i node, if_neg hvacant, h.insert hi node⟩

/-- A node is changed. -/
theorem change (h : m.Holds ((i, node) ::ₘ E)) (f : Mirrored → Mirrored) :
    ∃ m', m.change i f = .ok m' ∧ m'.Holds ((i, f node) ::ₘ E) := by
  refine ⟨m.insert i (f node), ?_, ?_⟩
  · rw [Mirror.change, h.nodeAt_eq]
    rfl
  · have herased := h.erase.insert h.notMem (f node)
    have hsame : (m.erase i).insert i (f node) = m.insert i (f node) := by
      refine Finmap.ext_lookup fun j => ?_
      by_cases hj : j = i
      · rw [hj, Finmap.lookup_insert, Finmap.lookup_insert]
      · rw [Finmap.lookup_insert_of_ne _ hj, Finmap.lookup_insert_of_ne _ hj, Finmap.lookup_erase_ne hj]
    rw [hsame] at herased
    exact herased

/-- The nodes of an outline are copied, if their slots are not taken. -/
theorem copy {o : Outline} (h : m.Holds E) (hnodup : ((o.mirrored + E).map Prod.fst).Nodup) :
    ∃ m', m.copy o = .ok m' ∧ m'.Holds (o.mirrored + E) := by
  induction o generalizing m E with
  | nil =>
    rw [Outline.mirrored, Multiset.zero_add]
    exact ⟨m, rfl, h⟩
  | leaf n text next ih =>
    rw [Outline.mirrored, Multiset.cons_add] at hnodup ⊢
    have hfresh : n.index ∉ E.map Prod.fst := by
      rw [Multiset.map_cons, Multiset.nodup_cons, Multiset.map_add, Multiset.mem_add] at hnodup
      exact fun hmem => hnodup.1 (Or.inr hmem)
    obtain ⟨m₁, hput, h₁⟩ := h.put hfresh ⟨.leaf text, []⟩
    rw [← Multiset.add_cons] at hnodup ⊢
    obtain ⟨m₂, hnext, h₂⟩ := ih h₁ hnodup
    refine ⟨m₂, ?_, h₂⟩
    rw [Mirror.copy, hput]
    exact hnext
  | element n name attributes children next ihc ihn =>
    rw [Outline.mirrored, Multiset.cons_add] at hnodup ⊢
    have hfresh : n.index ∉ E.map Prod.fst := by
      rw [Multiset.map_cons, Multiset.nodup_cons, Multiset.map_add, Multiset.mem_add] at hnodup
      exact fun hmem => hnodup.1 (Or.inr hmem)
    obtain ⟨m₁, hput, h₁⟩ := h.put hfresh ⟨.element name attributes, children.indices⟩
    rw [← Multiset.add_cons, Multiset.add_comm children.mirrored, Multiset.add_assoc] at hnodup ⊢
    have hbelow : (Multiset.map Prod.fst (children.mirrored + ((n.index,
        (⟨.element name attributes, children.indices⟩ : Mirrored)) ::ₘ E))).Nodup := by
      rw [Multiset.map_add] at hnodup
      exact (Multiset.nodup_add.mp hnodup).2.1
    obtain ⟨m₂, hchildren, h₂⟩ := ihc h₁ hbelow
    obtain ⟨m₃, hnext, h₃⟩ := ihn h₂ hnodup
    refine ⟨m₃, ?_, h₃⟩
    simp only [Mirror.copy, hput, bind, Except.bind, hchildren]
    exact hnext

/-- The first node is deleted, and then its children come before the others. -/
theorem delete_cons (h : m.Holds ((i, node) ::ₘ E)) (rest : List Nat) :
    m.delete (i :: rest) = Mirror.delete (m.erase i) (node.children ++ rest) := by
  have hfound := (h.lookup_iff i node).mpr (Multiset.mem_cons_self _ _)
  rw [Mirror.delete]
  split
  · rename_i other hother
    rw [hfound] at hother
    cases hother
    rfl
  · rename_i hnone
    rw [hfound] at hnone
    cases hnone

/-- The nodes of an outline are deleted with all that is below them, before any others. -/
theorem delete_append {o : Outline} (h : m.Holds (o.mirrored + E)) (rest : List Nat) :
    ∃ m' : Mirror, m'.Holds E ∧ m.delete (o.indices ++ rest) = m'.delete rest := by
  induction o generalizing m E rest with
  | nil =>
    rw [Outline.mirrored, Multiset.zero_add] at h
    exact ⟨m, h, rfl⟩
  | leaf n text next ih =>
    rw [Outline.mirrored, Multiset.cons_add] at h
    obtain ⟨m', h', hdelete⟩ := ih h.erase rest
    exact ⟨m', h', (h.delete_cons (next.indices ++ rest)).trans hdelete⟩
  | element n name attributes children next ihc ihn =>
    rw [Outline.mirrored, Multiset.cons_add, Multiset.add_assoc] at h
    obtain ⟨m₁, h₁, hchildren⟩ := ihc h.erase (next.indices ++ rest)
    obtain ⟨m₂, h₂, hnext⟩ := ihn h₁ rest
    exact ⟨m₂, h₂, (h.delete_cons (next.indices ++ rest)).trans (hchildren.trans hnext)⟩

/-- The nodes of an outline are deleted with all that is below them. -/
theorem delete {o : Outline} (h : m.Holds (o.mirrored + E)) : ∃ m', m.delete o.indices = .ok m' ∧ m'.Holds E := by
  obtain ⟨m', h', hdelete⟩ := h.delete_append []
  rw [List.append_nil, Mirror.delete] at hdelete
  exact ⟨m', hdelete, h'⟩

end Mirror.Holds

end LiveMarkup
