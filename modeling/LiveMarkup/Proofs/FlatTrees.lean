import Mathlib
import LiveMarkup.Markup.Json
import LiveMarkup.Proofs.Lasting
import LiveMarkup.Proofs.Replay

/-!
# Flat listings stand for trees

A list of records passes the check exactly if it is the listing of a tree, and of one only (`Record.check_eq_ok_iff`), and so
it is if the counts are added up in 64 bits, where a sum that overflows is refused (`Record.checkWords_eq`). All listings that a
program can come by are such: those that are put together by hand (`Record.withChild_records`), those that are read, and those
of the nodes of a document (`Document.listing_of_carries`). The listing of a node can be put below any node that may have
children, in the same document or in another one, and comes to a node with this listing (`Document.appendTree_of_subtree`).
-/

namespace LiveMarkup

open Json.Number (wordLimit)

/-- The listing of two forests in a row is that of the one and of the other. -/
theorem Forest.records_append (f g : Forest) : (f ++ g).records = f.records ++ g.records := by
  induction f with
  | nil => rfl
  | leaf text next ih => exact congrArg (Record.leaf text :: ·) ih
  | element name attributes children next _ ih =>
    change _ :: (children.records ++ (next ++ g).records) = _
    rw [ih, records, List.cons_append, List.append_assoc]

/-- Two forests in a row have the trees of both. -/
theorem Forest.length_append (f g : Forest) : (f ++ g).length = f.length + g.length := by
  induction f with
  | nil => exact (Nat.zero_add _).symm
  | leaf text next ih =>
    change (next ++ g).length + 1 = next.length + 1 + g.length
    rw [ih, Nat.add_right_comm]
  | element name attributes children next _ ih =>
    change (next ++ g).length + 1 = next.length + 1 + g.length
    rw [ih, Nat.add_right_comm]

/-! ## The check -/

namespace Record

variable {records child : List Record} {t u : Tree} {a : Attribute}

/-- No two trees have the same listing. -/
theorem records_injective (h : t.records = u.records) : t = u := by
  have ht := read_records t
  rw [h, read_records u] at ht
  exact (Except.ok.inj ht).symm

/-- The check accepts the listings of trees and nothing else. -/
theorem check_eq_ok_iff : check 0 1 records = .ok () ↔ ∃! t : Tree, t.records = records := by
  constructor
  · intro h
    obtain ⟨hlength, hrecords⟩ := records_build h
    obtain ⟨t, ht⟩ := List.length_eq_one_iff.mp hlength
    have hread : read records = .ok t := by simp only [read, h, ht]
    have hlisted := read_eq_ok_iff.mp hread
    exact ⟨t, hlisted, fun u hu => records_injective (hu.trans hlisted.symm)⟩
  · rintro ⟨t, rfl, _⟩
    have hread := read_records t
    unfold read at hread
    split at hread
    · cases hread
    · assumption

/-- The sum of two numbers of 64 bits, unless it overflows. -/
def checkedAdd (m n : UInt64) : Option UInt64 :=
  if m.toNat + n.toNat < wordLimit then some (m + n) else none

/-- The check of a listing with numbers of 64 bits. -/
def checkWords (position : Nat) (owed : UInt64) : List Record → Except ListingError Unit
  | [] => if owed = 0 then .ok () else .error .empty
  | record :: rest =>
    if owed = 0 then .error (.outside position)
    else
      match checkedAdd (owed - 1) (.ofNat record.children) with
      | some next => if next < .ofNat (rest.length + 1) then checkWords (position + 1) next rest else .error (.truncated position)
      | none => .error (.truncated position)

/-- A sum that fits a word is the sum. -/
theorem toNat_of_checkedAdd {m n next : UInt64} (h : checkedAdd m n = some next) : next.toNat = m.toNat + n.toNat := by
  unfold checkedAdd at h
  split at h
  · rename_i hlt
    cases h
    rw [UInt64.toNat_add]
    exact Nat.mod_eq_of_lt hlt
  · cases h

/-- A sum that does not fit a word is one that no word holds. -/
theorem le_of_checkedAdd_eq_none {m n : UInt64} (h : checkedAdd m n = none) : wordLimit ≤ m.toNat + n.toNat := by
  unfold checkedAdd at h
  split at h
  · cases h
  · rename_i hlt
    exact Nat.le_of_not_lt hlt

/-- Numbers of 64 bits are enough to check a listing that fits into memory, whatever its records announce: a sum that they do
not hold is one of more nodes than can follow. -/
theorem checkWords_eq (position : Nat) (owed : UInt64) (hcounts : ∀ r ∈ records, r.children < wordLimit)
    (hlength : records.length < wordLimit) : checkWords position owed records = check position owed.toNat records := by
  induction records generalizing position owed with
  | nil =>
    rw [checkWords]
    by_cases hzero : owed = 0
    · rw [if_pos hzero, hzero]
      rfl
    · obtain ⟨k, hk⟩ := Nat.exists_eq_succ_of_ne_zero fun h => hzero (UInt64.toNat_inj.mp h)
      rw [if_neg hzero, hk, check]
  | cons record rest ih =>
    rw [checkWords]
    by_cases hzero : owed = 0
    · rw [if_pos hzero, hzero]
      rfl
    · obtain ⟨k, hk⟩ := Nat.exists_eq_succ_of_ne_zero fun h => hzero (UInt64.toNat_inj.mp h)
      rw [List.length_cons] at hlength
      have hone : (1 : UInt64) ≤ owed := by
        rw [UInt64.le_iff_toNat_le, hk]
        exact Nat.succ_le_succ (Nat.zero_le k)
      have hpaid : (owed - 1).toNat = k := by
        rw [UInt64.toNat_sub_of_le _ _ hone, hk]
        rfl
      have hcount : (UInt64.ofNat record.children).toNat = record.children :=
        UInt64.toNat_ofNat_of_lt' (hcounts record List.mem_cons_self)
      have hroom : (UInt64.ofNat (rest.length + 1)).toNat = rest.length + 1 := UInt64.toNat_ofNat_of_lt' hlength
      rw [if_neg hzero, hk, check]
      cases hadd : checkedAdd (owed - 1) (.ofNat record.children) with
      | none =>
        have hover := le_of_checkedAdd_eq_none hadd
        rw [hpaid, hcount] at hover
        exact (if_neg (by omega)).symm
      | some next =>
        have hnext := toNat_of_checkedAdd hadd
        rw [hpaid, hcount] at hnext
        simp only [UInt64.lt_iff_toNat_lt, hnext, hroom, Nat.lt_succ_iff]
        rw [ih _ _ (fun r hr => hcounts r (List.mem_cons_of_mem _ hr)) (Nat.lt_of_succ_lt hlength), hnext]

/-! ## Listings put together by hand -/

/-- The listing of an element with one more attribute at the end; that of a text stays as it is. -/
def withAttribute (records : List Record) (a : Attribute) : List Record :=
  match records with
  | element name attributes count :: rest => element name (attributes ++ [a]) count :: rest
  | _ => records

/-- The listing of an element with one more child at the end, given by its own listing; that of a text stays as it is. -/
def withChild (records child : List Record) : List Record :=
  match records with
  | element name attributes count :: rest => element name attributes (count + 1) :: (rest ++ child)
  | _ => records

/-- Giving an attribute to the listing of a tree gives the listing of the tree with the attribute. -/
theorem withAttribute_records (t : Tree) (a : Attribute) : withAttribute t.records a = (t.withAttribute a).records := by
  cases t <;> rfl

/-- Putting a listing into another one gives the listing of the tree with the child. -/
theorem withChild_records (t u : Tree) : withChild t.records u.records = (t.withChild u).records := by
  cases t with
  | leaf text => rfl
  | element name attributes children =>
    have hrecords := Forest.records_append children u.forest
    have hlength : (children ++ u.forest).length = children.length + 1 := by
      rw [Forest.length_append]
      cases u <;> rfl
    change Record.element name attributes (children.length + 1) :: (children.records ++ [] ++ u.forest.records) =
      Record.element name attributes (children ++ u.forest).length :: ((children ++ u.forest).records ++ [])
    rw [hlength, hrecords, List.append_nil, List.append_nil]

end Record

/-! ## Listings of the nodes of a document -/

namespace Document

variable {d e : Document} {p n : NodeRef} {o : Outline} {t : OutlineTree}

/-- The record of a node, which is to be below another one. -/
def recordOf (d : Document) (top n : NodeRef) : Except StoreError Record := do
  let below ← (d.children n).mapError .document
  match ← (d.get n).mapError .document with
  | .element name _ =>
    let attributes ← (d.attributes n).mapError .document
    .ok (.element name attributes below.length)
  | .leaf text => .ok (.leaf text)
  | .root => .error (.corrupted (.rootBelow top))

/-- The listing of a node and what is below it, record by record. The root has no listing. -/
def listing (d : Document) (n : NodeRef) : Except StoreError (List Record) := do
  match ← (d.get n).mapError .document with
  | .root => .error (.document (.notAnElement n))
  | _ =>
    let below ← (d.descendants n).mapError .document
    (n :: below).mapM (d.recordOf n)

/-- The record of the first node of an outline that is carried. -/
theorem recordOf_of_carries (h : d.store.Carries p (.cons t o)) (top : NodeRef) : d.recordOf top t.node = .ok (match t.tree with
    | .leaf text => .leaf text
    | .element name attributes children => .element name attributes children.length) := by
  have hattributes := attributes_of_carries h
  rw [recordOf, children_of_carries h, get_of_carries h]
  cases t with
  | leaf n text => rfl
  | element n name pairs below =>
    change d.attributes n = .ok (pairs.map Prod.snd) at hattributes
    have hlength : below.tops.length = below.forest.length := by
      rw [Outline.tops, List.length_map, ← Forest.length_toList, Outline.toList_forest, List.length_map]
    simp only [OutlineTree.node, OutlineTree.payload, OutlineTree.below, OutlineTree.tree, hattributes, hlength, Except.mapError,
      bind, Except.bind]

/-- The nodes of an outline that is carried have the records of its forest. -/
theorem mapM_recordOf (h : d.store.Carries p o) (top : NodeRef) : o.nodes.mapM (d.recordOf top) = .ok o.forest.records := by
  induction o generalizing p with
  | nil => rfl
  | leaf n text next ih =>
    have hfirst : d.recordOf top n = .ok (.leaf text) := recordOf_of_carries (t := .leaf n text) h top
    have hrest := ih (Store.Carries.tail (t := .leaf n text) h)
    rw [Outline.nodes, List.mapM_cons, hfirst, hrest]
    rfl
  | element n name pairs below next ihb ihn =>
    have hfirst : d.recordOf top n = .ok (.element name (pairs.map Prod.snd) below.forest.length) :=
      recordOf_of_carries (t := .element n name pairs below) h top
    have hbelow := ihb (Store.Carries.below (t := .element n name pairs below) h)
    have hnext := ihn (Store.Carries.tail (t := .element n name pairs below) h)
    rw [Outline.nodes, List.mapM_cons, List.mapM_append, hfirst, hbelow, hnext]
    rfl

/-- The listing of the node at the top of a tree that is carried is the listing of the tree. -/
theorem listing_of_carries (h : d.store.Carries p (.ofList [t])) : d.listing t.node = .ok t.tree.records := by
  have hrecords := mapM_recordOf h t.node
  have hnodes : (Outline.ofList [t]).nodes = t.node :: t.below.nodes := by
    rw [Outline.ofList_cons, Outline.nodes_cons, Outline.ofList_nil, Outline.nodes, List.append_nil]
  rw [hnodes, Outline.forest_ofList] at hrecords
  rw [listing, get_of_carries h, descendants_of_carries h]
  cases t with
  | leaf n text => exact hrecords
  | element n name pairs below => exact hrecords

end Document

/-! ## Trees within an outline -/

/-- A tree is part of an outline: it is one of its trees, or part of what is below one of them. -/
inductive OutlineTree.PartOf (t : OutlineTree) : Outline → Prop
  | head {next : Outline} : t.PartOf (.cons t next)
  | tail {u : OutlineTree} {next : Outline} (later : t.PartOf next) : t.PartOf (.cons u next)
  | deeper {u : OutlineTree} {next : Outline} (inside : t.PartOf u.below) : t.PartOf (.cons u next)

/-- Each node of an outline is at the top of a part of it. -/
theorem Outline.exists_partOf {o : Outline} {n : NodeRef} (hn : n ∈ o.nodes) :
    ∃ t : OutlineTree, t.node = n ∧ t.PartOf o := by
  induction o with
  | nil => cases hn
  | leaf m text next ih =>
    rcases List.mem_cons.mp hn with rfl | hnext
    · exact ⟨.leaf n text, rfl, .head⟩
    · obtain ⟨t, ht, hpart⟩ := ih hnext
      exact ⟨t, ht, .tail (u := .leaf m text) hpart⟩
  | element m name pairs below next ihb ihn =>
    rcases List.mem_cons.mp hn with rfl | hrest
    · exact ⟨.element n name pairs below, rfl, .head⟩
    · rcases List.mem_append.mp hrest with hbelow | hnext
      · obtain ⟨t, ht, hpart⟩ := ihb hbelow
        exact ⟨t, ht, .deeper (u := .element m name pairs below) hpart⟩
      · obtain ⟨t, ht, hpart⟩ := ihn hnext
        exact ⟨t, ht, .tail (u := .element m name pairs below) hpart⟩

namespace Store

variable {s s' : Store} {d : DocumentId} {o : Outline} {p n : NodeRef}

/-- The parts of an outline that is carried are carried. -/
theorem Carries.of_partOf {t : OutlineTree} (h : s.Carries p o) (hpart : t.PartOf o) : ∃ q, s.Carries q (.ofList [t]) := by
  induction hpart generalizing p with
  | head => exact ⟨p, h.head⟩
  | tail _ ih => exact ih h.tail
  | deeper _ ih => exact ih h.below

/-- Each node of an outline that is carried is at the top of a tree that is carried. -/
theorem Carries.exists_tree (h : s.Carries p o) (hn : n ∈ o.nodes) : ∃ t q, OutlineTree.node t = n ∧ s.Carries q (.ofList [t]) := by
  obtain ⟨t, ht, hpart⟩ := Outline.exists_partOf hn
  obtain ⟨q, hq⟩ := h.of_partOf hpart
  exact ⟨t, q, ht, hq⟩

/-- A tree can be put below any node that may have children. For each of its records there is one node more. -/
theorem Shows.appendTree (h : s.Shows d o) {node : Node} (hnode : s.node? p = some node)
    (hcontainer : node.payload.isContainer = true) (tree : Tree) :
    ∃ (s' : Store) (t : OutlineTree), t.tree = tree ∧ s.appendTree p tree = .ok (s', t.node) ∧ s'.Carries p (.ofList [t]) ∧
      s'.node? p = some (node.extended [t.node]) ∧ s'.nodes.count = s.nodes.count + tree.records.length := by
  obtain ⟨N, hN⟩ := Multiset.exists_cons_of_mem (h.node?_eq.mp hnode)
  have hold : s.Holds d ((p, node) ::ₘ N) o.attributeEntries := hN ▸ h
  obtain ⟨t, rfl, happend, hnew⟩ := hold.appendTree hcontainer tree
  have hentries : (Outline.ofList [t]).entries p = t.entries p := by
    rw [Outline.ofList_cons, Outline.entries_cons, Outline.ofList_nil, Outline.entries, Multiset.add_zero]
  have hattributes : (Outline.ofList [t]).attributeEntries = t.attributeEntries := by
    rw [Outline.ofList_cons, Outline.attributeEntries_cons, Outline.ofList_nil, Outline.attributeEntries, Multiset.add_zero]
  have hcard : (t.entries p).card = t.tree.records.length := by
    rw [← hentries, ← Multiset.card_map Prod.fst, Outline.map_fst_entries, Multiset.coe_card, ← Outline.size_forest,
      ← Forest.length_records, Outline.forest_ofList]
    rfl
  refine ⟨_, t, rfl, happend, ⟨d, _, _, hnew, ?_, ?_⟩, hnew.node?_eq.mpr (Multiset.mem_cons_self _ _), ?_⟩
  · rw [hentries]
    exact (Multiset.le_add_right _ _).trans (Multiset.le_cons_self _ _)
  · rw [hattributes]
    exact Multiset.le_add_right _ _
  · rw [hnew.count_nodes, hold.count_nodes, Multiset.card_cons, Multiset.card_cons, Multiset.card_add, hcard]
    omega

end Store

/-! ## All listings -/

/-- The listings that a program can come by: those that are put together by hand, those that are read, alone or in an edit, and
those of the nodes of a document. -/
inductive Record.Made : List Record → Prop
  | element (base : String) : Made [.element ⟨"", base⟩ [] 0]
  | leaf (text : String) : Made [.leaf text]
  | withAttribute {records : List Record} (h : Made records) (a : Attribute) : Made (withAttribute records a)
  | withChild {records child : List Record} (h : Made records) (hchild : Made child) : Made (withChild records child)
  | ofText {text : List Char} {records : List Record} {t : Tree}
      (hrecords : (Json.Items.ofText text).items.mapM (ofJson false) = .ok records) (h : Tree.ofText text = .ok t) :
      Made records
  | ofJson {v : Json} {records : List Record} {t : Tree} (hrecords : Json.toList? (ofJson true) v = .ok records)
      (h : Tree.ofJson v = .ok t) : Made records
  | listing {d : Document} {n : NodeRef} {records : List Record} (h : d.Reachable) (hrecords : d.listing n = .ok records) :
      Made records

namespace Record

variable {records : List Record} {t : Tree}

/-- What is read as a tree is read as one. -/
theorem read_of_readTree (h : readTree records = .ok t) : read records = .ok t := by
  unfold readTree at h
  split at h
  · rename_i u hu
    cases h
    exact hu
  · cases h

/-- A listing that is read from a text of its own passes the check. -/
theorem read_of_ofText {text : List Char} (hrecords : (Json.Items.ofText text).items.mapM (ofJson false) = .ok records)
    (h : Tree.ofText text = .ok t) : read records = .ok t := by
  simp only [Tree.ofText, hrecords, bind, Except.bind] at h
  split at h
  · split at h
    · cases h
    · rename_i u hu
      split at h
      · cases h
        exact read_of_readTree hu
      · cases h
  · cases h

end Record

namespace Document

variable {d e : Document} {n p : NodeRef} {records : List Record}

/-- The root has the nodes at the top of the outline for children. -/
theorem Reachable.node_root (h : d.Reachable) : d.node d.root = .ok ⟨.root, none, d.outline.tops⟩ := by
  have hshows := h.shows
  rw [node, show d.store.node? d.root = _ from hshows.root.symm ▸ hshows.root_eq]

/-- The root of a document has the payload of a root. -/
theorem Reachable.get_root (h : d.Reachable) : d.get d.root = .ok .root := by
  rw [get, h.node_root]
  rfl

/-- The children of the root are the tops of what is below it. -/
theorem Reachable.children_root (h : d.Reachable) : d.children d.root = .ok d.outline.tops := by
  rw [children, h.node_root]
  rfl

/-- What is read below the root is the outline of the document. -/
theorem Reachable.outlineBelow_root (h : d.Reachable) : d.outlineBelow d.root = .ok d.outline := by
  rw [outlineBelow, h.children_root]
  exact congrArg Except.ok h.shows.outline_tops

/-- The forest that the root stands for is that of the document. -/
theorem Reachable.forestAt_root (h : d.Reachable) : d.forestAt d.root = .ok d.forest := by
  rw [forestAt, h.get_root]
  simp only [bind, Except.bind, h.outlineBelow_root]
  rfl

/-- A node that is below the root is at the top of a tree that is carried. -/
theorem Reachable.exists_tree (h : d.Reachable) (hn : d.Has n) (hroot : n ≠ d.root) :
    ∃ t q, OutlineTree.node t = n ∧ d.store.Carries q (.ofList [t]) := by
  have hshows := h.shows
  have hbelow : n ∈ d.outline.nodes := by
    have hwalk := hshows.mem_nodes_iff.mpr (has_iff.mp hn)
    exact (List.mem_cons.mp hwalk).resolve_left fun heq => hroot (heq.trans hshows.root.symm)
  exact (Store.Carries.of_shows hshows).exists_tree hbelow

/-- Where there is a listing, it is that of a tree. -/
theorem Reachable.listing_eq_ok (h : d.Reachable) (hrecords : d.listing n = .ok records) : ∃ t : Tree, t.records = records := by
  have hn : d.Has n := by
    rw [listing, get] at hrecords
    cases hnode : d.node n with
    | ok node => exact ⟨node, hnode⟩
    | error e =>
      rw [hnode] at hrecords
      cases hrecords
  have hroot : n ≠ d.root := by
    rintro rfl
    have hget : d.get d.root = .ok .root := by
      rw [get, node, show d.store.node? d.root = _ from h.shows.root.symm ▸ h.shows.root_eq]
      rfl
    rw [listing, hget] at hrecords
    cases hrecords
  obtain ⟨t, q, rfl, hcarried⟩ := h.exists_tree hn hroot
  exact ⟨t.tree, Except.ok.inj ((listing_of_carries hcarried).symm.trans hrecords)⟩

/-- What is at a node can be put below a node of a document, be it the same one or another. All records of the listing are
used, one for each new node, and the new child has the listing that the node has. -/
def Copies (d : Document) (n : NodeRef) (e : Document) (p : NodeRef) : Prop :=
  ∃ (t : Tree) (store : Store) (child : NodeRef) (siblings : List NodeRef), d.listing n = .ok t.records ∧ d.subtree n = .ok t ∧
    e.store.appendTree p t = .ok (store, child) ∧
    (∀ path, e.store.resolve path = .ok p → e.store.applyEdit (.append path t) = .ok (store, .added child p)) ∧
    store.nodes.count = e.store.nodes.count + t.records.length ∧
    e.children p = .ok siblings ∧ ({ e with store } : Document).children p = .ok (siblings ++ [child]) ∧
    ({ e with store } : Document).listing child = .ok t.records ∧ ({ e with store } : Document).subtree child = .ok t

/-- Every tree of a document can be copied below every element, and below every root. -/
theorem copies_of_reachable (h : d.Reachable) (h' : e.Reachable) (hn : d.Has n) (hroot : n ≠ d.root) {payload : Payload}
    (hp : e.get p = .ok payload) (hcontainer : payload.isContainer = true) : d.Copies n e p := by
  obtain ⟨t, q, rfl, hcarried⟩ := h.exists_tree hn hroot
  obtain ⟨node, hnode, hpayload⟩ := exists_of_bind_eq_ok hp
  cases hpayload
  have hfound : e.store.node? p = some node := node_eq_ok_iff.mp hnode
  obtain ⟨store, made, hmade, happend, hcarried', hnode', hcount⟩ := h'.shows.appendTree hfound hcontainer t.tree
  have hlisting : ({ e with store } : Document).listing made.node = .ok made.tree.records := listing_of_carries hcarried'
  have hsubtree : ({ e with store } : Document).subtree made.node = .ok made.tree := subtree_of_carries hcarried'
  rw [hmade] at hlisting hsubtree
  refine ⟨t.tree, store, made.node, node.children, listing_of_carries hcarried, subtree_of_carries hcarried, happend, ?_, hcount,
    ?_, ?_, hlisting, hsubtree⟩
  · intro path hpath
    rw [Store.applyEdit_eq hpath, Store.applyAt, Store.node, hfound]
    simp only [EditFault.ofStore, bind, Except.bind, hcontainer, if_true, happend]
  · rw [children, hnode]
    rfl
  · rw [children, Document.node, hnode']
    rfl

end Document

namespace Record

/-- Every listing that a program can come by is that of a tree. -/
theorem Made.exists_tree (h : Made records) : ∃ t : Tree, t.records = records := by
  induction h with
  | element base => exact ⟨.element ⟨"", base⟩ [] .nil, rfl⟩
  | leaf text => exact ⟨.leaf text, rfl⟩
  | withAttribute _ a ih =>
    obtain ⟨t, rfl⟩ := ih
    exact ⟨t.withAttribute a, (withAttribute_records t a).symm⟩
  | withChild _ _ ih ihchild =>
    obtain ⟨t, rfl⟩ := ih
    obtain ⟨u, rfl⟩ := ihchild
    exact ⟨t.withChild u, (withChild_records t u).symm⟩
  | @ofText text records t hrecords h => exact ⟨t, read_eq_ok_iff.mp (read_of_ofText hrecords h)⟩
  | @ofJson v records t hrecords h =>
    refine ⟨t, read_eq_ok_iff.mp (read_of_readTree ?_)⟩
    simp only [Tree.ofJson, hrecords, bind, Except.bind] at h
    exact h
  | listing h hrecords => exact h.listing_eq_ok hrecords

end Record

/-- Flat listings and trees are the same thing. The check tells them, and adds up no more than fits 64 bits; whatever a program
has is the listing of one tree; and listings of nodes can be put below others. -/
theorem listings_are_trees :
    (∀ records, Record.check 0 1 records = .ok () ↔ ∃! t : Tree, t.records = records) ∧
    (∀ records t, Record.read records = .ok t ↔ t.records = records) ∧
    (∀ records : List Record, records.length < wordLimit → (∀ r ∈ records, r.children < wordLimit) →
      Record.checkWords 0 1 records = Record.check 0 1 records) ∧
    (∀ records, Record.Made records → ∃! t : Tree, t.records = records) ∧
    ∀ (d e : Document) (n p : NodeRef) (payload : Payload), d.Reachable → e.Reachable → d.Has n → n ≠ d.root →
      e.get p = .ok payload → payload.isContainer = true → d.Copies n e p := by
  refine ⟨fun _ => Record.check_eq_ok_iff, fun _ _ => Record.read_eq_ok_iff, fun records hlength hcounts => ?_, ?_, ?_⟩
  · exact Record.checkWords_eq 0 1 hcounts hlength
  · intro records h
    obtain ⟨t, ht⟩ := h.exists_tree
    exact ⟨t, ht, fun u hu => Record.records_injective (hu.trans ht.symm)⟩
  · intro d e n p payload h h' hn hroot hp hcontainer
    exact Document.copies_of_reachable h h' hn hroot hp hcontainer

/-- An element with a class, an element and a text. -/
def withClass : Document :=
  (Document.empty ⟨1⟩).after (.applyEdits [.append [] (.element ⟨"", "p"⟩ [⟨⟨"", "class"⟩, "x"⟩]
    (.element ⟨"", "b"⟩ [] (.leaf "hi" .nil) (.leaf "tail" .nil)))])

/-- The element can be put into an empty document. A listing that announces more nodes than there can be is refused. -/
theorem class_is_copied : withClass.Copies ⟨⟨1⟩, ⟨1, 0⟩⟩ (Document.empty ⟨2⟩) ⟨⟨2⟩, ⟨0, 0⟩⟩ ∧
    withClass.listing ⟨⟨1⟩, ⟨1, 0⟩⟩ = .ok [.element ⟨"", "p"⟩ [⟨⟨"", "class"⟩, "x"⟩] 2, .element ⟨"", "b"⟩ [] 1, .leaf "hi",
      .leaf "tail"] ∧
    Record.checkWords 0 1 [.element ⟨"", "p"⟩ [] 18446744073709551615, .leaf "hi"] = .error (.truncated 0) := by
  obtain ⟨_, _, hwords, _, hcopies⟩ := listings_are_trees
  have hnode : withClass.Has ⟨⟨1⟩, ⟨1, 0⟩⟩ :=
    ⟨⟨.element ⟨"", "p"⟩ [⟨⟨1⟩, ⟨0, 0⟩⟩], some ⟨⟨1⟩, ⟨0, 0⟩⟩, [⟨⟨1⟩, ⟨2, 0⟩⟩, ⟨⟨1⟩, ⟨4, 0⟩⟩]⟩, by cbv⟩
  have hroot : withClass.root = ⟨⟨1⟩, ⟨0, 0⟩⟩ := by cbv
  refine ⟨hcopies _ _ _ _ .root (.applyEdits (.empty ⟨1⟩) _) (.empty ⟨2⟩) hnode ?_ rfl rfl, by cbv, ?_⟩
  · rw [hroot]
    decide
  · rw [hwords _ (by decide) (by decide)]
    rfl

end LiveMarkup
