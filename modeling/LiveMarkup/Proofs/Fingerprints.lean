import Mathlib
import LiveMarkup.Proofs.FlatTrees

/-!
# Fingerprints tell trees apart

What is hashed for a node can be read back in one way only. Numbers are written in eight bytes and texts after their lengths,
so where two transcripts agree with whatever follows them, their first items agree and so does the rest (`Transcript.number_cancel`,
`Transcript.text_cancel`); a forest is cancelled in the same way once it is known how many trees it has, which is what stands in
front of it (`Forest.transcript_cancel`). The hash is fed node by node (`Document.walkBytes`), and what it is fed is the
transcript of what stands at the node (`Document.Reachable.transcribed`).
-/

namespace LiveMarkup

open Json.Number (wordLimit)

/-- The bytes of an array in order, as its reader gives them. -/
theorem toList_eq_data (bytes : ByteArray) : bytes.toList = bytes.data.toList := by
  have hloop : ∀ i read, ByteArray.toList.loop bytes i read = read.reverse ++ bytes.data.toList.drop i := by
    intro i read
    fun_induction ByteArray.toList.loop bytes i read with
    | case1 i read hlt ih =>
      have hget : bytes.get! i = bytes.data[i] := getElem!_pos bytes.data i hlt
      rw [ih, List.reverse_cons, List.append_assoc, hget, List.drop_eq_getElem_cons hlt]
      rfl
    | case2 i read hge =>
      rw [List.drop_eq_nil_of_le (Nat.le_of_not_lt hge), List.append_nil]
  rw [ByteArray.toList, hloop]
  rfl

/-! ## One way to read -/

namespace Transcript

variable {s t : List UInt8}

theorem length_lowBytes (count n : Nat) : (lowBytes count n).length = count := by
  induction count generalizing n with
  | zero => rfl
  | succ count ih => rw [lowBytes, List.length_cons, ih]

/-- The low bytes of a number tell it from all others that need no more of them. -/
theorem lowBytes_injective {count m n : Nat} (hm : m < 256 ^ count) (hn : n < 256 ^ count)
    (h : lowBytes count m = lowBytes count n) : m = n := by
  induction count generalizing m n with
  | zero => omega
  | succ count ih =>
    rw [lowBytes, lowBytes] at h
    obtain ⟨hlow, hhigh⟩ := List.cons.inj h
    have hrest := ih (Nat.div_lt_of_lt_mul (by rwa [← Nat.pow_succ'])) (Nat.div_lt_of_lt_mul (by rwa [← Nat.pow_succ'])) hhigh
    have hfirst : m % 256 = n % 256 := by
      have hbytes := congrArg UInt8.toNat hlow
      rwa [UInt8.toNat_ofNat', UInt8.toNat_ofNat'] at hbytes
    rw [← Nat.div_add_mod m 256, ← Nat.div_add_mod n 256, hrest, hfirst]

/-- Two numbers of a word are told apart by what begins with them. -/
theorem number_cancel {m n : Nat} (hm : m < wordLimit) (hn : n < wordLimit) (h : number m ++ s = number n ++ t) :
    m = n ∧ s = t := by
  obtain ⟨hnumber, hrest⟩ := List.append_inj h (by rw [number, number, length_lowBytes, length_lowBytes])
  exact ⟨lowBytes_injective hm hn hnumber, hrest⟩

/-- Two texts are told apart by what begins with them. -/
theorem text_cancel {a b : String} (ha : a.utf8ByteSize < wordLimit) (hb : b.utf8ByteSize < wordLimit)
    (h : text a ++ s = text b ++ t) : a = b ∧ s = t := by
  rw [text, text, List.append_assoc, List.append_assoc] at h
  obtain ⟨hsize, h⟩ := number_cancel ha hb h
  have hlength : a.toUTF8.toList.length = b.toUTF8.toList.length := by
    rw [toList_eq_data, toList_eq_data]
    exact hsize
  obtain ⟨hbytes, hrest⟩ := List.append_inj h hlength
  rw [toList_eq_data, toList_eq_data] at hbytes
  exact ⟨String.toByteArray_inj.mp (ByteArray.ext (Array.toList_inj.mp hbytes)), hrest⟩

end Transcript

/-- The lengths of the texts of a name. -/
def QName.counts (q : QName) : List Nat :=
  [q.space.utf8ByteSize, q.base.utf8ByteSize]

/-- The lengths of the texts of an attribute. -/
def Attribute.counts (a : Attribute) : List Nat :=
  a.name.counts ++ [a.value.utf8ByteSize]

/-- All lengths and counts that a transcript of the forest writes. -/
def Forest.counts : Forest → List Nat
  | nil => []
  | leaf text next => text.utf8ByteSize :: next.counts
  | element name attributes children next =>
    name.counts ++ attributes.length :: (attributes.flatMap Attribute.counts ++
      children.length :: (children.counts ++ next.counts))

namespace Transcript

variable {s t : List UInt8}

/-- Two names are told apart by what begins with them. -/
theorem name_cancel {p q : QName} (hp : ∀ k ∈ p.counts, k < wordLimit) (hq : ∀ k ∈ q.counts, k < wordLimit)
    (h : name p ++ s = name q ++ t) : p = q ∧ s = t := by
  obtain ⟨hpspace, hpbase, -⟩ := List.forall_mem_cons.mp hp |>.imp_right List.forall_mem_cons.mp
  obtain ⟨hqspace, hqbase, -⟩ := List.forall_mem_cons.mp hq |>.imp_right List.forall_mem_cons.mp
  obtain ⟨space, base⟩ := p
  obtain ⟨space', base'⟩ := q
  rw [name, name, List.append_assoc, List.append_assoc] at h
  obtain ⟨rfl, hafter⟩ := text_cancel hpspace hqspace h
  obtain ⟨rfl, hrest⟩ := text_cancel hpbase hqbase hafter
  exact ⟨rfl, hrest⟩

/-- Two attributes are told apart by what begins with them. -/
theorem ofAttribute_cancel {a b : Attribute} (ha : ∀ k ∈ a.counts, k < wordLimit) (hb : ∀ k ∈ b.counts, k < wordLimit)
    (h : ofAttribute a ++ s = ofAttribute b ++ t) : a = b ∧ s = t := by
  obtain ⟨hname, hvalue⟩ := List.forall_mem_append.mp ha
  obtain ⟨hname', hvalue'⟩ := List.forall_mem_append.mp hb
  obtain ⟨q, value⟩ := a
  obtain ⟨q', value'⟩ := b
  rw [ofAttribute, ofAttribute, List.append_assoc, List.append_assoc] at h
  obtain ⟨rfl, hafter⟩ := name_cancel hname hname' h
  obtain ⟨rfl, hrest⟩ := text_cancel (hvalue _ List.mem_cons_self) (hvalue' _ List.mem_cons_self) hafter
  exact ⟨rfl, hrest⟩

/-- Attributes are told apart once it is known how many there are. -/
theorem attributes_cancel {as bs : List Attribute} (hlength : as.length = bs.length)
    (has : ∀ k ∈ as.flatMap Attribute.counts, k < wordLimit) (hbs : ∀ k ∈ bs.flatMap Attribute.counts, k < wordLimit)
    (h : as.flatMap ofAttribute ++ s = bs.flatMap ofAttribute ++ t) : as = bs ∧ s = t := by
  induction as generalizing bs with
  | nil =>
    obtain rfl := List.eq_nil_of_length_eq_zero hlength.symm
    exact ⟨rfl, h⟩
  | cons a as ih =>
    obtain ⟨b, bs, rfl⟩ := List.exists_cons_of_length_eq_add_one hlength.symm
    rw [List.flatMap_cons] at has hbs
    obtain ⟨ha, hmore⟩ := List.forall_mem_append.mp has
    obtain ⟨hb, hmore'⟩ := List.forall_mem_append.mp hbs
    rw [List.flatMap_cons, List.flatMap_cons, List.append_assoc, List.append_assoc] at h
    obtain ⟨rfl, hafter⟩ := ofAttribute_cancel ha hb h
    obtain ⟨rfl, hrest⟩ := ih (Nat.succ.inj hlength) hmore hmore' hafter
    exact ⟨rfl, hrest⟩

end Transcript

namespace Forest

open Transcript

/-- A forest and what follows its transcript can be told once it is known how many trees it has. The induction goes along the
bytes: the tag says what the next node is, and the count after its attributes how many trees are below it. -/
theorem transcript_cancel {f g : Forest} {s t : List UInt8} (hlength : f.length = g.length)
    (hf : ∀ k ∈ f.counts, k < wordLimit) (hg : ∀ k ∈ g.counts, k < wordLimit)
    (h : f.transcript ++ s = g.transcript ++ t) : f = g ∧ s = t := by
  induction f generalizing g s t with
  | nil =>
    cases g with
    | nil => exact ⟨rfl, h⟩
    | leaf | element => cases hlength
  | leaf text next ih =>
    cases g with
    | nil => cases hlength
    | element name attributes children next' =>
      rw [transcript_leaf, transcript_element, List.cons_append, List.cons_append] at h
      exact absurd (List.cons.inj h).1 (by decide)
    | leaf text' next' =>
      obtain ⟨htext, hnext⟩ := List.forall_mem_cons.mp hf
      obtain ⟨htext', hnext'⟩ := List.forall_mem_cons.mp hg
      rw [transcript_leaf, transcript_leaf, List.cons_append, List.cons_append] at h
      have hbytes := (List.cons.inj h).2
      simp only [List.append_assoc] at hbytes
      obtain ⟨rfl, hafter⟩ := text_cancel htext htext' hbytes
      obtain ⟨rfl, hrest⟩ := ih (Nat.succ.inj hlength) hnext hnext' (List.append_cancel_left hafter)
      exact ⟨rfl, hrest⟩
  | element name attributes children next ihc ihn =>
    cases g with
    | nil => cases hlength
    | leaf text next' =>
      rw [transcript_leaf, transcript_element, List.cons_append, List.cons_append] at h
      exact absurd (List.cons.inj h).1 (by decide)
    | element name' attributes' children' next' =>
      obtain ⟨hname, hf⟩ := List.forall_mem_append.mp hf
      obtain ⟨hcount, hf⟩ := List.forall_mem_cons.mp hf
      obtain ⟨hattributes, hf⟩ := List.forall_mem_append.mp hf
      obtain ⟨hbelow, hf⟩ := List.forall_mem_cons.mp hf
      obtain ⟨hchildren, hnext⟩ := List.forall_mem_append.mp hf
      obtain ⟨hname', hg⟩ := List.forall_mem_append.mp hg
      obtain ⟨hcount', hg⟩ := List.forall_mem_cons.mp hg
      obtain ⟨hattributes', hg⟩ := List.forall_mem_append.mp hg
      obtain ⟨hbelow', hg⟩ := List.forall_mem_cons.mp hg
      obtain ⟨hchildren', hnext'⟩ := List.forall_mem_append.mp hg
      rw [transcript_element, transcript_element, List.cons_append, List.cons_append] at h
      have hbytes := (List.cons.inj h).2
      simp only [List.append_assoc] at hbytes
      obtain ⟨rfl, hafterName⟩ := name_cancel hname hname' hbytes
      obtain ⟨hmany, hafterCount⟩ := number_cancel hcount hcount' hafterName
      obtain ⟨rfl, hafterAttributes⟩ := attributes_cancel hmany hattributes hattributes' hafterCount
      obtain ⟨hmany', hafterBelow⟩ := number_cancel hbelow hbelow' hafterAttributes
      obtain ⟨rfl, hafterChildren⟩ := ihc hmany' hchildren hchildren' hafterBelow
      obtain ⟨rfl, hrest⟩ := ihn (Nat.succ.inj hlength) hnext hnext' hafterChildren
      exact ⟨rfl, hrest⟩

end Forest

/-! ## What stands at a node -/

/-- What stands at a node, handles aside: the whole document at the root, a tree at any other node. -/
inductive Part
  | whole (below : Forest)
  | tree (t : Tree)
deriving DecidableEq, Repr

namespace Part

/-- The bytes that stand for it. -/
def transcript : Part → List UInt8
  | whole below => below.rootTranscript
  | tree t => t.forest.transcript

/-- All lengths and counts in it. -/
def counts : Part → List Nat
  | whole below => below.length :: below.counts
  | tree t => t.forest.counts

/-- No tree is written as a root is. -/
theorem transcript_tree_ne_root (t : Tree) (bytes : List UInt8) : t.forest.transcript ≠ Transcript.rootTag :: bytes := by
  intro h
  cases t with
  | leaf text =>
    rw [Tree.forest, Forest.cons, Forest.transcript_leaf] at h
    exact absurd (List.cons.inj h).1 (by decide)
  | element name attributes children =>
    rw [Tree.forest, Forest.cons, Forest.transcript_element] at h
    exact absurd (List.cons.inj h).1 (by decide)

/-- Different parts have different transcripts. -/
theorem transcript_injective {p q : Part} (hp : ∀ k ∈ p.counts, k < wordLimit) (hq : ∀ k ∈ q.counts, k < wordLimit)
    (h : p.transcript = q.transcript) : p = q := by
  cases p with
  | whole f =>
    cases q with
    | tree t => exact absurd h.symm (transcript_tree_ne_root t _)
    | whole g =>
      obtain ⟨hlength, hf⟩ := List.forall_mem_cons.mp hp
      obtain ⟨hlength', hg⟩ := List.forall_mem_cons.mp hq
      obtain ⟨heq, h⟩ := Transcript.number_cancel hlength hlength' (List.cons.inj h).2
      obtain ⟨rfl, -⟩ := Forest.transcript_cancel heq hf hg (congrArg (· ++ []) h)
      rfl
  | tree t =>
    cases q with
    | whole g => exact absurd h (transcript_tree_ne_root t _)
    | tree u =>
      have hlength : t.forest.length = u.forest.length := by
        cases t <;> cases u <;> rfl
      obtain ⟨heq, -⟩ := Forest.transcript_cancel hlength hp hq (congrArg (· ++ []) h)
      cases t <;> cases u <;> cases heq <;> rfl

end Part

/-- The bytes that stand for the node of a tree alone. -/
def Tree.topBytes : Tree → List UInt8
  | leaf s => Transcript.leafTag :: Transcript.text s ++ Transcript.number 0
  | element q attributes children =>
    Transcript.elementTag :: (Transcript.name q ++ Transcript.number attributes.length ++
      attributes.flatMap Transcript.ofAttribute) ++ Transcript.number children.length

namespace Document

open Transcript

/-- What stands at a node. -/
def part (d : Document) (n : NodeRef) : Except DocumentError Part := do
  match ← d.get n with
  | .root => return .whole (← d.forestAt n)
  | _ => return .tree (← d.subtree n)

/-- The bytes that the hash is fed for one node: what it is, and the number of its children. -/
def nodeBytes (d : Document) (n : NodeRef) : Except DocumentError (List UInt8) := do
  let own ← match ← d.get n with
    | .root => .ok [rootTag]
    | .leaf s => .ok (leafTag :: text s)
    | .element q refs => do
      let attributes ← refs.mapM d.attributeOf
      .ok (elementTag :: (name q ++ number refs.length ++ attributes.flatMap ofAttribute))
  let below ← d.children n
  return own ++ number below.length

/-- The bytes that the hash is fed for a node and all below it, one node after the other in document order. -/
def walkBytes (d : Document) (n : NodeRef) : Except DocumentError (List UInt8) := do
  let below ← d.descendants n
  return (← (n :: below).mapM d.nodeBytes).flatten

variable {d e : Document} {n m p : NodeRef} {o : Outline} {t : OutlineTree}

/-- The bytes of the first node of an outline that is carried. -/
theorem nodeBytes_of_carries (h : d.store.Carries p (.cons t o)) : d.nodeBytes t.node = .ok t.tree.topBytes := by
  rw [nodeBytes, children_of_carries h, get_of_carries h]
  cases t with
  | leaf n s => rfl
  | element n q pairs below =>
    have hattributes : (pairs.map Prod.fst).mapM d.attributeOf = .ok (pairs.map Prod.snd) :=
      mapM_attributeOf fun pair hpair => h.attribute? hpair
    have hlength : below.tops.length = below.forest.length := by
      rw [Outline.tops, List.length_map, ← Forest.length_toList, Outline.toList_forest, List.length_map]
    simp only [OutlineTree.payload, OutlineTree.below, OutlineTree.tree, hattributes, hlength, bind, Except.bind]
    rw [Tree.topBytes, List.length_map, List.length_map]
    rfl

/-- The bytes of the nodes of an outline that is carried are the transcript of its forest. -/
theorem flatten_nodeBytes (h : d.store.Carries p o) :
    ∃ bytes, o.nodes.mapM d.nodeBytes = .ok bytes ∧ bytes.flatten = o.forest.transcript := by
  induction o generalizing p with
  | nil => exact ⟨[], rfl, rfl⟩
  | leaf n s next ih =>
    have hfirst : d.nodeBytes n = .ok (Tree.leaf s).topBytes := nodeBytes_of_carries (t := .leaf n s) h
    obtain ⟨bytes, hbytes, hflatten⟩ := ih (Store.Carries.tail (t := .leaf n s) h)
    refine ⟨(Tree.leaf s).topBytes :: bytes, ?_, ?_⟩
    · rw [Outline.nodes, List.mapM_cons, hfirst, hbytes]
      rfl
    · rw [List.flatten_cons, hflatten, Outline.forest, Forest.transcript_leaf]
      simp only [Tree.topBytes, List.cons_append, List.append_assoc]
  | element n q pairs below next ihb ihn =>
    have hfirst : d.nodeBytes n = .ok (OutlineTree.element n q pairs below).tree.topBytes :=
      nodeBytes_of_carries (t := .element n q pairs below) h
    obtain ⟨inner, hinner, hflattenInner⟩ := ihb (Store.Carries.below (t := .element n q pairs below) h)
    obtain ⟨later, hlater, hflattenLater⟩ := ihn (Store.Carries.tail (t := .element n q pairs below) h)
    refine ⟨(OutlineTree.element n q pairs below).tree.topBytes :: (inner ++ later), ?_, ?_⟩
    · rw [Outline.nodes, List.mapM_cons, List.mapM_append, hfirst, hinner, hlater]
      rfl
    · rw [List.flatten_cons, List.flatten_append, hflattenInner, hflattenLater, Outline.forest, Forest.transcript_element]
      simp only [OutlineTree.tree, Tree.topBytes, List.cons_append, List.append_assoc]

/-- The hash is fed the transcript of what stands at a node, one node after the other. -/
structure Transcribed (d : Document) (n : NodeRef) (p : Part) : Prop where
  part : d.part n = .ok p
  fed : d.walkBytes n = .ok p.transcript
  transcript : d.transcript n = .ok p.transcript
  fingerprint : d.fingerprint n = .ok (Blake3.hash64 p.transcript)

/-- A node below the root is transcribed as its tree. -/
theorem transcribed_of_carries (h : d.store.Carries p (.ofList [t])) : d.Transcribed t.node (.tree t.tree) := by
  have hforest : d.forestAt t.node = .ok t.tree.forest := forestAt_of_carries h
  have hnodes : (Outline.ofList [t]).nodes = t.node :: t.below.nodes := by
    rw [Outline.ofList_cons, Outline.nodes_cons, Outline.ofList_nil, Outline.nodes, List.append_nil]
  obtain ⟨bytes, hbytes, hflatten⟩ := flatten_nodeBytes h
  rw [Outline.forest_ofList] at hflatten
  have htranscript : d.transcript t.node = .ok t.tree.forest.transcript := by
    rw [transcript, get_of_carries h, hforest]
    cases t <;> rfl
  refine ⟨?_, ?_, htranscript, ?_⟩
  · rw [part, get_of_carries h, subtree_of_carries h]
    cases t <;> rfl
  · rw [walkBytes, descendants_of_carries h]
    simp only [bind, Except.bind, ← hnodes, hbytes]
    exact congrArg Except.ok hflatten
  · rw [fingerprint, htranscript]
    rfl

/-- The root is transcribed as the whole document. -/
theorem transcribed_root (h : d.Reachable) : d.Transcribed d.root (.whole d.forest) := by
  have hshows := h.shows
  have hget := h.get_root
  have hchildren := h.children_root
  have hbelow := h.outlineBelow_root
  have hforest := h.forestAt_root
  have hlength : d.outline.tops.length = d.forest.length := by
    rw [Outline.tops, List.length_map, forest, ← Forest.length_toList, Outline.toList_forest, List.length_map]
  have htranscript : d.transcript d.root = .ok d.forest.rootTranscript := by
    rw [transcript, hget]
    simp only [bind, Except.bind, hforest]
    rfl
  refine ⟨?_, ?_, htranscript, ?_⟩
  · rw [part, hget]
    simp only [bind, Except.bind, hforest]
    rfl
  · obtain ⟨bytes, hbytes, hflatten⟩ := flatten_nodeBytes (Store.Carries.of_shows hshows)
    have hfirst : d.nodeBytes d.root = .ok (rootTag :: number d.forest.length) := by
      rw [nodeBytes, hget, hchildren, ← hlength]
      rfl
    have hdescendants : d.descendants d.root = .ok d.outline.nodes := by
      rw [descendants, hbelow]
      rfl
    rw [walkBytes, hdescendants]
    simp only [bind, Except.bind, List.mapM_cons, hfirst, hbytes]
    exact congrArg (fun rest => Except.ok (rootTag :: (number d.forest.length ++ rest))) hflatten
  · rw [fingerprint, htranscript]
    rfl

/-- What stands at a node of a document is what is hashed for it. -/
theorem Reachable.transcribed (h : d.Reachable) (hn : d.Has n) : ∃ part, d.Transcribed n part := by
  by_cases hroot : n = d.root
  · exact ⟨_, hroot ▸ transcribed_root h⟩
  · obtain ⟨t, p, rfl, hcarried⟩ := h.exists_tree hn hroot
    exact ⟨_, transcribed_of_carries hcarried⟩

/-- The bytes that are hashed for two nodes, of one document or of two, are the same exactly if the same stands at both, provided
that all lengths and counts fit 64 bits. So handles have no part in a fingerprint, and if different parts have one fingerprint,
then it is the hash that has one value for two different strings of bytes. -/
theorem fingerprints_tell_parts (hd : d.Reachable) (he : e.Reachable) (hn : d.Has n) (hm : e.Has m) :
    ∃ p q : Part, d.Transcribed n p ∧ e.Transcribed m q ∧
      (p = q → p.transcript = q.transcript ∧ d.fingerprint n = e.fingerprint m) ∧
      ((∀ k ∈ p.counts ++ q.counts, k < wordLimit) →
        (p.transcript = q.transcript ↔ p = q) ∧
        (p ≠ q → d.fingerprint n = e.fingerprint m →
          p.transcript ≠ q.transcript ∧ Blake3.hash64 p.transcript = Blake3.hash64 q.transcript)) := by
  obtain ⟨p, hp⟩ := hd.transcribed hn
  obtain ⟨q, hq⟩ := he.transcribed hm
  refine ⟨p, q, hp, hq, ?_, ?_⟩
  · rintro rfl
    exact ⟨rfl, hp.fingerprint.trans hq.fingerprint.symm⟩
  · intro hcounts
    obtain ⟨hpcounts, hqcounts⟩ := List.forall_mem_append.mp hcounts
    have hinjective : p.transcript = q.transcript → p = q := Part.transcript_injective hpcounts hqcounts
    refine ⟨⟨hinjective, congrArg Part.transcript⟩, ?_⟩
    intro hne hsame
    rw [hp.fingerprint, hq.fingerprint] at hsame
    exact ⟨mt hinjective hne, Except.ok.inj hsame⟩

/-- The element with a class again, behind a text in another document. -/
def classBehindText : Document :=
  (Document.empty ⟨2⟩).after (.applyEdits [.append [] (.leaf "x"),
    .append [] (.element ⟨"", "p"⟩ [⟨⟨"", "class"⟩, "x"⟩] (.element ⟨"", "b"⟩ [] (.leaf "hi" .nil) (.leaf "tail" .nil)))])

/-- The element has one fingerprint in both documents, whatever its handles. What is hashed for the text below it is not what
is hashed for the text before the other. -/
theorem class_has_one_fingerprint :
    (withClass.fingerprint ⟨⟨1⟩, ⟨1, 0⟩⟩ = classBehindText.fingerprint ⟨⟨2⟩, ⟨2, 0⟩⟩ ∧
      withClass.walkBytes ⟨⟨1⟩, ⟨1, 0⟩⟩ = classBehindText.walkBytes ⟨⟨2⟩, ⟨2, 0⟩⟩) ∧
    withClass.walkBytes ⟨⟨1⟩, ⟨4, 0⟩⟩ ≠ classBehindText.walkBytes ⟨⟨2⟩, ⟨1, 0⟩⟩ := by
  have hd : withClass.Reachable := .applyEdits (.empty ⟨1⟩) _
  have he : classBehindText.Reachable := .applyEdits (.empty ⟨2⟩) _
  refine ⟨?_, ?_⟩
  · have hn : withClass.Has ⟨⟨1⟩, ⟨1, 0⟩⟩ := ⟨_, by cbv⟩
    have hm : classBehindText.Has ⟨⟨2⟩, ⟨2, 0⟩⟩ := ⟨_, by cbv⟩
    have hparts : withClass.part ⟨⟨1⟩, ⟨1, 0⟩⟩ = classBehindText.part ⟨⟨2⟩, ⟨2, 0⟩⟩ := by cbv
    obtain ⟨p, q, hp, hq, hsame, -⟩ := fingerprints_tell_parts hd he hn hm
    obtain ⟨htranscripts, hfingerprints⟩ := hsame (Except.ok.inj (hp.part.symm.trans (hparts.trans hq.part)))
    exact ⟨hfingerprints, hp.fed.trans ((congrArg Except.ok htranscripts).trans hq.fed.symm)⟩
  · have hn : withClass.Has ⟨⟨1⟩, ⟨4, 0⟩⟩ := ⟨_, by cbv⟩
    have hm : classBehindText.Has ⟨⟨2⟩, ⟨1, 0⟩⟩ := ⟨_, by cbv⟩
    have htail : withClass.part ⟨⟨1⟩, ⟨4, 0⟩⟩ = .ok (.tree (.leaf "tail")) := by cbv
    have hx : classBehindText.part ⟨⟨2⟩, ⟨1, 0⟩⟩ = .ok (.tree (.leaf "x")) := by cbv
    obtain ⟨p, q, hp, hq, -, htell⟩ := fingerprints_tell_parts hd he hn hm
    obtain rfl := Except.ok.inj (htail.symm.trans hp.part)
    obtain rfl := Except.ok.inj (hx.symm.trans hq.part)
    obtain ⟨hiff, -⟩ := htell (by decide)
    rw [hp.fed, hq.fed]
    intro hfed
    exact absurd (hiff.mp (Except.ok.inj hfed)) (by decide)

end Document

end LiveMarkup
