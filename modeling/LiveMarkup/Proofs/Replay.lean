import LiveMarkup.Proofs.EditText
import LiveMarkup.Proofs.LegalNames
import LiveMarkup.Proofs.Replicas
import LiveMarkup.Proofs.Utf8

/-!
# Merges are replayed from text

The difference of two documents can be sent as text to a replica. The text is read back as the same edits, since the names in
a difference come from a document that calls lead to, and its numbers are no larger than that document
(`Forest.fits_differences`). There they do what the merge did (`Document.merge_replays`).
-/

namespace LiveMarkup

/-- The names that the edit would write are legal, and its numbers are no larger than a limit. -/
structure Edit.Fits (limit : Nat) (e : Edit) : Prop where
  legal : e.Legal
  numbers : ∀ n ∈ e.numbers, n ≤ limit

namespace Forest

/-- A forest has the nodes of its first tree and of the others. -/
theorem size_cons (t : Tree) (f : Forest) : (cons t f).size = t.forest.size + f.size := by
  cases t with
  | leaf text =>
    simp only [Tree.forest, cons, size]
    omega
  | element name attributes children =>
    simp only [Tree.forest, cons, size]
    omega

/-- A tree of a forest has no more nodes than the forest. -/
theorem size_le_of_mem_toList {f : Forest} {t : Tree} (h : t ∈ f.toList) : t.forest.size ≤ f.size := by
  induction f with
  | nil => cases h
  | leaf text next ih =>
    have hsize := size_cons (.leaf text) next
    rw [cons] at hsize
    rcases List.mem_cons.mp h with rfl | hnext
    · omega
    · have := ih hnext
      omega
  | element name attributes children next _ ih =>
    have hsize := size_cons (.element name attributes children) next
    rw [cons] at hsize
    rcases List.mem_cons.mp h with rfl | hnext
    · omega
    · have := ih hnext
      omega

end Forest

namespace Edit.Fits

variable {limit : Nat} {path : Path} {t : Tree}

/-- The numbers of a path and of a tree that an edit brings are bounded by the sizes of both. -/
theorem numbers_le (hpath : ∀ n ∈ path, n ≤ limit) (ht : t.forest.size ≤ limit) :
    ∀ n ∈ path ++ t.records.map Record.children, n ≤ limit := by
  rw [List.forall_mem_append, List.forall_mem_map]
  exact ⟨hpath, fun r hr => Nat.le_trans (Record.children_le_size hr) ht⟩

theorem append (hpath : ∀ n ∈ path, n ≤ limit) (hlegal : t.forest.Legal) (ht : t.forest.size ≤ limit) :
    (Edit.append path t).Fits limit :=
  ⟨hlegal, numbers_le hpath ht⟩

theorem replace (hpath : ∀ n ∈ path, n ≤ limit) (hlegal : t.forest.Legal) (ht : t.forest.size ≤ limit) :
    (Edit.replace path t).Fits limit :=
  ⟨hlegal, numbers_le hpath ht⟩

theorem setText (hpath : ∀ n ∈ path, n ≤ limit) (text : String) : (Edit.setText path text).Fits limit :=
  ⟨List.forall_mem_nil _, hpath⟩

/-- Edits that remove nodes write no names. -/
theorem replicate_remove (hpath : ∀ n ∈ path, n ≤ limit) (count : Nat) :
    ∀ e ∈ List.replicate count (Edit.remove path), e.Fits limit := by
  intro e he
  rw [List.eq_of_mem_replicate he]
  exact ⟨List.forall_mem_nil _, hpath⟩

/-- An edit that is left out where nothing changes fits if it fits where it is made. -/
theorem ite_nil {unchanged : Prop} [Decidable unchanged] {e : Edit} (h : e.Fits limit) :
    ∀ made ∈ if unchanged then [] else [e], made.Fits limit := by
  intro made hmade
  split at hmade
  · cases hmade
  · rw [List.mem_singleton.mp hmade]
    exact h

end Edit.Fits

namespace Forest

/-- One more step of a path is bounded as well. -/
theorem positions_le {path : Path} {i limit : Nat} (hpath : ∀ n ∈ path, n ≤ limit) (hi : i ≤ limit) :
    ∀ n ∈ path ++ [i], n ≤ limit := by
  rw [List.forall_mem_append, List.forall_mem_singleton]
  exact ⟨hpath, hi⟩

/-- An edit of a difference writes names of the new forest only, and no number that is larger than that forest. -/
theorem fits_differences {p : Path} {i limit : Nat} {old new : Forest} (hnew : new.Legal) (hp : ∀ n ∈ p, n ≤ limit)
    (hsize : i + new.size ≤ limit) : ∀ e ∈ differences p i old new, e.Fits limit := by
  induction old generalizing p i new with
  | nil =>
    rw [differences, List.forall_mem_map]
    intro t ht
    exact .append hp (legal_toList hnew t ht) (Nat.le_trans (size_le_of_mem_toList ht) (by omega))
  | leaf a old ih =>
    have hpath : ∀ n ∈ p ++ [i], n ≤ limit := positions_le hp (by omega)
    cases new with
    | nil =>
      rw [differences_nil_right]
      exact Edit.Fits.replicate_remove hpath _
    | leaf b new =>
      rw [size] at hsize
      rw [differences, List.forall_mem_append]
      exact ⟨Edit.Fits.ite_nil (.setText hpath b), ih hnew hp (by omega)⟩
    | element b bs below new =>
      obtain ⟨htree, hrest⟩ : (Tree.element b bs below).forest.Legal ∧ new.Legal := legal_cons.mp hnew
      have hsizes := size_cons (.element b bs below) new
      rw [cons, size] at hsizes
      rw [size] at hsize
      rw [differences, List.forall_mem_cons]
      exact ⟨.replace hpath htree (by omega), ih hrest hp (by omega)⟩
  | element a as below old ihb ih =>
    have hpath : ∀ n ∈ p ++ [i], n ≤ limit := positions_le hp (by omega)
    cases new with
    | nil =>
      rw [differences_nil_right]
      exact Edit.Fits.replicate_remove hpath _
    | leaf b new =>
      have hsizes := size_cons (.leaf b) new
      rw [cons, size] at hsizes
      rw [size] at hsize
      rw [differences, List.forall_mem_cons]
      exact ⟨.replace hpath (List.forall_mem_nil _) (by omega), ih hnew hp (by omega)⟩
    | element b bs below' new =>
      obtain ⟨htree, hrest⟩ : (Tree.element b bs below').forest.Legal ∧ new.Legal := legal_cons.mp hnew
      obtain ⟨_, hattributes, hbelow, _⟩ := legal_element.mp htree
      have hsizes := size_cons (.element b bs below') new
      rw [cons, size] at hsizes
      rw [size] at hsize
      rw [differences, List.forall_mem_append]
      refine ⟨?_, ih hrest hp (by omega)⟩
      split
      · rw [List.forall_mem_append]
        refine ⟨Edit.Fits.ite_nil ⟨Attribute.forall_names.mpr hattributes, hpath⟩, ?_⟩
        exact ihb hbelow hpath (by omega)
      · rw [List.forall_mem_singleton]
        exact .replace hpath htree (by omega)

end Forest

/-- An outline has as many nodes as its forest. -/
theorem Outline.size_forest (o : Outline) : o.forest.size = o.nodes.length := by
  induction o with
  | nil => rfl
  | leaf node text next ih => rw [forest, Forest.size, nodes, List.length_cons, ih]
  | element node name attributes children next ihc ihn =>
    rw [forest, Forest.size, nodes, List.length_cons, List.length_append, ihc, ihn]

namespace Document

/-- A document has one node more than its forest, the root. -/
theorem nodeCount_of_shows {d : Document} {id : DocumentId} {o : Outline} (h : d.store.Shows id o) :
    d.nodeCount = d.forest.size + 1 := by
  rw [nodeCount, h.count_nodes, Multiset.card_cons, ← Multiset.card_map Prod.fst, Outline.map_fst_entries,
    Multiset.coe_card, forest_of_shows h, Outline.size_forest]

open Json.Number (wordLimit)

/-- The difference of two documents can be written as text and read back, if the nodes of the new document can be counted with
64 bits. -/
theorem decode_encode_diff {d incoming : Document} (h : d.Reachable) (h' : incoming.Reachable)
    (hcount : incoming.nodeCount ≤ wordLimit) :
    Edit.decode (Edit.encode (d.diff incoming).edits).toList = .ok (d.diff incoming).edits := by
  have hedits : (d.diff incoming).edits = Forest.differences [] 0 d.forest incoming.forest := by
    rw [diff, compare_eq h h', Forest.edits_diff]
  have hsize : 0 + incoming.forest.size ≤ incoming.forest.size := Nat.le_of_eq (Nat.zero_add _)
  have hfits : ∀ e ∈ Forest.differences [] 0 d.forest incoming.forest, e.Fits incoming.forest.size :=
    Forest.fits_differences h'.legal (List.forall_mem_nil _) hsize
  rw [nodeCount_of_shows h'.shows] at hcount
  rw [hedits]
  refine Edit.decode_encode (Edit.checkNames_eq_ok_iff.mpr fun e he => (hfits e he).legal) ?_
  intro e he n hn
  have := (hfits e he).numbers n hn
  omega

/-- A merge can be replayed from bytes: the difference of two documents is carried out by every replica of the first, which is
then a replica of what the merge leaves, and is reported by the same changes, under the identity of the replica. The nodes of
a document are counted with 64 bits. -/
theorem merge_replays {d incoming replica : Document} (h : d.Reachable) (h' : incoming.Reachable)
    (hreplica : replica.Replicates d) (hcount : incoming.nodeCount ≤ wordLimit) :
    ∃ (d' replica' : Document) (changes : List Change), d.compare incoming = .ok (d.diff incoming) ∧
      d.merge incoming = .ok (d', changes) ∧
      replica.applyText (Json.sourceOfBytes (Edit.encode (d.diff incoming).edits).toUTF8.data.toList) =
        .ok (replica', changes.map (Change.renamed fun _ => replica.id)) ∧
      replica'.id = replica.id ∧ replica'.Replicates d' ∧ replica'.forest = d'.forest := by
  have hcompare := compare_eq h h'
  have hdiff : d.diff incoming = d.forest.diff incoming.forest := by rw [diff, hcompare]
  obtain ⟨s', o', changes, happly, hs', _⟩ := applyAll_diff h incoming
  have hcommit : d.commit (d.forest.diff incoming.forest).edits = .ok ({ d with store := s' }, changes) := by
    simp only [commit, happly]
  have hmerge : d.merge incoming = .ok ({ d with store := s' }, changes) := by
    simp only [merge_eq, hcompare, hcommit]
  obtain ⟨replica', hreplayed, hid, hreplicates⟩ := hreplica.commit h.shows hcommit
  have htext : replica.applyText (Json.sourceOfBytes (Edit.encode (d.diff incoming).edits).toUTF8.data.toList) =
      .ok (replica', changes.map (Change.renamed fun _ => replica.id)) := by
    rw [Json.sourceOfBytes_toUTF8, applyText_eq, decode_encode_diff h h' hcount, hdiff]
    exact hreplayed
  have hid' : Document.id { d with store := s' } = d.id := hs'.document
  exact ⟨{ d with store := s' }, replica', changes, hdiff ▸ hcompare, hmerge, htext, hid, hreplicates,
    hreplicates.forest_eq (hid'.symm ▸ hs')⟩

/-- The edits that make a list one with other entries do so for its replica, from their bytes. -/
theorem merge_lists_replayed : ∃ (d' replica' : Document) (changes : List Change),
    (withOtherEntry ⟨1⟩).merge (withEntry ⟨2⟩) = .ok (d', changes) ∧
    (withOtherEntry ⟨3⟩).applyText (Json.sourceOfBytes (Edit.encode
      [.replace [0, 0] (.element ⟨"", "li"⟩ [⟨⟨"", "class"⟩, "y"⟩] (.leaf "a" .nil)),
        .replace [0, 1] (.leaf "b")]).toUTF8.data.toList) =
      .ok (replica', changes.map (Change.renamed fun _ => ⟨3⟩)) ∧
    replica'.Replicates d' := by
  have hreplica : (withOtherEntry ⟨3⟩).Replicates (withOtherEntry ⟨1⟩) := by
    rw [Replicates]
    cbv
  have hid : (withOtherEntry ⟨3⟩).id = ⟨3⟩ := by cbv
  have hcount : (withEntry ⟨2⟩).nodeCount ≤ wordLimit := by
    have hfive : (withEntry ⟨2⟩).nodeCount = 5 := by cbv
    rw [hfive]
    decide
  have hdiff : ((withOtherEntry ⟨1⟩).diff (withEntry ⟨2⟩)).edits =
      [.replace [0, 0] (.element ⟨"", "li"⟩ [⟨⟨"", "class"⟩, "y"⟩] (.leaf "a" .nil)), .replace [0, 1] (.leaf "b")] := by
    cbv
  obtain ⟨d', replica', changes, _, hmerge, hreplayed, _, hreplicates, _⟩ :=
    merge_replays (reachable_withOtherEntry ⟨1⟩) (reachable_withEntry ⟨2⟩) hreplica hcount
  rw [hdiff, hid] at hreplayed
  exact ⟨d', replica', changes, hmerge, hreplayed, hreplicates⟩

end Document

end LiveMarkup
