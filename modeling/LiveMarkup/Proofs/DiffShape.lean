import Mathlib
import LiveMarkup.Proofs.LaterEdits

/-!
# The shape of a difference

The difference of two documents is that of a recursion over their trees (`Forest.childEdits`): for every pair of children
first what the two differ in themselves, then what is below them, and after all pairs what one list of children has more than
the other (`Forest.differences_eq`). While it gathers, the counts say how many edits of each kind there are, and every
comparison comes to exactly one thing (`Diff.Accounted`).
-/

namespace LiveMarkup

namespace Forest

/-- The edits for what one of two lists of children has more than the other. Of the old children those go that follow where the
new ones end, and each stands at that position when its turn comes. The new ones that follow where the old ones end come. -/
def surplusEdits (p : Path) (old new : Forest) : List Edit :=
  List.replicate (old.length - new.length) (.remove (p ++ [min old.length new.length])) ++
    (new.toList.drop old.length).map (.append p)

/-- The edits for the pairs of children of two nodes, from a position on. Elements of one name get their attributes, if these
are others, and then what is below them is compared; texts get their content, if it is another; any other pair is replaced as
a whole. -/
def pairEdits : Path → (position : Nat) → (old new : Forest) → List Edit
  | p, i, .leaf a old, .leaf b new =>
    (if a = b then [] else [.setText (p ++ [i]) b]) ++ pairEdits p (i + 1) old new
  | p, i, .element a as below old, .element b bs below' new =>
    (if a = b then
      (if as = bs then [] else [.setAttributes (p ++ [i]) bs]) ++
        (pairEdits (p ++ [i]) 0 below below' ++ surplusEdits (p ++ [i]) below below')
    else [.replace (p ++ [i]) (.element b bs below')]) ++ pairEdits p (i + 1) old new
  | p, i, .leaf _ old, .element b bs below' new =>
    .replace (p ++ [i]) (.element b bs below') :: pairEdits p (i + 1) old new
  | p, i, .element _ _ _ old, .leaf b new => .replace (p ++ [i]) (.leaf b) :: pairEdits p (i + 1) old new
  | _, _, .nil, _ => []
  | _, _, .leaf _ _, .nil => []
  | _, _, .element _ _ _ _, .nil => []

/-- The edits for the children of two nodes that match, the first of which is at a path. -/
def childEdits (p : Path) (old new : Forest) : List Edit :=
  pairEdits p 0 old new ++ surplusEdits p old new

/-- Without new trees there are no pairs. -/
theorem pairEdits_nil_right (p : Path) (i : Nat) (old : Forest) : pairEdits p i old .nil = [] := by
  cases old <;> rfl

/-- A pair of children, and then those that follow. -/
theorem pairEdits_cons (p : Path) (i : Nat) (t u : Tree) (old new : Forest) :
    pairEdits p i (cons t old) (cons u new) =
      (if t.Matches u then t.ownEdits (p ++ [i]) u ++ childEdits (p ++ [i]) t.below u.below else [.replace (p ++ [i]) u]) ++
        pairEdits p (i + 1) old new := by
  cases t with
  | leaf a =>
    cases u with
    | leaf b =>
      simp [cons, pairEdits, Tree.Matches, Tree.ownEdits, Tree.below, childEdits, surplusEdits, toList, length]
    | element b bs below' => simp [cons, pairEdits, Tree.Matches]
  | element a as below =>
    cases u with
    | leaf b => simp [cons, pairEdits, Tree.Matches]
    | element b bs below' =>
      by_cases hab : a = b
      · simp [cons, pairEdits, Tree.Matches, Tree.ownEdits, Tree.below, childEdits, hab]
      · simp [cons, pairEdits, Tree.Matches, hab]

/-- One more tree counts for one. -/
theorem length_cons (t : Tree) (f : Forest) : (cons t f).length = f.length + 1 := by
  cases t <;> rfl

/-- The differences of two forests are those of their pairs, and then what one of the two has more than the other. -/
theorem differences_eq (p : Path) (i : Nat) (old new : Forest) : differences p i old new = pairEdits p i old new ++
    (List.replicate (old.length - new.length) (.remove (p ++ [i + min old.length new.length])) ++
      (new.toList.drop old.length).map (.append p)) := by
  induction p, i, old, new using inductionOnPairs with
  | nil p i new => simp [differences, pairEdits, length]
  | ended p i t old => simp [differences_nil_right, pairEdits_nil_right, length, toList]
  | next p i t u old new ihb ih =>
    have hbelow : differences (p ++ [i]) 0 t.below u.below = childEdits (p ++ [i]) t.below u.below := by
      rw [ihb, Nat.zero_add]
      rfl
    have hmin : i + min (cons t old).length (cons u new).length = i + 1 + min old.length new.length := by
      rw [length_cons, length_cons]
      omega
    rw [hmin, differences_cons, Tree.edits, hbelow, ih, pairEdits_cons, length_cons, length_cons, toList_cons,
      Nat.add_sub_add_right, List.drop_succ_cons, List.append_assoc]

/-- The edits of the difference of two forests. -/
theorem edits_diff_eq (old new : Forest) : (old.diff new).edits = childEdits [] old new := by
  rw [edits_diff, differences_eq, Nat.zero_add]
  rfl

end Forest

namespace Diff

/-- How often a verb occurs among the edits. -/
def occurrences (d : Diff) (verb : String) : Nat :=
  (d.edits.map Edit.verb).count verb

/-- The counts say how many edits of each kind there are, and of each comparison it is counted what came of it. -/
structure Accounted (d : Diff) : Prop where
  attributeUpdates : d.occurrences "set_attributes" = d.stats.attributeUpdates
  textUpdates : d.occurrences "set_text" = d.stats.textUpdates
  replaced : d.occurrences "replace" = d.stats.replaced
  added : d.occurrences "append" = d.stats.added
  removed : d.occurrences "remove" = d.stats.removed
  compared : d.stats.compared = 1 + d.stats.kept + d.stats.attributeUpdates + d.stats.textUpdates + d.stats.replaced

/-- One more edit counts for its own kind. -/
theorem occurrences_cons (e : Edit) (edits : List Edit) (stats stats' : DiffStats) (verb : String) :
    (Diff.mk (e :: edits) stats).occurrences verb =
      (Diff.mk edits stats').occurrences verb + if e.verb = verb then 1 else 0 := by
  simp [occurrences, List.count_cons]

namespace Accounted

variable {d : Diff}

theorem start : Diff.start.Accounted :=
  ⟨rfl, rfl, rfl, rfl, rfl, rfl⟩

/-- One more edit is accounted for if it counts once, for its own verb. -/
theorem note (h : d.Accounted) (e : Edit) {stats : DiffStats}
    (attributeUpdates : stats.attributeUpdates = d.stats.attributeUpdates + if e.verb = "set_attributes" then 1 else 0)
    (textUpdates : stats.textUpdates = d.stats.textUpdates + if e.verb = "set_text" then 1 else 0)
    (replaced : stats.replaced = d.stats.replaced + if e.verb = "replace" then 1 else 0)
    (added : stats.added = d.stats.added + if e.verb = "append" then 1 else 0)
    (removed : stats.removed = d.stats.removed + if e.verb = "remove" then 1 else 0)
    (compared : stats.compared = 1 + stats.kept + stats.attributeUpdates + stats.textUpdates + stats.replaced) :
    Accounted ⟨e :: d.edits, stats⟩ where
  attributeUpdates := by rw [occurrences_cons e d.edits stats d.stats, h.attributeUpdates, attributeUpdates]
  textUpdates := by rw [occurrences_cons e d.edits stats d.stats, h.textUpdates, textUpdates]
  replaced := by rw [occurrences_cons e d.edits stats d.stats, h.replaced, replaced]
  added := by rw [occurrences_cons e d.edits stats d.stats, h.added, added]
  removed := by rw [occurrences_cons e d.edits stats d.stats, h.removed, removed]
  compared := compared

/-- A pair that is kept counts as such. -/
theorem noteKept (h : d.Accounted) :
    { d with stats := { d.stats with compared := d.stats.compared + 1, kept := d.stats.kept + 1 } }.Accounted :=
  { h with compared := by simp only [h.compared]; omega }

/-- The counts stay right when a pair of texts has been compared. -/
theorem noteLeaves (h : d.Accounted) (p : Path) (a b : String) : (d.noteLeaves p a b).Accounted := by
  rw [Diff.noteLeaves]
  split
  · exact h.noteKept
  · exact h.note (.setText p b) rfl rfl rfl rfl rfl (by simp only [h.compared]; omega)

/-- The counts stay right when a pair of elements has been compared. -/
theorem noteElements (h : d.Accounted) (p : Path) (as bs : List Attribute) : (d.noteElements p as bs).Accounted := by
  rw [Diff.noteElements]
  split
  · exact h.noteKept
  · exact h.note (.setAttributes p bs) rfl rfl rfl rfl rfl (by simp only [h.compared]; omega)

/-- The counts stay right when a tree is replaced. -/
theorem noteReplaced (h : d.Accounted) (p : Path) (t : Tree) : (d.noteReplaced p t).Accounted :=
  h.note (.replace p t) rfl rfl rfl rfl rfl (by simp only [h.compared]; omega)

/-- The counts stay right when trees are removed. -/
theorem noteRemovals (h : d.Accounted) (p : Path) (n : Nat) : (d.noteRemovals p n).Accounted := by
  induction n generalizing d with
  | zero => exact h
  | succ n ih => exact ih (h.note (.remove p) rfl rfl rfl rfl rfl h.compared)

/-- The counts stay right when trees are added. -/
theorem noteAdditions (h : d.Accounted) (p : Path) (trees : List Tree) : (d.noteAdditions p trees).Accounted := by
  induction trees generalizing d with
  | nil => exact h
  | cons t trees ih => exact ih (h.note (.append p t) rfl rfl rfl rfl rfl h.compared)

/-- The order of the edits does not matter. -/
theorem reverse (h : d.Accounted) : Accounted ⟨d.edits.reverse, d.stats⟩ := by
  have hsame : ∀ verb, Diff.occurrences ⟨d.edits.reverse, d.stats⟩ verb = d.occurrences verb := by
    intro verb
    rw [occurrences, occurrences, List.map_reverse, List.count_reverse]
  exact ⟨(hsame _).trans h.attributeUpdates, (hsame _).trans h.textUpdates, (hsame _).trans h.replaced,
    (hsame _).trans h.added, (hsame _).trans h.removed, h.compared⟩

/-- What a comparison of two forests comes to is accounted for. -/
theorem walk (h : d.Accounted) (p : Path) (i : Nat) (old new : Forest) : (Forest.walk p i old new d).Accounted := by
  induction old generalizing p i new d with
  | nil => exact h.noteAdditions p new.toList
  | leaf a old ih =>
    cases new with
    | nil => exact h.noteRemovals (p ++ [i]) (old.length + 1)
    | leaf b new => exact ih (h.noteLeaves (p ++ [i]) a b) p (i + 1) new
    | element b bs below new => exact ih (h.noteReplaced (p ++ [i]) (.element b bs below)) p (i + 1) new
  | element a as below old ihb ih =>
    cases new with
    | nil => exact h.noteRemovals (p ++ [i]) (old.length + 1)
    | leaf b new => exact ih (h.noteReplaced (p ++ [i]) (.leaf b)) p (i + 1) new
    | element b bs below' new =>
      refine ih ?_ p (i + 1) new
      split
      · exact ihb (h.noteElements (p ++ [i]) as bs) (p ++ [i]) 0 below'
      · exact h.noteReplaced (p ++ [i]) (.element b bs below')

end Accounted

end Diff

/-- The counts of a difference are right. -/
theorem Forest.accounted_diff (old new : Forest) : (old.diff new).Accounted :=
  (Diff.Accounted.start.walk [] 0 old new).reverse

namespace Document

/-- The difference of two documents is that of the recursion over their trees: for each pair of children what the two differ
in, then what is below them, and after the pairs what is left over. Of the children of one node, some are removed or some are
appended, but not both. No edit looks up a node of a tree that an edit before it has appended or put in place of another, and
the counts are right. -/
theorem compare_is_recursive {d incoming : Document} (h : d.Reachable) (h' : incoming.Reachable) :
    ∃ diff, d.compare incoming = .ok diff ∧ diff.edits = Forest.childEdits [] d.forest incoming.forest ∧
      (∀ p t k, .append p t ∈ diff.edits → .remove (p ++ [k]) ∉ diff.edits) ∧ d.forest.LeavesPut diff.edits ∧
      diff.Accounted := by
  refine ⟨d.forest.diff incoming.forest, compare_eq h h', Forest.edits_diff_eq _ _, ?_, Forest.leavesPut_diff _ _,
    Forest.accounted_diff _ _⟩
  intro p t k happend
  rw [Forest.edits_diff] at happend ⊢
  exact Forest.not_remove_of_append happend k

/-- An element with a text below it, and two texts. -/
def oneElementTwoTexts : Document :=
  (Document.empty ⟨1⟩).after (.applyEdits
    [.append [] (.element ⟨"", "a"⟩ [⟨⟨"", "x"⟩, "1"⟩] (.leaf "b" .nil)), .append [] (.leaf "c"), .append [] (.leaf "d")])

/-- An element with another attribute and more below it, and an element in place of a text. -/
def twoElements : Document :=
  (Document.empty ⟨2⟩).after (.applyEdits
    [.append [] (.element ⟨"", "a"⟩ [⟨⟨"", "x"⟩, "2"⟩] (.leaf "e" (.leaf "f" .nil))), .append [] (.element ⟨"", "g"⟩ [] .nil)])

/-- Every kind of edit occurs once, and nothing is left to be compared below what has been appended or replaced. -/
theorem one_edit_of_each_kind : ∃ diff, oneElementTwoTexts.compare twoElements = .ok diff ∧
    diff.edits = [.setAttributes [0] [⟨⟨"", "x"⟩, "2"⟩], .setText [0, 0] "e", .append [0] (.leaf "f"),
      .replace [1] (.element ⟨"", "g"⟩ [] .nil), .remove [2]] ∧
    .remove [0, 1] ∉ diff.edits ∧ oneElementTwoTexts.forest.LeavesPut diff.edits ∧ diff.stats.added = 1 ∧
    diff.stats.compared = 4 + diff.stats.kept := by
  have hbefore : oneElementTwoTexts.Reachable := .applyEdits (.empty ⟨1⟩) _
  have hother : twoElements.Reachable := .applyEdits (.empty ⟨2⟩) _
  obtain ⟨diff, hcompare, hedits, hboth, hleaves, haccounted⟩ := compare_is_recursive hbefore hother
  have hforest : oneElementTwoTexts.forest =
      .element ⟨"", "a"⟩ [⟨⟨"", "x"⟩, "1"⟩] (.leaf "b" .nil) (.leaf "c" (.leaf "d" .nil)) := by
    cbv
  have hforest' : twoElements.forest = .element ⟨"", "a"⟩ [⟨⟨"", "x"⟩, "2"⟩] (.leaf "e" (.leaf "f" .nil))
      (.element ⟨"", "g"⟩ [] .nil .nil) := by
    cbv
  have hlist : diff.edits = [.setAttributes [0] [⟨⟨"", "x"⟩, "2"⟩], .setText [0, 0] "e", .append [0] (.leaf "f"),
      .replace [1] (.element ⟨"", "g"⟩ [] .nil), .remove [2]] := by
    rw [hedits, hforest, hforest']
    rfl
  have hcounts : ∀ verb, diff.occurrences verb =
      (["set_attributes", "set_text", "append", "replace", "remove"] : List String).count verb := by
    intro verb
    rw [Diff.occurrences, hlist]
    rfl
  refine ⟨diff, hcompare, hlist, hboth [0] (.leaf "f") 1 (by rw [hlist]; decide), hleaves, ?_, ?_⟩
  · rw [← haccounted.added, hcounts]
    rfl
  · rw [haccounted.compared, ← haccounted.attributeUpdates, ← haccounted.textUpdates, ← haccounted.replaced, hcounts, hcounts,
      hcounts]
    simp
    omega

end Document

end LiveMarkup
