import LiveMarkup.Proofs.Convergence
import LiveMarkup.Proofs.Meeting
import LiveMarkup.Proofs.StoreHistory

/-!
# How a merge exchanges trees

The edits of a difference exchange the trees from a spot on, one after the other (`Store.Exchange`). A text is kept, or gets
other content. An element is given other attributes, unless they are the same, and then the trees below it are exchanged. A
tree that does not match is replaced. What is left over in the end is removed, and what is missing is added. Whatever an edit
is about stands as it did when the exchange began, since the edits before it have exchanged only trees at earlier spots
(`Exchanges.differences`).

So a merge is one exchange (`Document.exists_exchange`), and what is true of every merge is shown by induction over it.
-/

namespace LiveMarkup

/-! ## Spots -/

/-- A spot between the trees below a node: the path to the node, the node, and the trees before the spot. -/
structure Spot where
  path : Path
  parent : NodeRef
  before : List OutlineTree

namespace Spot

/-- The spot before all trees below the root. -/
def top (d : DocumentId) : Spot :=
  ⟨[], Store.rootOf d, []⟩

/-- The path to the tree that comes next. -/
def address (g : Spot) : Path :=
  g.path ++ [g.before.length]

/-- The spot behind a tree that comes next. -/
def next (g : Spot) (t : OutlineTree) : Spot :=
  { g with before := g.before ++ [t] }

/-- The spot before all trees below the node of the tree that comes next. -/
def inside (g : Spot) (n : NodeRef) : Spot :=
  ⟨g.address, n, []⟩

/-- The outline has these trees from the spot on. -/
def Holds (g : Spot) (d : DocumentId) (o : Outline) (trees : List OutlineTree) : Prop :=
  o.place? (Store.rootOf d) g.path = some (g.parent, .ofList (g.before ++ trees))

/-- The outline with other trees from the spot on. -/
def fill (g : Spot) (o : Outline) (trees : List OutlineTree) : Outline :=
  o.setBelow g.path (.ofList (g.before ++ trees))

variable {g : Spot} {d : DocumentId} {o : Outline} {t : OutlineTree} {trees : List OutlineTree}

/-- Below the root an outline has all of its trees. -/
theorem holds_top (d : DocumentId) (o : Outline) : (top d).Holds d o o.toList := by
  rw [Holds, top, List.nil_append, Outline.ofList_toList]
  rfl

/-- Below the root there is nothing but the trees that are put there. -/
theorem fill_top (d : DocumentId) (o : Outline) (trees : List OutlineTree) : (top d).fill o trees = .ofList trees :=
  rfl

/-- One spot on there is one tree less to come. -/
theorem holds_next : (g.next t).Holds d o trees ↔ g.Holds d o (t :: trees) := by
  rw [Holds, Holds, next, List.append_assoc]
  rfl

/-- Trees are put behind a tree by putting them there with it. -/
theorem fill_next (g : Spot) (o : Outline) (t : OutlineTree) (trees : List OutlineTree) :
    (g.next t).fill o trees = g.fill o (t :: trees) := by
  rw [fill, fill, next, List.append_assoc]
  rfl

/-- One spot on there is one tree more before. -/
theorem length_before_next (g : Spot) (t : OutlineTree) : (g.next t).before.length = g.before.length + 1 :=
  List.length_append

namespace Holds

/-- With the trees that it has from a spot on an outline stays as it is. -/
theorem fill_self (h : g.Holds d o trees) : g.fill o trees = o :=
  Outline.setBelow_self h

/-- What has been put at a spot is there. -/
theorem fill (h : g.Holds d o trees) (new : List OutlineTree) : g.Holds d (g.fill o new) new :=
  Outline.place?_setBelow h _

/-- Of what is put at a spot first and later the later remains. -/
theorem fill_fill (h : g.Holds d o trees) (first later : List OutlineTree) :
    g.fill (g.fill o first) later = g.fill o later :=
  Outline.setBelow_setBelow h _ _

section Element

variable {n : NodeRef} {name : QName} {attributes : List (AttributeRef × Attribute)} {below : Outline}
  (h : g.Holds d o (.element n name attributes below :: trees))

include h

/-- Below an element that comes next an outline has the trees of that element. -/
theorem inside : (g.inside n).Holds d o below.toList := by
  rw [Holds, Spot.inside, List.nil_append, Outline.ofList_toList]
  exact Outline.place?_concat h

/-- What is put below an element that comes next is put there with it. -/
theorem fill_inside (new : List OutlineTree) :
    (g.inside n).fill o new = g.fill o (.element n name attributes (.ofList new) :: trees) := by
  rw [Spot.fill, Spot.fill, Spot.inside, address, Outline.setBelow_append h,
    Outline.setBelow_cons (Outline.toList_ofList _), Outline.setBelow, List.nil_append]

end Element

/-- The path to the tree that comes next leads to its node. -/
theorem resolve {s : Store} (h : g.Holds d o (t :: trees)) (hs : s.Shows d o) : s.resolve g.address = .ok t.node := by
  have hresolve := hs.resolve_eq g.address
  rw [address, Outline.find?_of_place?_concat h] at hresolve
  exact hresolve

end Holds

end Spot

namespace Store

variable {s s₁ s₂ s' : Store} {d : DocumentId} {o : Outline} {g : Spot}

/-- Edits that are carried out one list after the other are carried out in a row. -/
theorem applyAll_append {edits more : List Edit} {changes changes' : List Change} {number : Nat}
    (h : s.applyAll number edits = .ok (s₁, changes)) (h' : ∀ number, s₁.applyAll number more = .ok (s₂, changes')) :
    s.applyAll number (edits ++ more) = .ok (s₂, changes ++ changes') := by
  induction edits generalizing s number changes with
  | nil =>
    cases h
    exact h' number
  | cons e edits ih =>
    rw [applyAll] at h
    split at h
    · cases h
    · rename_i s' c hedit
      split at h
      · cases h
      · rename_i hrest
        cases h
        simp only [List.cons_append, applyAll, hedit, ih hrest]

/-- An edit that is carried out is carried out as the only one. -/
theorem applyAll_single {e : Edit} {c : Change} (h : s.applyEdit e = .ok (s₁, c)) (number : Nat) :
    s.applyAll number [e] = .ok (s₁, [c]) := by
  simp only [applyAll, h]

/-- Emptying a node only takes something out. -/
theorem clears_emptied {n : NodeRef} {node : Node} (h : s.emptied n node = .ok s') : Clears s s' := by
  obtain ⟨s₁, hattributes, h⟩ := exists_of_bind_eq_ok h
  exact (clears_modifyNode s n _).trans ((clears_freeAttributes hattributes).trans (clears_freeEach h))

/-! ## Exchanges -/

/-- The attributes of an element are exchanged for others, by no edit if they are the same. -/
inductive Reset (s : Store) (p : Path) (n : NodeRef) (old : List (AttributeRef × Attribute)) :
    List Edit → List Change → List (AttributeRef × Attribute) → Store → Prop
  | same : Reset s p n old [] [] old s
  | set {new : List (AttributeRef × Attribute)} {s₁ : Store}
      (kept : (new.map Prod.fst).take old.length = (old.map Prod.fst).take new.length)
      (applied : s.applyEdit (.setAttributes p (new.map Prod.snd)) = .ok (s₁, .updated n)) :
      Reset s p n old [.setAttributes p (new.map Prod.snd)] [.updated n] new s₁

/-- Edits exchange the trees from a spot on for others, one after the other. -/
inductive Exchange (d : DocumentId) : Spot → Store → Outline → (old : List OutlineTree) → List Edit → List Change →
    (made : List OutlineTree) → Store → Prop
  /-- There is nothing to exchange. -/
  | done {g : Spot} {s : Store} {o : Outline} (shows : s.Shows d o) (place : g.Holds d o []) :
      Exchange d g s o [] [] [] [] s
  /-- A tree is added. -/
  | add {g : Spot} {s s₁ s' : Store} {o : Outline} {t : OutlineTree} {edits : List Edit} {changes : List Change}
      {made : List OutlineTree} (shows : s.Shows d o) (place : g.Holds d o [])
      (applied : s.applyEdit (.append g.path t.tree) = .ok (s₁, .added t.node g.parent))
      (rest : Exchange d (g.next t) s₁ (g.fill o [t]) [] edits changes made s') :
      Exchange d g s o [] (.append g.path t.tree :: edits) (.added t.node g.parent :: changes) (t :: made) s'
  /-- A tree is removed, and all that come after it are removed as well. -/
  | remove {g : Spot} {s s₁ s' : Store} {o : Outline} {t : OutlineTree} {old : List OutlineTree} {edits : List Edit}
      {changes : List Change} (shows : s.Shows d o) (place : g.Holds d o (t :: old))
      (applied : s.applyEdit (.remove g.address) = .ok (s₁, .removed t.node g.parent))
      (rest : Exchange d g s₁ (g.fill o old) old edits changes [] s') :
      Exchange d g s o (t :: old) (.remove g.address :: edits) (.removed t.node g.parent :: changes) [] s'
  /-- A text is kept. -/
  | keep {g : Spot} {s s' : Store} {o : Outline} {n : NodeRef} {text : String} {old : List OutlineTree} {edits : List Edit}
      {changes : List Change} {made : List OutlineTree} (place : g.Holds d o (.leaf n text :: old))
      (rest : Exchange d (g.next (.leaf n text)) s o old edits changes made s') :
      Exchange d g s o (.leaf n text :: old) edits changes (.leaf n text :: made) s'
  /-- A text gets other content. -/
  | setText {g : Spot} {s s₁ s' : Store} {o : Outline} {n : NodeRef} {text new : String} {old : List OutlineTree}
      {edits : List Edit} {changes : List Change} {made : List OutlineTree} (shows : s.Shows d o)
      (place : g.Holds d o (.leaf n text :: old))
      (applied : s.applyEdit (.setText g.address new) = .ok (s₁, .updated n))
      (rest : Exchange d (g.next (.leaf n new)) s₁ (g.fill o (.leaf n new :: old)) old edits changes made s') :
      Exchange d g s o (.leaf n text :: old) (.setText g.address new :: edits) (.updated n :: changes)
        (.leaf n new :: made) s'
  /-- A tree that does not match is replaced. Between its being emptied and its being filled there is a store that shows what
  is left of it. -/
  | replace {g : Spot} {s emptied s₁ s' : Store} {o : Outline} {t t' : OutlineTree} {old : List OutlineTree}
      {edits : List Edit} {changes : List Change} {made : List OutlineTree} (shows : s.Shows d o)
      (place : g.Holds d o (t :: old)) (other : ¬ t.tree.Matches t'.tree) (node : t'.node = t.node)
      (clears : s.Clears emptied) (between : emptied.Shows d (g.fill o (t.emptied :: old))) (fills : emptied.Fills s₁)
      (applied : s.applyEdit (.replace g.address t'.tree) = .ok (s₁, .replaced t.node g.parent))
      (rest : Exchange d (g.next t') s₁ (g.fill o (t' :: old)) old edits changes made s') :
      Exchange d g s o (t :: old) (.replace g.address t'.tree :: edits) (.replaced t.node g.parent :: changes)
        (t' :: made) s'
  /-- An element gets other attributes, and the trees below it are exchanged. -/
  | element {g : Spot} {s s₁ s₂ s' : Store} {o : Outline} {n : NodeRef} {name : QName}
      {attributes attributes' : List (AttributeRef × Attribute)} {below : Outline} {old : List OutlineTree}
      {first within edits : List Edit} {change changes changes' : List Change} {inner made : List OutlineTree}
      (shows : s.Shows d o) (place : g.Holds d o (.element n name attributes below :: old))
      (reset : Reset s g.address n attributes first change attributes' s₁)
      (inside : Exchange d (g.inside n) s₁ (g.fill o (.element n name attributes' below :: old)) below.toList within changes
        inner s₂)
      (rest : Exchange d (g.next (.element n name attributes' (.ofList inner))) s₂
        (g.fill o (.element n name attributes' (.ofList inner) :: old)) old edits changes' made s') :
      Exchange d g s o (.element n name attributes below :: old) (first ++ (within ++ edits))
        (change ++ (changes ++ changes')) (.element n name attributes' (.ofList inner) :: made) s'

namespace Reset

variable {p : Path} {n : NodeRef} {old new : List (AttributeRef × Attribute)} {edits : List Edit} {changes : List Change}

/-- The edit is carried out. -/
theorem applyAll (h : Reset s p n old edits changes new s₁) (number : Nat) :
    s.applyAll number edits = .ok (s₁, changes) := by
  cases h with
  | same => rfl
  | set kept applied => exact applyAll_single applied number

end Reset

namespace Exchange

variable {old made : List OutlineTree} {edits : List Edit} {changes : List Change}

/-- An exchange begins with the trees that it exchanges. -/
theorem holds (h : Exchange d g s o old edits changes made s') : g.Holds d o old := by
  cases h <;> assumption

/-- An exchange begins with a store that shows its trees. -/
theorem shows (h : Exchange d g s o old edits changes made s') : s.Shows d o := by
  induction h with
  | keep place rest ih => exact ih
  | _ => assumption

/-- The edits are carried out in a row. -/
theorem applyAll (h : Exchange d g s o old edits changes made s') (number : Nat) :
    s.applyAll number edits = .ok (s', changes) := by
  induction h generalizing number with
  | done shows place => rfl
  | keep place rest ih => exact ih number
  | add shows place applied rest ih => simp only [Store.applyAll, applied, ih]
  | remove shows place applied rest ih => simp only [Store.applyAll, applied, ih]
  | setText shows place applied rest ih => simp only [Store.applyAll, applied, ih]
  | replace shows place other node clears between fills applied rest ih => simp only [Store.applyAll, applied, ih]
  | element shows place reset inside rest ihInside ihRest =>
    exact applyAll_append (reset.applyAll number) fun number => applyAll_append (ihInside number) ihRest

/-- An exchange ends with the new trees in place of the old ones. -/
theorem shows_made (h : Exchange d g s o old edits changes made s') : s'.Shows d (g.fill o made) := by
  induction h with
  | done shows place =>
    rw [place.fill_self]
    exact shows
  | keep place rest ih =>
    rw [Spot.fill_next] at ih
    exact ih
  | add shows place applied rest ih =>
    rw [Spot.fill_next, place.fill_fill] at ih
    exact ih
  | remove shows place applied rest ih =>
    rw [place.fill_fill] at ih
    exact ih
  | setText shows place applied rest ih =>
    rw [Spot.fill_next, place.fill_fill] at ih
    exact ih
  | replace shows place other node clears between fills applied rest ih =>
    rw [Spot.fill_next, place.fill_fill] at ih
    exact ih
  | element shows place reset inside rest _ ih =>
    rw [Spot.fill_next, place.fill_fill] at ih
    exact ih

end Exchange

/-! ## Differences are exchanges -/

/-- Edits exchange the trees from a spot on for such as are given. -/
def Exchanges (s : Store) (d : DocumentId) (g : Spot) (o : Outline) (old : List OutlineTree) (edits : List Edit)
    (new : List Tree) : Prop :=
  ∃ changes made s', Exchange d g s o old edits changes made s' ∧ made.map OutlineTree.tree = new

namespace Exchanges

variable {n : NodeRef} {t : OutlineTree} {old : List OutlineTree} {edits : List Edit} {new : List Tree}

/-- Trees are added one after the other. -/
theorem additions (hs : s.Shows d o) (place : g.Holds d o []) (new : List Tree) :
    s.Exchanges d g o [] (new.map (.append g.path)) new := by
  induction new generalizing s o g with
  | nil => exact ⟨[], [], s, .done hs place, rfl⟩
  | cons tree new ih =>
    have hresolve := hs.resolve_eq g.path
    rw [Outline.find?_of_place? place] at hresolve
    obtain ⟨s₁, t, rfl, happly, h₁⟩ := hs.applyEdit_append place hresolve tree
    rw [Outline.toList_ofList, List.append_nil] at h₁
    obtain ⟨changes, made, s', hrest, rfl⟩ := ih h₁ (Spot.holds_next.mpr (place.fill [t]))
    exact ⟨_, t :: made, s', .add hs place happly hrest, rfl⟩

/-- The trees from a spot on are removed one after the other. -/
theorem removals (hs : s.Shows d o) (place : g.Holds d o old) :
    s.Exchanges d g o old (List.replicate old.length (.remove g.address)) [] := by
  induction old generalizing s o with
  | nil => exact ⟨[], [], s, .done hs place, rfl⟩
  | cons t old ih =>
    obtain ⟨s₁, happly, h₁⟩ := hs.applyEdit_remove place (place.resolve hs)
    obtain ⟨changes, made, s', hrest, hmade⟩ := ih h₁ (place.fill old)
    cases List.map_eq_nil_iff.mp hmade
    exact ⟨_, [], s', .remove hs place happly hrest, rfl⟩

/-- The content of a text is exchanged, if it is another one, and then the trees behind it are exchanged. -/
theorem setText {a : String} (hs : s.Shows d o) (place : g.Holds d o (.leaf n a :: old)) (b : String)
    (hrest : ∀ {s : Store} {o : Outline}, s.Shows d o → (g.next (.leaf n b)).Holds d o old →
      s.Exchanges d (g.next (.leaf n b)) o old edits new) :
    s.Exchanges d g o (.leaf n a :: old) ((if a = b then [] else [.setText g.address b]) ++ edits) (.leaf b :: new) := by
  split
  · rename_i hsame
    subst hsame
    obtain ⟨changes, made, s', hexchange, rfl⟩ := hrest hs (Spot.holds_next.mpr place)
    exact ⟨changes, .leaf n a :: made, s', .keep place hexchange, rfl⟩
  · obtain ⟨s₁, happly, h₁⟩ := hs.applyEdit_setText place (place.resolve hs) b
    obtain ⟨changes, made, s', hexchange, rfl⟩ := hrest h₁ (Spot.holds_next.mpr (place.fill _))
    exact ⟨_, .leaf n b :: made, s', .setText hs place happly hexchange, rfl⟩

/-- A tree that does not match is replaced, and then the trees behind it are exchanged. -/
theorem replace (hs : s.Shows d o) (place : g.Holds d o (t :: old)) (tree : Tree) (hother : ¬ t.tree.Matches tree)
    (hrest : ∀ {s : Store} {o : Outline} {t' : OutlineTree}, s.Shows d o → (g.next t').Holds d o old →
      s.Exchanges d (g.next t') o old edits new) :
    s.Exchanges d g o (t :: old) (.replace g.address tree :: edits) (tree :: new) := by
  obtain ⟨emptied, s₁, t', hempty, hbetween, hfill, hnode, rfl, happly, h₁⟩ :=
    hs.applyEdit_replace_steps place (place.resolve hs) tree
  obtain ⟨changes, made, s', hexchange, rfl⟩ := hrest h₁ (Spot.holds_next.mpr (place.fill (t' :: old)))
  have hreplaced := Exchange.replace hs place hother hnode (clears_emptied hempty) hbetween (fills_fill hfill) happly hexchange
  exact ⟨_, _, s', hreplaced, rfl⟩

/-- The attributes of an element are exchanged, if they are others. -/
theorem exists_reset {name : QName} {attributes : List (AttributeRef × Attribute)} {below : Outline} (hs : s.Shows d o)
    (place : g.Holds d o (.element n name attributes below :: old)) (new : List Attribute) :
    ∃ changes attributes' s₁, Reset s g.address n attributes
        (if attributes.map Prod.snd = new then [] else [.setAttributes g.address new]) changes attributes' s₁ ∧
      attributes'.map Prod.snd = new ∧ s₁.Shows d (g.fill o (.element n name attributes' below :: old)) := by
  split
  · rename_i hsame
    refine ⟨[], attributes, s, .same, hsame, ?_⟩
    rw [place.fill_self]
    exact hs
  · obtain ⟨s₁, attributes', rfl, hkept, happly, h₁⟩ := hs.applyEdit_setAttributes place (place.resolve hs) new
    exact ⟨_, attributes', s₁, .set hkept happly, rfl, h₁⟩

/-- An element is given other attributes, then what is below it is exchanged, and then the trees behind it. -/
theorem element {name : QName} {attributes : List (AttributeRef × Attribute)} {below : Outline} {inner : Forest}
    {within : List Edit} (hs : s.Shows d o) (place : g.Holds d o (.element n name attributes below :: old))
    (newAttributes : List Attribute)
    (hinside : ∀ {s : Store} {o : Outline}, s.Shows d o → (g.inside n).Holds d o below.toList →
      s.Exchanges d (g.inside n) o below.toList within inner.toList)
    (hrest : ∀ {s : Store} {o : Outline} {t : OutlineTree}, s.Shows d o → (g.next t).Holds d o old →
      s.Exchanges d (g.next t) o old edits new) :
    s.Exchanges d g o (.element n name attributes below :: old)
      ((if attributes.map Prod.snd = newAttributes then [] else [.setAttributes g.address newAttributes]) ++
        (within ++ edits))
      (.element name newAttributes inner :: new) := by
  obtain ⟨change, attributes', s₁, hreset, rfl, h₁⟩ := exists_reset hs place newAttributes
  have hfilled := place.fill (.element n name attributes' below :: old)
  obtain ⟨changes, made, s₂, hwithin, hmade⟩ := hinside h₁ hfilled.inside
  have h₂ := hwithin.shows_made
  rw [hfilled.fill_inside, place.fill_fill] at h₂
  obtain ⟨changes', made', s', hexchange, rfl⟩ :=
    hrest (t := .element n name attributes' (.ofList made)) h₂ (Spot.holds_next.mpr (place.fill _))
  have helement := Exchange.element hs place hreset hwithin hexchange
  refine ⟨_, _, s', helement, ?_⟩
  rw [List.map_cons, OutlineTree.tree, Outline.forest_ofList, hmade, Forest.ofList_toList]

/-- The differences of the outline from a spot on from a forest exchange the one for the other. -/
theorem differences {old : Outline} (hs : s.Shows d o) (place : g.Holds d o old.toList) (new : Forest) :
    s.Exchanges d g o old.toList (Forest.differences g.path g.before.length old.forest new) new.toList := by
  induction old generalizing s o g new with
  | nil => exact additions hs place new.toList
  | leaf n a old ih =>
    cases new with
    | nil =>
      rw [Forest.differences_nil_right, ← Outline.length_toList]
      exact removals hs place
    | leaf b new => exact setText hs place b fun hs' place' => Spot.length_before_next g _ ▸ ih hs' place' new
    | element b bs below' new =>
      exact replace hs place (.element b bs below') id fun hs' place' => Spot.length_before_next g _ ▸ ih hs' place' new
  | element n name attributes below old ihBelow ih =>
    cases new with
    | nil =>
      rw [Forest.differences_nil_right, ← Outline.length_toList]
      exact removals hs place
    | leaf b new =>
      exact replace hs place (.leaf b) id fun hs' place' => Spot.length_before_next g _ ▸ ih hs' place' new
    | element b bs below' new =>
      rw [Outline.forest, Forest.differences]
      split
      · rename_i hname
        subst hname
        rw [List.append_assoc]
        exact element hs place bs (fun hs' place' => ihBelow hs' place' below')
          fun hs' place' => Spot.length_before_next g _ ▸ ih hs' place' new
      · rename_i hname
        exact replace hs place (.element b bs below') hname
          fun hs' place' => Spot.length_before_next g _ ▸ ih hs' place' new

end Exchanges

end Store

/-- A merge never fails, and is an exchange of the trees of the one document for those of the other. -/
theorem Document.exists_exchange {d incoming : Document} (h : d.Reachable) (h' : incoming.Reachable) :
    ∃ edits changes made s', Store.Exchange d.id (.top d.id) d.store d.outline d.outline.toList edits changes made s' ∧
      s'.Shows d.id (.ofList made) ∧ (Outline.ofList made).forest = incoming.forest ∧
      d.merge incoming = .ok ({ d with store := s' }, changes) := by
  obtain ⟨changes, made, s', hexchange, hmade⟩ :=
    Store.Exchanges.differences h.shows (Spot.holds_top d.id d.outline) incoming.forest
  have hs' := hexchange.shows_made
  rw [Spot.fill_top] at hs'
  refine ⟨_, changes, made, s', hexchange, hs', ?_, ?_⟩
  · rw [Outline.forest_ofList, hmade, Forest.ofList_toList]
  · have hedits : (d.forest.diff incoming.forest).edits = Forest.differences [] 0 d.outline.forest incoming.forest :=
      Forest.edits_diff d.forest incoming.forest
    have happly : d.store.applyAll 0 (Forest.differences [] 0 d.outline.forest incoming.forest) = .ok (s', changes) :=
      hexchange.applyAll 0
    simp only [merge_eq, compare_eq h h', commit, hedits, happly]

end LiveMarkup
