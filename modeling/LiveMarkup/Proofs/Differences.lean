import LiveMarkup.Edit.Diff
import LiveMarkup.Proofs.PlainEdits

/-!
# The difference of two plain forests

The edits that lead from one forest to another, by recursion over both (`Forest.differences`). All paths are those of the
first forest, yet each edit is carried out on what the ones before it have left: since they have exchanged only trees at
earlier positions, or have put something below a tree that stays, its path leads to the same place all the same
(`Leads.differences`).
-/

namespace LiveMarkup

namespace Forest

/-- The edits that lead from a forest below the node at a path to another one, both of them from a position on. -/
def differences : Path → (position : Nat) → (old new : Forest) → List Edit
  | p, _, .nil, new => new.toList.map (.append p)
  | p, i, .leaf _ old, .nil => List.replicate (old.length + 1) (.remove (p ++ [i]))
  | p, i, .element _ _ _ old, .nil => List.replicate (old.length + 1) (.remove (p ++ [i]))
  | p, i, .leaf a old, .leaf b new =>
    (if a = b then [] else [.setText (p ++ [i]) b]) ++ differences p (i + 1) old new
  | p, i, .leaf _ old, .element b bs below new =>
    .replace (p ++ [i]) (.element b bs below) :: differences p (i + 1) old new
  | p, i, .element _ _ _ old, .leaf b new => .replace (p ++ [i]) (.leaf b) :: differences p (i + 1) old new
  | p, i, .element a as below old, .element b bs below' new =>
    (if a = b then (if as = bs then [] else [.setAttributes (p ++ [i]) bs]) ++ differences (p ++ [i]) 0 below below'
      else [.replace (p ++ [i]) (.element b bs below')]) ++ differences p (i + 1) old new

/-- Where the new forest has ended, what is left of the old one is removed. -/
theorem differences_nil_right (p : Path) (i : Nat) (old : Forest) :
    differences p i old .nil = List.replicate old.length (.remove (p ++ [i])) := by
  cases old with
  | nil => rfl
  | leaf a next => rfl
  | element a as below next => rfl

/-- Every edit of a list is legal, and together they lead from one forest to another. -/
inductive Leads : Forest → List Edit → Forest → Prop
  | nil (f : Forest) : Leads f [] f
  | cons {f g k : Forest} {e : Edit} {edits : List Edit} (first : f.carryOut e = .ok g) (rest : Leads g edits k) :
      Leads f (e :: edits) k

namespace Leads

variable {f g k : Forest} {edits more : List Edit}

/-- Edits that lead to a forest are carried out to that forest. -/
theorem carryOutAll_eq (h : f.Leads edits g) (number : Nat) : f.carryOutAll number edits = .ok g := by
  induction h generalizing number with
  | nil f => rfl
  | cons first _ ih =>
    rw [carryOutAll, first]
    exact ih (number + 1)

theorem single {e : Edit} (h : f.carryOut e = .ok g) : f.Leads [e] g :=
  cons h (nil g)

/-- What two lists of edits lead to in turn, both in a row lead to. -/
theorem append (h : f.Leads edits g) (hmore : g.Leads more k) : f.Leads (edits ++ more) k := by
  induction h with
  | nil f => exact hmore
  | cons first _ ih => exact cons first (ih hmore)

/-- Edits lead from one forest to another by way of what the first of them lead to. -/
theorem split (h : f.Leads (edits ++ more) g) : ∃ m : Forest, f.Leads edits m ∧ m.Leads more g := by
  induction edits generalizing f with
  | nil => exact ⟨f, .nil f, h⟩
  | cons e edits ih =>
    cases h with
    | cons first rest =>
      obtain ⟨m, hedits, hmore⟩ := ih rest
      exact ⟨m, .cons first hedits, hmore⟩

end Leads

section At

variable {f : Forest} {p : Path} {before after : List Tree} {t : Tree}

/-- Exchanging a tree at a position below a node. -/
theorem exchange_at (hp : f.below? p = some (ofList (before ++ t :: after)))
    {change : Tree → Except Illegal (List Tree)} (trees : List Tree) (hchange : change t = .ok trees) :
    f.exchange (p ++ [before.length]) change = .ok (f.setBelow p (ofList (before ++ (trees ++ after)))) := by
  rw [exchange_of_split hp (toList_ofList _), hchange]

/-- A tree at a position can be replaced. -/
theorem carryOut_replace (hp : f.below? p = some (ofList (before ++ t :: after))) (new : Tree) :
    f.carryOut (.replace (p ++ [before.length]) new) = .ok (f.setBelow p (ofList (before ++ new :: after))) := by
  rw [carryOut, if_neg (List.concat_ne_nil _ _)]
  exact exchange_at hp [new] rfl

/-- A tree at a position can be removed. -/
theorem carryOut_remove (hp : f.below? p = some (ofList (before ++ t :: after))) :
    f.carryOut (.remove (p ++ [before.length])) = .ok (f.setBelow p (ofList (before ++ after))) := by
  rw [carryOut, if_neg (List.concat_ne_nil _ _)]
  exact exchange_at hp [] rfl

/-- A text at a position can be given new content. -/
theorem carryOut_setText {a : String} (hp : f.below? p = some (ofList (before ++ .leaf a :: after))) (b : String) :
    f.carryOut (.setText (p ++ [before.length]) b) = .ok (f.setBelow p (ofList (before ++ .leaf b :: after))) :=
  exchange_at hp [.leaf b] rfl

/-- An element at a position can be given new attributes. -/
theorem carryOut_setAttributes {name : QName} {as : List Attribute} {below : Forest}
    (hp : f.below? p = some (ofList (before ++ .element name as below :: after))) (bs : List Attribute) :
    f.carryOut (.setAttributes (p ++ [before.length]) bs) =
      .ok (f.setBelow p (ofList (before ++ .element name bs below :: after))) :=
  exchange_at hp [.element name bs below] rfl

/-- The trees from a position on can be removed one after the other: each stands at the position when its turn comes. -/
theorem Leads.removals (hp : f.below? p = some (ofList (before ++ after))) :
    f.Leads (List.replicate after.length (.remove (p ++ [before.length]))) (f.setBelow p (ofList before)) := by
  induction after generalizing f with
  | nil =>
    rw [List.append_nil] at hp
    rw [setBelow_self hp]
    exact .nil f
  | cons t after ih =>
    have hrest := ih (below?_setBelow hp (ofList (before ++ after)))
    rw [setBelow_setBelow hp] at hrest
    exact .cons (carryOut_remove hp) hrest

/-- Trees can be appended one after the other. -/
theorem Leads.additions (hp : f.below? p = some (ofList before)) (trees : List Tree) :
    f.Leads (trees.map (.append p)) (f.setBelow p (ofList (before ++ trees))) := by
  induction trees generalizing f before with
  | nil =>
    rw [List.append_nil, setBelow_self hp]
    exact .nil f
  | cons t trees ih =>
    have hfirst : f.carryOut (.append p t) = .ok (f.setBelow p (ofList (before ++ [t]))) := by
      simp only [carryOut, hp, toList_ofList]
    have hrest := ih (below?_setBelow hp (ofList (before ++ [t])))
    rw [setBelow_setBelow hp, List.append_assoc] at hrest
    exact .cons hfirst hrest

end At

/-- Once the tree at a position is as it shall be, the differences from the next position on lead further. -/
theorem Leads.then_differences {f old new : Forest} {p : Path} {done : List Tree} {t t' : Tree} {edits : List Edit}
    (hp : f.below? p = some (ofList (done ++ t :: old.toList)))
    (hedits : f.Leads edits (f.setBelow p (ofList (done ++ t' :: old.toList))))
    (hrest : ∀ {f : Forest} {done : List Tree}, f.below? p = some (ofList (done ++ old.toList)) →
      f.Leads (differences p done.length old new) (f.setBelow p (ofList (done ++ new.toList)))) :
    f.Leads (edits ++ differences p (done.length + 1) old new) (f.setBelow p (ofList (done ++ t' :: new.toList))) := by
  have hsplit : ∀ l : List Tree, done ++ t' :: l = (done ++ [t']) ++ l := by
    intro l
    rw [List.append_assoc]
    rfl
  have hlength : (done ++ [t']).length = done.length + 1 := List.length_append
  rw [hsplit] at hedits
  have hnext := hrest (below?_setBelow hp (ofList ((done ++ [t']) ++ old.toList)))
  rw [hlength, setBelow_setBelow hp, ← hsplit new.toList] at hnext
  exact hedits.append hnext

/-- The differences of what is below an element lead further at its place. -/
theorem Leads.differences_below {f below below' : Forest} {p : Path} {done after : List Tree} {t : Tree} {a : QName}
    {bs : List Attribute} (hp : f.below? p = some (ofList (done ++ t :: after)))
    (hbelow : ∀ {f : Forest}, f.below? (p ++ [done.length]) = some (ofList ([] ++ below.toList)) →
      f.Leads (differences (p ++ [done.length]) 0 below below')
        (f.setBelow (p ++ [done.length]) (ofList ([] ++ below'.toList)))) :
    (f.setBelow p (ofList (done ++ .element a bs below :: after))).Leads (differences (p ++ [done.length]) 0 below below')
      (f.setBelow p (ofList (done ++ .element a bs below' :: after))) := by
  have hat := below?_setBelow hp (ofList (done ++ .element a bs below :: after))
  have hplace : (f.setBelow p (ofList (done ++ .element a bs below :: after))).below? (p ++ [done.length]) =
      some (ofList ([] ++ below.toList)) := by
    rw [below?_append, hat, Option.bind_some, below?, toList_ofList, getElem?_append_cons, List.nil_append, ofList_toList]
    rfl
  have hleads := hbelow hplace
  rw [setBelow_append hat, setBelow_cons (toList_ofList _), setBelow, List.nil_append, ofList_toList,
    setBelow_setBelow hp] at hleads
  exact hleads

/-- The differences of two forests lead from the one to the other, wherever they stand in a larger one: the trees at earlier
positions are there already. -/
theorem Leads.differences {f : Forest} {p : Path} {done : List Tree} {old : Forest}
    (hp : f.below? p = some (ofList (done ++ old.toList))) (new : Forest) :
    f.Leads (Forest.differences p done.length old new) (f.setBelow p (ofList (done ++ new.toList))) := by
  induction old generalizing f p done new with
  | nil =>
    rw [toList, List.append_nil] at hp
    rw [Forest.differences]
    exact additions hp new.toList
  | leaf a old ih =>
    rw [toList] at hp
    cases new with
    | nil =>
      rw [differences_nil_right, ← length_toList, toList, toList, List.append_nil]
      exact removals hp
    | leaf b new =>
      refine then_differences hp ?_ (fun hp' => ih hp' new)
      split
      · rename_i hab
        subst hab
        rw [setBelow_self hp]
        exact .nil f
      · exact .single (carryOut_setText hp b)
    | element b bs below new =>
      exact then_differences hp (.single (carryOut_replace hp (.element b bs below))) (fun hp' => ih hp' new)
  | element a as below old ihb ih =>
    rw [toList] at hp
    cases new with
    | nil =>
      rw [differences_nil_right, ← length_toList, toList, toList, List.append_nil]
      exact removals hp
    | leaf b new => exact then_differences hp (.single (carryOut_replace hp (.leaf b))) (fun hp' => ih hp' new)
    | element b bs below' new =>
      refine then_differences hp ?_ (fun hp' => ih hp' new)
      split
      · rename_i hab
        subst hab
        have hattributes : f.Leads (if as = bs then [] else [.setAttributes (p ++ [done.length]) bs])
            (f.setBelow p (ofList (done ++ .element a bs below :: old.toList))) := by
          split
          · rename_i habs
            subst habs
            rw [setBelow_self hp]
            exact .nil f
          · exact .single (carryOut_setAttributes hp bs)
        exact hattributes.append (differences_below hp (fun hp' => ihb hp' below'))
      · exact .single (carryOut_replace hp (.element b bs below'))

/-- Two forests have no differences exactly if they are equal. -/
theorem differences_eq_nil_iff {p : Path} {i : Nat} {old new : Forest} : differences p i old new = [] ↔ old = new := by
  induction old generalizing p i new with
  | nil =>
    cases new with
    | nil => simp [differences, toList]
    | leaf b new => simp [differences, toList]
    | element b bs below new => simp [differences, toList]
  | leaf a old ih =>
    cases new with
    | nil => simp [differences]
    | leaf b new =>
      rw [differences, List.append_eq_nil_iff, ih]
      simp
    | element b bs below new => simp [differences]
  | element a as below old ihb ih =>
    cases new with
    | nil => simp [differences]
    | leaf b new => simp [differences]
    | element b bs below' new =>
      rw [differences, List.append_eq_nil_iff, ih]
      split
      · rename_i hab
        by_cases habs : as = bs
        · simp [hab, habs, ihb]
        · simp [habs]
      · rename_i hab
        simp [hab]

end Forest

end LiveMarkup
