import LiveMarkup.Proofs.Places

/-!
# Edits of plain trees

What an edit means, without handles and slots: the forest below the root before it and after it (`Forest.carryOut`). An edit
that is not legal on a forest does not change it, and a list of edits goes up to the first that is not (`Forest.carryOutAll`).
-/

namespace LiveMarkup

/-- Why an edit is not legal on a tree. -/
inductive Illegal
  /-- The root would go, or something would take its place. -/
  | root
  /-- The path leads nowhere, or to a node of the wrong kind. -/
  | misfit
deriving DecidableEq, Repr

namespace Forest

/-- Puts trees in the place of the tree that a path leads to, which may not be the root. -/
def exchange (f : Forest) (path : Path) (change : Tree → Except Illegal (List Tree)) : Except Illegal Forest :=
  match path.getLast? with
  | none => .error .misfit
  | some i =>
    match f.below? path.dropLast with
    | none => .error .misfit
    | some below =>
      match below.toList[i]? with
      | none => .error .misfit
      | some t =>
        match change t with
        | .error reason => .error reason
        | .ok trees =>
          .ok (f.setBelow path.dropLast (.ofList (below.toList.take i ++ (trees ++ below.toList.drop (i + 1)))))

/-- Carries out an edit on the forest below the root. -/
def carryOut (f : Forest) : Edit → Except Illegal Forest
  | .setAttributes path attributes => f.exchange path fun t =>
    match t with
    | .element name _ children => .ok [.element name attributes children]
    | .leaf _ => .error .misfit
  | .setText path text => f.exchange path fun t =>
    match t with
    | .leaf _ => .ok [.leaf text]
    | .element _ _ _ => .error .misfit
  | .append path tree =>
    match f.below? path with
    | none => .error .misfit
    | some below => .ok (f.setBelow path (.ofList (below.toList ++ [tree])))
  | .remove path => if path = [] then .error .root else f.exchange path fun _ => .ok []
  | .replace path tree => if path = [] then .error .root else f.exchange path fun _ => .ok [tree]

/-- Carries out edits one after the other, the first of which has a number. An edit that is not legal is given by its
number. -/
def carryOutAll (f : Forest) : (number : Nat) → List Edit → Except (Nat × Illegal) Forest
  | _, [] => .ok f
  | number, e :: rest =>
    match f.carryOut e with
    | .error reason => .error (number, reason)
    | .ok g => g.carryOutAll (number + 1) rest

/-- Only trees that a path leads to are exchanged. -/
theorem exchange_of_below?_eq_none {f : Forest} {path : Path} (h : f.below? path = none) (i : Nat)
    (change : Tree → Except Illegal (List Tree)) : f.exchange (path ++ [i]) change = .error .misfit := by
  rw [exchange, List.getLast?_concat, List.dropLast_concat, h]

theorem exchange_of_getElem?_eq_none {f below : Forest} {path : Path} (h : f.below? path = some below) {i : Nat}
    (hi : below.toList[i]? = none) (change : Tree → Except Illegal (List Tree)) :
    f.exchange (path ++ [i]) change = .error .misfit := by
  simp only [exchange, List.getLast?_concat, List.dropLast_concat, h, hi]

/-- The tree that a path leads to is exchanged for what it is changed to. -/
theorem exchange_of_split {f below : Forest} {path : Path} (h : f.below? path = some below) {before after : List Tree}
    {t : Tree} (hsplit : below.toList = before ++ t :: after) (change : Tree → Except Illegal (List Tree)) :
    f.exchange (path ++ [before.length]) change =
      match change t with
      | .error reason => .error reason
      | .ok trees => .ok (f.setBelow path (.ofList (before ++ (trees ++ after)))) := by
  have htake : (before ++ t :: after).take before.length = before := List.take_left
  have hdrop : (before ++ t :: after).drop (before.length + 1) = after := by
    rw [← List.drop_drop, List.drop_left, List.drop_one, List.tail_cons]
  simp only [exchange, List.getLast?_concat, List.dropLast_concat, h, hsplit, getElem?_append_cons, htake, hdrop]

/-- Where a tree has been exchanged, it was among those at a place, and there stands now what it was changed to. -/
theorem exchange_eq_ok {f g : Forest} {path : Path} {change : Tree → Except Illegal (List Tree)}
    (h : f.exchange path change = .ok g) : ∃ (p : Path) (before after trees : List Tree) (t : Tree),
      path = p ++ [before.length] ∧ f.below? p = some (.ofList (before ++ t :: after)) ∧ change t = .ok trees ∧
      g = f.setBelow p (.ofList (before ++ (trees ++ after))) := by
  rcases List.eq_nil_or_concat' path with rfl | ⟨p, i, rfl⟩
  · cases h
  · cases hbelow : f.below? p with
    | none =>
      rw [exchange_of_below?_eq_none hbelow] at h
      cases h
    | some below =>
      cases ht : below.toList[i]? with
      | none =>
        rw [exchange_of_getElem?_eq_none hbelow ht] at h
        cases h
      | some t =>
        obtain ⟨before, after, hsplit, rfl⟩ := exists_split_of_getElem? ht
        rw [exchange_of_split hbelow hsplit] at h
        split at h
        · cases h
        · rename_i trees htrees
          cases h
          exact ⟨p, before, after, trees, t, rfl, by rw [← hsplit, ofList_toList, hbelow], htrees, rfl⟩

end Forest

end LiveMarkup
