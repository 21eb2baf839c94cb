import LiveMarkup.Proofs.Convergence
import LiveMarkup.Proofs.Meeting

/-!
# Trees that later edits leave alone

An edit at a place further on leaves a tree alone, and so does one that appends to a node above it (`Edit.Passes`): the tree
is found at its path as before (`Forest.treeAt?_carryOut`). Of the edits that lead from one forest to another, those that come
after one that puts a tree somewhere all pass by that tree (`Forest.pairwise_passes`). So the tree remains as it has been put
(`Forest.leavesPut_diff`).
-/

namespace LiveMarkup

namespace Edit

/-- The edit looks up a node further on than a path, or appends to a node above it. -/
inductive Passes : Edit → Path → Prop
  /-- Where the two paths part, that of the edit takes a later step. -/
  | later {e : Edit} {p ps : Path} {j k : Nat} (qs : Path) (hpath : e.path = p ++ j :: ps) (h : k < j) : Passes e (p ++ k :: qs)
  /-- What is appended comes after all that is below the node. -/
  | above (p : Path) (t : Tree) (k : Nat) (qs : Path) : Passes (.append p t) (p ++ k :: qs)

/-- The edit can put a tree at a path: what it appends comes after the children of the node, however many these are. -/
inductive MayPut : Edit → Path → Prop
  | append (p : Path) (t : Tree) (k : Nat) : MayPut (.append p t) (p ++ [k])
  | replace (p : Path) (t : Tree) : MayPut (.replace p t) p

variable {e : Edit} {q : Path}

/-- An edit that passes by a path is neither at its end nor below it. -/
theorem Passes.not_within (h : e.Passes q) : ¬ q <+: e.path := by
  intro hwithin
  cases h with
  | later qs hpath h =>
    rw [hpath, List.prefix_append_right_inj, List.cons_prefix_cons] at hwithin
    omega
  | above p t k qs =>
    have hlength : (p ++ k :: qs).length ≤ p.length := hwithin.length_le
    rw [List.length_append, List.length_cons] at hlength
    omega

/-- What an edit puts is at the node that it looks up or below it. -/
theorem MayPut.prefix_of (h : e.MayPut q) : e.path <+: q := by
  cases h with
  | append p t k => exact List.prefix_append _ [k]
  | replace p t => exact List.prefix_refl _

end Edit

namespace Forest

variable {f g b b' : Forest} {q r ps : Path} {j k : Nat} {t : Tree} {e : Edit} {edits : List Edit}

/-- A path that goes on from a place leads to what it leads to from there. -/
theorem treeAt?_append (h : f.below? r = some b) (k : Nat) (qs : Path) : f.treeAt? (r ++ k :: qs) = b.treeAt? (k :: qs) := by
  induction r generalizing f with
  | nil =>
    cases h
    rfl
  | cons i r ih =>
    obtain ⟨before, after, name, attributes, children, hlist, rfl, hchildren⟩ := below?_cons_eq_some h
    have hat : f.toList[before.length]? = some (.element name attributes children) := by
      rw [hlist, getElem?_append_cons]
    rw [List.cons_append, treeAt?_cons hat (by simp)]
    exact ih hchildren

/-- What a path leads to depends on the tree at its first step only. -/
theorem treeAt?_congr (h : b.toList[k]? = b'.toList[k]?) (qs : Path) : b.treeAt? (k :: qs) = b'.treeAt? (k :: qs) := by
  cases qs with
  | nil => exact h
  | cons j qs => rw [treeAt?, treeAt?, h]

theorem lt_of_treeAt? (h : f.treeAt? (k :: qs) = some t) : k < f.toList.length := by
  by_contra hk
  have hnone : f.toList[k]? = none := List.getElem?_eq_none (Nat.le_of_not_lt hk)
  cases qs <;> simp [treeAt?, hnone] at h

/-- Other trees that are put at a place leave those alone that stand where they stood. -/
theorem treeAt?_setBelow (h : f.below? r = some b) (hk : b'.toList[k]? = b.toList[k]?) (qs : Path) :
    (f.setBelow r b').treeAt? (r ++ k :: qs) = f.treeAt? (r ++ k :: qs) := by
  rw [treeAt?_append (below?_setBelow h b'), treeAt?_append h, treeAt?_congr hk]

/-- What is put at a place by way of one tree leaves the others alone. -/
theorem treeAt?_setBelow_of_ne (h : f.below? (r ++ j :: ps) = some b) (hjk : j ≠ k) (new : Forest) (qs : Path) :
    (f.setBelow (r ++ j :: ps) new).treeAt? (r ++ k :: qs) = f.treeAt? (r ++ k :: qs) := by
  rw [below?_append, Option.bind_eq_some_iff] at h
  obtain ⟨c, hc, _⟩ := h
  rw [setBelow_append hc]
  refine treeAt?_setBelow hc ?_ qs
  rw [setBelow, toList_ofList, List.getElem?_modify_ne _ _ hjk]

/-- A tree that is exchanged further on leaves the earlier ones alone. -/
theorem treeAt?_exchange {change : Tree → Except Illegal (List Tree)} (hg : f.exchange (r ++ j :: ps) change = .ok g)
    (hk : k < j) (qs : Path) : g.treeAt? (r ++ k :: qs) = f.treeAt? (r ++ k :: qs) := by
  obtain ⟨p, before, after, trees, u, hpath, hp, _, rfl⟩ := exchange_eq_ok hg
  rcases List.eq_nil_or_concat' ps with rfl | ⟨ps, i, rfl⟩
  · obtain ⟨rfl, hlast⟩ := List.append_inj' hpath rfl
    obtain ⟨rfl, _⟩ := List.cons.inj hlast
    refine treeAt?_setBelow hp ?_ qs
    rw [toList_ofList, toList_ofList, List.getElem?_append_left hk, List.getElem?_append_left hk]
  · rw [← List.cons_append, ← List.append_assoc] at hpath
    obtain ⟨rfl, _⟩ := List.append_inj' hpath rfl
    exact treeAt?_setBelow_of_ne hp (Nat.ne_of_gt hk) _ qs

/-- An edit leaves the trees alone that it passes by. -/
theorem treeAt?_carryOut (hg : f.carryOut e = .ok g) (he : e.Passes q) (ht : f.treeAt? q = some t) :
    g.treeAt? q = some t := by
  cases he with
  | @later e r ps j k qs hpath hk =>
    rw [← ht]
    cases e with
    | setAttributes path attributes =>
      obtain rfl : path = r ++ j :: ps := hpath
      exact treeAt?_exchange hg hk qs
    | setText path text =>
      obtain rfl : path = r ++ j :: ps := hpath
      exact treeAt?_exchange hg hk qs
    | append path tree =>
      obtain rfl : path = r ++ j :: ps := hpath
      rw [carryOut] at hg
      split at hg
      · cases hg
      · rename_i below hbelow
        cases hg
        exact treeAt?_setBelow_of_ne hbelow (Nat.ne_of_gt hk) _ qs
    | remove path =>
      obtain rfl : path = r ++ j :: ps := hpath
      rw [carryOut, if_neg (by simp)] at hg
      exact treeAt?_exchange hg hk qs
    | replace path tree =>
      obtain rfl : path = r ++ j :: ps := hpath
      rw [carryOut, if_neg (by simp)] at hg
      exact treeAt?_exchange hg hk qs
  | above r tree k qs =>
    rw [carryOut] at hg
    split at hg
    · cases hg
    · rename_i below hbelow
      cases hg
      have hk : k < below.toList.length := lt_of_treeAt? ((treeAt?_append hbelow k qs).symm.trans ht)
      rw [treeAt?_setBelow hbelow _ qs, ht]
      rw [toList_ofList, List.getElem?_append_left hk]

/-- Edits that lead from one forest to another leave a tree alone if each of them does. -/
theorem Leads.treeAt?_eq (h : f.Leads edits g) (hall : ∀ e ∈ edits, e.Passes q) (ht : f.treeAt? q = some t) :
    g.treeAt? q = some t := by
  induction h with
  | nil f => exact ht
  | cons first _ ih =>
    obtain ⟨he, hrest⟩ := List.forall_mem_cons.mp hall
    exact ih hrest (treeAt?_carryOut first he ht)

/-! ## Trees that edits put -/

/-- The tree that an edit of the forest puts somewhere, and the path to it. -/
def put? (f : Forest) : Edit → Option (Path × Tree)
  | .append p t => (f.below? p).map fun below => (p ++ [below.length], t)
  | .replace p t => some (p, t)
  | _ => none

theorem mayPut_of_put? (h : f.put? e = some (q, t)) : e.MayPut q := by
  cases e with
  | append p tree =>
    rw [put?, Option.map_eq_some_iff] at h
    obtain ⟨below, _, heq⟩ := h
    cases heq
    exact .append p _ _
  | replace p tree =>
    cases h
    exact .replace _ _
  | setAttributes p attributes => cases h
  | setText p text => cases h
  | remove p => cases h

/-- A tree that an edit puts somewhere is there. -/
theorem treeAt?_of_put? (hg : f.carryOut e = .ok g) (h : f.put? e = some (q, t)) : g.treeAt? q = some t := by
  cases e with
  | append p tree =>
    rw [put?, Option.map_eq_some_iff] at h
    obtain ⟨below, hbelow, heq⟩ := h
    cases heq
    rw [carryOut, hbelow] at hg
    cases hg
    rw [treeAt?_append (below?_setBelow hbelow _), treeAt?, toList_ofList, ← length_toList, getElem?_append_cons]
  | replace p tree =>
    cases h
    rw [carryOut] at hg
    split at hg
    · cases hg
    · obtain ⟨p, before, after, trees, u, rfl, hp, htrees, rfl⟩ := exchange_eq_ok hg
      cases htrees
      rw [treeAt?_append (below?_setBelow hp _), treeAt?, toList_ofList, List.singleton_append, getElem?_append_cons]
  | setAttributes p attributes => cases h
  | setText p text => cases h
  | remove p => cases h

/-! ## The order of differences -/

/-- Two forests are compared pair by pair, each pair with what is below it, until one of them has come to its end. -/
@[elab_as_elim]
theorem inductionOnPairs {motive : Path → Nat → Forest → Forest → Prop} (nil : ∀ p i new, motive p i .nil new)
    (ended : ∀ p i t old, motive p i (cons t old) .nil)
    (next : ∀ p i t u old new, motive (p ++ [i]) 0 t.below u.below → motive p (i + 1) old new →
      motive p i (cons t old) (cons u new)) (p : Path) (i : Nat) (old new : Forest) : motive p i old new := by
  induction old generalizing p i new with
  | nil => exact nil p i new
  | leaf a old ih =>
    cases new with
    | nil => exact ended p i (.leaf a) old
    | leaf b new => exact next p i (.leaf a) (.leaf b) old new (nil _ _ _) (ih p (i + 1) new)
    | element b bs below new => exact next p i (.leaf a) (.element b bs below) old new (nil _ _ _) (ih p (i + 1) new)
  | element a as below old ihb ih =>
    cases new with
    | nil => exact ended p i (.element a as below) old
    | leaf b new => exact next p i (.element a as below) (.leaf b) old new (ihb _ _ _) (ih p (i + 1) new)
    | element b bs below' new =>
      exact next p i (.element a as below) (.element b bs below') old new (ihb _ _ _) (ih p (i + 1) new)

end Forest

namespace Tree

/-- What makes of one node another one that it matches, whatever is below the two. -/
def ownEdits (p : Path) : Tree → Tree → List Edit
  | leaf a, leaf b => if a = b then [] else [.setText p b]
  | element _ as _, element _ bs _ => if as = bs then [] else [.setAttributes p bs]
  | _, _ => []

/-- The edits that lead from one tree to another. -/
def edits (p : Path) (t u : Tree) : List Edit :=
  if t.Matches u then t.ownEdits p u ++ Forest.differences p 0 t.below u.below else [.replace p u]

variable {t u : Tree} {p : Path} {e : Edit}

/-- What two nodes differ in themselves is one text or one list of attributes. -/
theorem mem_ownEdits (h : e ∈ t.ownEdits p u) : (∃ text, e = .setText p text) ∨ ∃ attributes, e = .setAttributes p attributes := by
  cases t with
  | leaf a =>
    cases u with
    | leaf b =>
      rw [ownEdits, List.mem_ite_nil_left] at h
      exact Or.inl ⟨b, List.mem_singleton.mp h.2⟩
    | element b bs below' => cases h
  | element a as below =>
    cases u with
    | leaf b => cases h
    | element b bs below' =>
      rw [ownEdits, List.mem_ite_nil_left] at h
      exact Or.inr ⟨bs, List.mem_singleton.mp h.2⟩

theorem not_mayPut_of_mem_ownEdits (h : e ∈ t.ownEdits p u) (q : Path) : ¬ e.MayPut q := by
  intro hput
  rcases mem_ownEdits h with ⟨text, rfl⟩ | ⟨attributes, rfl⟩
  · cases hput
  · cases hput

/-- The edits that lead from one tree to another are differences of what is below the two, or look up the node at the top,
and then neither append to it nor remove it. -/
theorem mem_edits (h : e ∈ t.edits p u) : e ∈ Forest.differences p 0 t.below u.below ∨
    e.path = p ∧ (∀ r s, e ≠ .append r s) ∧ ∀ r, e ≠ .remove r := by
  rw [edits] at h
  split at h
  · rcases List.mem_append.mp h with h | h
    · rcases mem_ownEdits h with ⟨text, rfl⟩ | ⟨attributes, rfl⟩
      · exact Or.inr ⟨rfl, nofun, nofun⟩
      · exact Or.inr ⟨rfl, nofun, nofun⟩
    · exact Or.inl h
  · obtain rfl := List.mem_singleton.mp h
    exact Or.inr ⟨rfl, nofun, nofun⟩

end Tree

namespace Forest

variable {old new : Forest} {p q r : Path} {i k : Nat} {t u s : Tree} {e e' : Edit}

theorem differences_cons (p : Path) (i : Nat) (t u : Tree) (old new : Forest) :
    differences p i (cons t old) (cons u new) = t.edits (p ++ [i]) u ++ differences p (i + 1) old new := by
  cases t with
  | leaf a =>
    cases u with
    | leaf b => simp [cons, differences, Tree.edits, Tree.Matches, Tree.ownEdits, Tree.below, toList]
    | element b bs below' => simp [cons, differences, Tree.edits, Tree.Matches]
  | element a as below =>
    cases u with
    | leaf b => simp [cons, differences, Tree.edits, Tree.Matches]
    | element b bs below' =>
      by_cases hab : a = b
      · simp [cons, differences, Tree.edits, Tree.Matches, Tree.ownEdits, Tree.below, hab]
      · simp [cons, differences, Tree.edits, Tree.Matches, hab]

theorem prefix_path_of_mem_differences (h : e ∈ differences p i old new) : p <+: e.path := by
  induction p, i, old, new using inductionOnPairs with
  | nil p i new =>
    obtain ⟨t, _, rfl⟩ := List.mem_map.mp h
    exact List.prefix_refl p
  | ended p i t old =>
    rw [differences_nil_right] at h
    obtain rfl := List.eq_of_mem_replicate h
    exact List.prefix_append p [i]
  | next p i t u old new ihb ih =>
    rw [differences_cons, List.mem_append] at h
    rcases h with h | h
    · rcases Tree.mem_edits h with hbelow | ⟨hpath, _⟩
      · exact (List.prefix_append p [i]).trans (ihb hbelow)
      · exact hpath ▸ List.prefix_append p [i]
    · exact ih h

/-- The edits that lead from one tree to another are at its top or below it. -/
theorem path_of_mem_edits (h : e ∈ t.edits (p ++ [i]) u) : ∃ ps, e.path = p ++ i :: ps := by
  rcases Tree.mem_edits h with hbelow | ⟨hpath, _⟩
  · obtain ⟨ps, hpath⟩ := prefix_path_of_mem_differences hbelow
    exact ⟨ps, by rw [← hpath, List.append_assoc, List.singleton_append]⟩
  · exact ⟨[], hpath⟩

/-- The differences from a position on append to the node above, or are at that position or a later one. -/
theorem path_of_mem_differences (h : e ∈ differences p i old new) :
    (∃ t, e = .append p t) ∨ ∃ j ps, i ≤ j ∧ e.path = p ++ j :: ps := by
  induction p, i, old, new using inductionOnPairs with
  | nil p i new =>
    obtain ⟨t, _, rfl⟩ := List.mem_map.mp h
    exact Or.inl ⟨t, rfl⟩
  | ended p i t old =>
    rw [differences_nil_right] at h
    obtain rfl := List.eq_of_mem_replicate h
    exact Or.inr ⟨i, [], Nat.le_refl i, rfl⟩
  | next p i t u old new _ ih =>
    rw [differences_cons, List.mem_append] at h
    rcases h with h | h
    · obtain ⟨ps, hpath⟩ := path_of_mem_edits h
      exact Or.inr ⟨i, ps, Nat.le_refl i, hpath⟩
    · rcases ih h with hlast | ⟨j, ps, hj, hpath⟩
      · exact Or.inl hlast
      · exact Or.inr ⟨j, ps, Nat.le_of_succ_le hj, hpath⟩

/-- The differences from the next position on pass by what has been put before. -/
theorem passes_of_mem_differences (he : e ∈ t.edits (p ++ [i]) u) (he' : e' ∈ differences p (i + 1) old new)
    (hput : e.MayPut q) : e'.Passes q := by
  obtain ⟨ps, hpath⟩ := path_of_mem_edits he
  obtain ⟨qs, rfl⟩ := hput.prefix_of
  rw [hpath, List.append_assoc, List.cons_append]
  rcases path_of_mem_differences he' with ⟨s, rfl⟩ | ⟨j, ps', hj, hpath'⟩
  · exact .above p s i (ps ++ qs)
  · exact .later (ps ++ qs) hpath' hj

/-- Each of the differences passes by all trees that those before it put somewhere. -/
theorem pairwise_passes (p : Path) (i : Nat) (old new : Forest) :
    (differences p i old new).Pairwise fun e e' => ∀ q, e.MayPut q → e'.Passes q := by
  induction p, i, old, new using inductionOnPairs with
  | nil p i new =>
    rw [differences, List.pairwise_map]
    refine List.pairwise_of_forall ?_
    rintro t t' q ⟨⟩
    exact .above p t' _ []
  | ended p i t old =>
    rw [differences_nil_right, List.pairwise_replicate]
    refine Or.inr ?_
    rintro q ⟨⟩
  | next p i t u old new ihb ih =>
    rw [differences_cons, List.pairwise_append]
    refine ⟨?_, ih, fun e he e' he' q hput => passes_of_mem_differences he he' hput⟩
    rw [Tree.edits]
    split
    · rw [List.pairwise_append]
      refine ⟨?_, ihb, fun e he e' _ q hput => absurd hput (Tree.not_mayPut_of_mem_ownEdits he q)⟩
      exact List.pairwise_of_forall_mem_list fun e he e' _ q hput => absurd hput (Tree.not_mayPut_of_mem_ownEdits he q)
    · exact List.pairwise_singleton _ _

/-- Where two ways from a node lead to one place, they begin with the same step. -/
theorem step_unique {ps ps' : Path} {j : Nat} (h : p ++ i :: ps = p ++ j :: ps') : i = j :=
  (List.cons.inj (List.append_cancel_left h)).1

/-- Of the children of one node, some are removed or some are appended, but not both. -/
theorem not_remove_of_append (happend : .append r s ∈ differences p i old new) (k : Nat) :
    .remove (r ++ [k]) ∉ differences p i old new := by
  intro hremove
  induction p, i, old, new using inductionOnPairs with
  | nil p i new =>
    obtain ⟨t, _, ht⟩ := List.mem_map.mp hremove
    cases ht
  | ended p i t old =>
    rw [differences_nil_right] at happend
    cases List.eq_of_mem_replicate happend
  | next p i t u old new ihb ih =>
    rw [differences_cons, List.mem_append] at happend hremove
    rcases happend with happend | happend
    · rcases hremove with hremove | hremove
      · refine ihb ?_ ?_
        · exact (Tree.mem_edits happend).resolve_right fun h => h.2.1 r s rfl
        · exact (Tree.mem_edits hremove).resolve_right fun h => h.2.2 (r ++ [k]) rfl
      · -- the one is at the position, the other at a later one
        obtain ⟨ps, hpath⟩ := path_of_mem_edits happend
        obtain ⟨j, ps', hj, hpath'⟩ := (path_of_mem_differences hremove).resolve_left nofun
        obtain rfl : r = p ++ i :: ps := hpath
        have heq : p ++ i :: ps ++ [k] = p ++ j :: ps' := hpath'
        rw [List.append_assoc] at heq
        exact absurd (step_unique heq) (Nat.ne_of_lt hj)
    · rcases hremove with hremove | hremove
      · have hbelow := (Tree.mem_edits hremove).resolve_right fun h => h.2.2 (r ++ [k]) rfl
        obtain ⟨j, ps, _, hpath⟩ := (path_of_mem_differences hbelow).resolve_left nofun
        have heq : r ++ [k] = p ++ [i] ++ j :: ps := hpath
        rcases path_of_mem_differences happend with ⟨s', happend⟩ | ⟨j', ps', hj', hpath'⟩
        · cases happend
          rw [List.append_assoc, List.append_cancel_left_eq] at heq
          cases heq
        · obtain rfl : r = p ++ j' :: ps' := hpath'
          rw [List.append_assoc, List.append_assoc] at heq
          exact absurd (step_unique heq) (Nat.ne_of_gt hj')
      · exact ih happend hremove

/-! ## Runs -/

/-- No edit of a list looks up a node of a tree that an edit before it has put somewhere: when its turn comes, the tree stands
where it has been put, and the path of the edit leads neither to its top nor below it. -/
def LeavesPut (f : Forest) (edits : List Edit) : Prop :=
  ∀ (before between after : List Edit) (e e' : Edit), edits = before ++ e :: (between ++ e' :: after) →
    ∃ m m' : Forest, f.carryOutAll 0 before = .ok m ∧ f.carryOutAll 0 (before ++ e :: between) = .ok m' ∧
      ∀ q t, m.put? e = some (q, t) → m'.treeAt? q = some t ∧ ¬ q <+: e'.path

/-- The edits that lead from one forest to another can be carried out, and leave what they have put. -/
theorem leavesPut_diff (old new : Forest) : old.LeavesPut (old.diff new).edits := by
  intro before between after e e' hedits
  have hleads := leads_diff old new
  have hpasses := pairwise_passes [] 0 old new
  rw [← edits_diff, hedits, List.pairwise_append, List.pairwise_cons] at hpasses
  obtain ⟨_, ⟨hlater, _⟩, _⟩ := hpasses
  rw [hedits] at hleads
  obtain ⟨m, hbefore, hrest⟩ := hleads.split
  cases hrest with
  | @cons _ g _ _ _ first rest =>
    obtain ⟨m', hbetween, _⟩ := rest.split
    refine ⟨m, m', hbefore.carryOutAll_eq 0, (hbefore.append (.cons first hbetween)).carryOutAll_eq 0, ?_⟩
    intro q t hput
    have hmay := mayPut_of_put? hput
    constructor
    · refine hbetween.treeAt?_eq ?_ (treeAt?_of_put? first hput)
      exact fun e'' he'' => hlater e'' (List.mem_append_left _ he'') q hmay
    · exact (hlater e' (List.mem_append_right _ List.mem_cons_self) q hmay).not_within

end Forest

end LiveMarkup
