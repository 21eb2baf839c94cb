import LiveMarkup.Proofs.Exchanges
import LiveMarkup.Proofs.FreshHandles

/-!
# Renewing trees by a merge

Where two trees come to be compared the node stays, and if they match, so do as many of its attributes as both have; all
else that a merge leaves is new (`Outline.Renewed`). An exchange of trees renews them so (`Exchange.renewed`): whatever an edit
takes out was there when the merge began, since each tree is exchanged at most once, and below trees that have stayed.
-/

namespace LiveMarkup

/-- If two lists without repetitions begin alike, as far as both go, what the one has beyond the other is not in the other. -/
theorem notMem_of_mem_drop {α : Type} {old new : List α} (hnodup : new.Nodup)
    (hkept : new.take old.length = old.take new.length) {a : α} (ha : a ∈ new.drop old.length) : a ∉ old := by
  intro hold
  have hlonger : old.length ≤ new.length := by
    have hpos := List.length_pos_of_mem ha
    rw [List.length_drop] at hpos
    omega
  rw [List.take_of_length_le hlonger] at hkept
  rw [← hkept] at hold
  exact List.disjoint_take_drop hnodup (Nat.le_refl _) hold ha

namespace Outline

/-- Of the attributes of an element as many keep their handles, in order, as there are before and after; the handles of those
that come named nothing in the store. -/
structure KeepsAttributes (s₀ : Store) (t t' : OutlineTree) : Prop where
  kept : (t'.attributes.map Prod.fst).take t.attributes.length = (t.attributes.map Prod.fst).take t'.attributes.length
  fresh : ∀ a ∈ (t'.attributes.map Prod.fst).drop t.attributes.length, s₀.attribute? a = none

/-- Trees, and what a merge makes of them: handles are kept where trees come to be compared, and all others are such as named
nothing in the store. -/
inductive Renewed (s₀ : Store) : List OutlineTree → List OutlineTree → Prop
  /-- The trees go. -/
  | removed (old : List OutlineTree) : Renewed s₀ old []
  /-- Trees come. -/
  | added {new : List OutlineTree} (fresh : (ofList new).NewTo s₀) : Renewed s₀ [] new
  /-- The first tree matches, so its node and attributes stay, and the same is true of what is below. -/
  | kept {t t' : OutlineTree} {old new : List OutlineTree} (node : t'.node = t.node) (same : t.tree.Matches t'.tree)
      (attributes : KeepsAttributes s₀ t t') (inside : Renewed s₀ t.below.toList t'.below.toList)
      (rest : Renewed s₀ old new) : Renewed s₀ (t :: old) (t' :: new)
  /-- The first tree does not match, so only its node stays. -/
  | replaced {t t' : OutlineTree} {old new : List OutlineTree} (node : t'.node = t.node) (other : ¬ t.tree.Matches t'.tree)
      (attributes : ∀ a ∈ t'.attributes.map Prod.fst, s₀.attribute? a = none) (inside : t'.below.NewTo s₀)
      (rest : Renewed s₀ old new) : Renewed s₀ (t :: old) (t' :: new)

variable {s₀ : Store} {old new : List OutlineTree} {t t' : OutlineTree} {p : Path}

namespace Renewed

/-- The trees after the first one are renewed as well. -/
theorem cons (h : Renewed s₀ [t] [t']) (hrest : Renewed s₀ old new) : Renewed s₀ (t :: old) (t' :: new) := by
  cases h with
  | kept node same attributes inside rest => exact .kept node same attributes inside hrest
  | replaced node other attributes inside rest => exact .replaced node other attributes inside hrest

/-- What comes in place of nothing is new. -/
theorem newTo (h : Renewed s₀ [] new) : (ofList new).NewTo s₀ := by
  cases h with
  | removed => exact ⟨fun n hn => (List.not_mem_nil hn).elim, fun a ha => (List.not_mem_nil ha).elim⟩
  | added fresh => exact fresh

/-- Trees at one position are renewed on their own. -/
theorem at_position {i : Nat} (h : Renewed s₀ old new) (ht : old[i]? = some t) (ht' : new[i]? = some t') :
    Renewed s₀ [t] [t'] := by
  induction i generalizing old new with
  | zero =>
    cases h with
    | removed => cases ht'
    | added fresh => cases ht
    | kept node same attributes inside rest =>
      cases ht
      cases ht'
      exact .kept node same attributes inside (.removed [])
    | replaced node other attributes inside rest =>
      cases ht
      cases ht'
      exact .replaced node other attributes inside (.removed [])
  | succ i ih =>
    cases h with
    | removed => cases ht'
    | added fresh => cases ht
    | kept node same attributes inside rest => exact ih rest ht ht'
    | replaced node other attributes inside rest => exact ih rest ht ht'

/-- Where trees are compared the node stays, and if they match so do the attributes. -/
theorem of_compared (h : Renewed s₀ old new) (hcompared : Compared old new p t t') :
    t'.node = t.node ∧ (t.tree.Matches t'.tree → KeepsAttributes s₀ t t') := by
  induction hcompared with
  | here ht ht' =>
    cases h.at_position ht ht' with
    | kept node same attributes inside rest => exact ⟨node, fun _ => attributes⟩
    | replaced node other attributes inside rest => exact ⟨node, fun same => absurd same other⟩
  | inside ht ht' same within ih =>
    cases h.at_position ht ht' with
    | kept node same attributes inside rest => exact ih inside
    | replaced node other attributes inside rest => exact absurd same other

end Renewed

/-- What comes to be compared after the first trees comes to be compared. -/
theorem Compared.exists_next {u u' : OutlineTree} (h : Compared old new p u u') :
    ∃ q, Compared (t :: old) (t' :: new) q u u' := by
  cases p with
  | nil => exact absurd rfl h.ne_nil
  | cons i p => exact ⟨(i + 1) :: p, h.next⟩

namespace Renewed

/-- A node whose handle named one before is one of those that come to be compared. -/
theorem exists_compared_of_node (h : Renewed s₀ old new) {n : NodeRef} (hn : n ∈ (ofList new).nodes)
    (hlive : (s₀.node? n).isSome) : ∃ p t t', Compared old new p t t' ∧ t'.node = n := by
  induction h with
  | removed => cases hn
  | added fresh =>
    rw [fresh.1 n hn] at hlive
    cases hlive
  | @kept t t' old new node same attributes inside rest ihBelow ihRest =>
    rw [ofList_cons, nodes_cons, List.mem_cons, List.mem_append] at hn
    rcases hn with rfl | hbelow | hrest
    · exact ⟨[0], t, t', .here rfl rfl, rfl⟩
    · rw [ofList_toList] at ihBelow
      obtain ⟨p, u, u', hcompared, hu⟩ := ihBelow hbelow
      exact ⟨0 :: p, u, u', .inside rfl rfl same hcompared, hu⟩
    · obtain ⟨p, u, u', hcompared, hu⟩ := ihRest hrest
      obtain ⟨q, hnext⟩ := hcompared.exists_next
      exact ⟨q, u, u', hnext, hu⟩
  | @replaced t t' old new node other attributes inside rest ihRest =>
    rw [ofList_cons, nodes_cons, List.mem_cons, List.mem_append] at hn
    rcases hn with rfl | hbelow | hrest
    · exact ⟨[0], t, t', .here rfl rfl, rfl⟩
    · rw [inside.1 n hbelow] at hlive
      cases hlive
    · obtain ⟨p, u, u', hcompared, hu⟩ := ihRest hrest
      obtain ⟨q, hnext⟩ := hcompared.exists_next
      exact ⟨q, u, u', hnext, hu⟩

/-- An attribute whose handle named one before is one of those that are kept of two elements that match. -/
theorem exists_compared_of_attribute (h : Renewed s₀ old new) {a : AttributeRef} (ha : a ∈ (ofList new).attributes)
    (hlive : (s₀.attribute? a).isSome) : ∃ p t t', Compared old new p t t' ∧ t.tree.Matches t'.tree ∧
      a ∈ (t'.attributes.map Prod.fst).take t.attributes.length := by
  induction h with
  | removed => cases ha
  | added fresh =>
    rw [fresh.2 a ha] at hlive
    cases hlive
  | @kept t t' old new node same attributes inside rest ihBelow ihRest =>
    rw [ofList_cons, attributes_cons, List.mem_append, List.mem_append] at ha
    rcases ha with hown | hbelow | hrest
    · rw [← List.take_append_drop t.attributes.length (t'.attributes.map Prod.fst), List.mem_append] at hown
      rcases hown with hkept | hnew
      · exact ⟨[0], t, t', .here rfl rfl, same, hkept⟩
      · rw [attributes.fresh a hnew] at hlive
        cases hlive
    · rw [ofList_toList] at ihBelow
      obtain ⟨p, u, u', hcompared, hu⟩ := ihBelow hbelow
      exact ⟨0 :: p, u, u', .inside rfl rfl same hcompared, hu⟩
    · obtain ⟨p, u, u', hcompared, hu⟩ := ihRest hrest
      obtain ⟨q, hnext⟩ := hcompared.exists_next
      exact ⟨q, u, u', hnext, hu⟩
  | @replaced t t' old new node other attributes inside rest ihRest =>
    rw [ofList_cons, attributes_cons, List.mem_append, List.mem_append] at ha
    rcases ha with hown | hbelow | hrest
    · rw [attributes a hown] at hlive
      cases hlive
    · rw [inside.2 a hbelow] at hlive
      cases hlive
    · obtain ⟨p, u, u', hcompared, hu⟩ := ihRest hrest
      obtain ⟨q, hnext⟩ := hcompared.exists_next
      exact ⟨q, u, u', hnext, hu⟩

end Renewed

/-- The handles of two lists of trees name something if those of each do. -/
theorem liveIn_append {l m : List OutlineTree} {s : Store} :
    (ofList (l ++ m)).LiveIn s ↔ (ofList l).LiveIn s ∧ (ofList m).LiveIn s := by
  simp only [LiveIn, nodes_ofList_append, attributes_ofList_append, List.forall_mem_append]
  tauto

/-- A list of trees is new if the first one is and the others are. -/
theorem newTo_cons {l : List OutlineTree} {s : Store} :
    (ofList (t :: l)).NewTo s ↔ (ofList [t]).NewTo s ∧ (ofList l).NewTo s := by
  have hsplit : t :: l = [t] ++ l := rfl
  simp only [hsplit, NewTo, nodes_ofList_append, attributes_ofList_append, List.forall_mem_append]
  tauto

theorem liveIn_cons {o : Outline} {s : Store} : (cons t o).LiveIn s ↔ (s.node? t.node).isSome ∧
    (∀ a ∈ t.attributes.map Prod.fst, (s.attribute? a).isSome) ∧ t.below.LiveIn s ∧ o.LiveIn s := by
  simp only [LiveIn, nodes_cons, attributes_cons, List.forall_mem_cons, List.forall_mem_append]
  tauto

end Outline

/-! ## Exchanges renew trees -/

namespace Store

open Outline (Renewed KeepsAttributes LiveIn)

variable {s₀ s m s₁ s' : Store} {d : DocumentId} {o : Outline} {g : Spot} {old rest : List OutlineTree} {t t' : OutlineTree}

/-- What is left of a tree that is emptied is the handle of its node, so all others that it is filled with are new. -/
theorem Once.replace (h₀ : s₀.Once s) (hs : s.Shows d o) (place : g.Holds d o (t :: rest))
    (hlive : (Outline.ofList [t]).LiveIn s₀) (hnode : t'.node = t.node) (hclears : s.Clears m)
    (hm : m.Shows d (g.fill o (t.emptied :: rest))) (hfills : m.Fills s₁) (h₁ : s₁.Shows d (g.fill o (t' :: rest))) :
    s₀.Once s₁ ∧ (∀ a ∈ t'.attributes.map Prod.fst, s₀.attribute? a = none) ∧ t'.below.NewTo s₀ := by
  have hwhole : g.Holds d o ([t] ++ rest) := place
  have hbetween : m.Shows d (g.fill o ([t.emptied] ++ rest)) := hm
  have hplace := hwhole.fill ([t.emptied] ++ rest)
  have hfilled : s₁.Shows d (g.fill (g.fill o ([t.emptied] ++ rest)) ([t'] ++ rest)) := by
    rw [hwhole.fill_fill]
    exact h₁
  obtain ⟨honce, _, _⟩ := h₀.exchange hs hwhole hlive hclears.turns hbetween
  have hemptied : (Outline.ofList [t.emptied]).LiveIn s₀ := by
    rw [Outline.ofList_cons, Outline.liveIn_cons] at hlive ⊢
    rw [OutlineTree.node_emptied]
    cases t <;> exact ⟨hlive.1, List.forall_mem_nil _, ⟨List.forall_mem_nil _, List.forall_mem_nil _⟩, hlive.2.2.2⟩
  have hnodes : (Outline.ofList [t.emptied]).nodes = [t.node] := by cases t <;> rfl
  have hattributes : (Outline.ofList [t.emptied]).attributes = [] := by cases t <;> rfl
  obtain ⟨honce', hnew, hnew'⟩ := honce.exchange hbetween hplace hemptied hfills.turns hfilled
  have hnodup := (hfilled.nodup_at_place (hplace.fill ([t'] ++ rest))).1
  rw [hnodes, Outline.ofList_cons, Outline.nodes_cons] at hnew
  rw [hattributes, Outline.ofList_cons, Outline.attributes_cons] at hnew'
  rw [Outline.ofList_cons, Outline.nodes_cons, List.nodup_cons] at hnodup
  refine ⟨honce', fun a ha => hnew' a (List.mem_append_left _ ha) List.not_mem_nil, fun n hn => hnew n ?_ ?_,
    fun a ha => hnew' a ?_ List.not_mem_nil⟩
  · exact List.mem_cons_of_mem _ (List.mem_append_left _ hn)
  · rw [List.mem_singleton, ← hnode]
    rintro rfl
    exact hnodup.1 (List.mem_append_left _ hn)
  · exact List.mem_append_right _ (List.mem_append_left _ ha)

/-- When attributes are set, as many as there are before and after keep their handles, and those that come are new. -/
theorem Reset.renewed {n : NodeRef} {name : QName} {as bs : List (AttributeRef × Attribute)} {below : Outline}
    {edits : List Edit} {changes : List Change} (h : Reset s g.address n as edits changes bs s₁) (h₀ : s₀.Once s)
    (hs : s.Shows d o) (place : g.Holds d o (.element n name as below :: rest))
    (hlive : (Outline.ofList [.element n name as below]).LiveIn s₀)
    (h₁ : s₁.Shows d (g.fill o (.element n name bs below :: rest))) :
    s₀.Once s₁ ∧ KeepsAttributes s₀ (.element n name as below) (.element n name bs below) := by
  cases h with
  | same =>
    refine ⟨h₀, rfl, ?_⟩
    rw [OutlineTree.attributes, List.drop_eq_nil_of_le (List.length_map _).le]
    exact List.forall_mem_nil _
  | set kept applied =>
    have hwhole : g.Holds d o ([.element n name as below] ++ rest) := place
    have hset : s₁.Shows d (g.fill o ([.element n name bs below] ++ rest)) := h₁
    obtain ⟨honce, _, hnew⟩ := h₀.exchange hs hwhole hlive (turns_applyEdit applied) hset
    have hplace := hwhole.fill ([.element n name bs below] ++ rest)
    have hnodup := (hset.nodup_at_place hplace).2
    rw [Outline.ofList_cons, Outline.ofList_cons, Outline.attributes_cons, Outline.attributes_cons] at hnew
    rw [Outline.ofList_cons, Outline.attributes_cons] at hnodup
    obtain ⟨hown, _, hapart⟩ := List.nodup_append.mp hnodup
    refine ⟨honce, kept, ?_⟩
    intro a ha
    have hmem : a ∈ bs.map Prod.fst := List.mem_of_mem_drop ha
    refine hnew a (List.mem_append_left _ hmem) ?_
    rw [List.mem_append, not_or]
    refine ⟨?_, fun hother => hapart a hmem a hother rfl⟩
    rw [← List.length_map Prod.fst] at kept ha
    rw [← bs.length_map Prod.fst] at kept
    exact notMem_of_mem_drop hown kept ha

/-- Trees that were there to begin with are renewed by an exchange, which takes out nothing twice. -/
theorem Exchange.renewed {made : List OutlineTree} {edits : List Edit} {changes : List Change}
    (h : Exchange d g s o old edits changes made s') (h₀ : s₀.Once s) (hlive : (Outline.ofList old).LiveIn s₀) :
    s₀.Once s' ∧ Renewed s₀ old made := by
  induction h with
  | done shows place => exact ⟨h₀, .removed []⟩
  | @add g s s₁ s' o t edits changes made shows place applied rest ih =>
    have hnone : g.Holds d o ([] ++ []) := place
    have hadded : s₁.Shows d (g.fill o ([t] ++ [])) := rest.shows
    obtain ⟨honce, hnodes, hattributes⟩ := h₀.exchange shows hnone hlive (turns_applyEdit applied) hadded
    have hnew : (Outline.ofList [t]).NewTo s₀ :=
      ⟨fun n hn => hnodes n hn List.not_mem_nil, fun a ha => hattributes a ha List.not_mem_nil⟩
    obtain ⟨honce', hmore⟩ := ih honce hlive
    exact ⟨honce', .added (Outline.newTo_cons.mpr ⟨hnew, hmore.newTo⟩)⟩
  | @remove g s s₁ s' o t old edits changes shows place applied rest ih =>
    obtain ⟨hfirst, hlast⟩ := Outline.liveIn_append (l := [t]).mp hlive
    have hwhole : g.Holds d o ([t] ++ old) := place
    have hremoved : s₁.Shows d (g.fill o ([] ++ old)) := rest.shows
    obtain ⟨honce, _, _⟩ := h₀.exchange shows hwhole hfirst (turns_applyEdit applied) hremoved
    exact ⟨(ih honce hlast).1, .removed (t :: old)⟩
  | @keep g s s' o n text old edits changes made place rest ih =>
    obtain ⟨_, hlast⟩ := Outline.liveIn_append (l := [.leaf n text]).mp hlive
    obtain ⟨honce, hrest⟩ := ih h₀ hlast
    exact ⟨honce, .kept rfl trivial ⟨rfl, List.forall_mem_nil _⟩ (.removed []) hrest⟩
  | @setText g s s₁ s' o n text new old edits changes made shows place applied rest ih =>
    obtain ⟨hfirst, hlast⟩ := Outline.liveIn_append (l := [.leaf n text]).mp hlive
    have hwhole : g.Holds d o ([.leaf n text] ++ old) := place
    have hset : s₁.Shows d (g.fill o ([.leaf n new] ++ old)) := rest.shows
    obtain ⟨honce, _, _⟩ := h₀.exchange shows hwhole hfirst (turns_applyEdit applied) hset
    obtain ⟨honce', hrest⟩ := ih honce hlast
    exact ⟨honce', .kept rfl trivial ⟨rfl, List.forall_mem_nil _⟩ (.removed []) hrest⟩
  | @replace g s emptied s₁ s' o t t' old edits changes made shows place other node clears between fills applied rest ih =>
    obtain ⟨hfirst, hlast⟩ := Outline.liveIn_append (l := [t]).mp hlive
    obtain ⟨honce, hattributes, hbelow⟩ := h₀.replace shows place hfirst node clears between fills rest.shows
    obtain ⟨honce', hrest⟩ := ih honce hlast
    exact ⟨honce', .replaced node other hattributes hbelow hrest⟩
  | @element g s s₁ s₂ s' o n name attributes attributes' below old first within edits change changes changes' inner made
      shows place reset inside rest ihInside ihRest =>
    obtain ⟨hfirst, hlast⟩ := Outline.liveIn_append (l := [.element n name attributes below]).mp hlive
    obtain ⟨honce, hkept⟩ := reset.renewed h₀ shows place hfirst inside.shows
    rw [Outline.ofList_cons, Outline.liveIn_cons] at hfirst
    have hbelow : (Outline.ofList below.toList).LiveIn s₀ := below.ofList_toList.symm ▸ hfirst.2.2.1
    obtain ⟨honce', hinner⟩ := ihInside honce hbelow
    obtain ⟨honce'', hrest⟩ := ihRest honce' hlast
    refine ⟨honce'', .kept rfl rfl ⟨hkept.kept, hkept.fresh⟩ ?_ hrest⟩
    rw [OutlineTree.below, OutlineTree.below, Outline.toList_ofList]
    exact hinner

end Store

end LiveMarkup
