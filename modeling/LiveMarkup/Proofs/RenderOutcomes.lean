import LiveMarkup.Proofs.Unfolding

/-!
# When rendering succeeds

A description is rendered if and only if each place that its fragment unfolds into, at whatever depth, has what it needs, and
no component is reached again from within itself (`Root.render_outcomes`). The renderer keeps a list of the components that it
is in. What it comes to within so many components as there are is the markup, or an error, whatever it would come to further
inside (`Root.renderTo_eq`).
-/

namespace LiveMarkup.Rendered

namespace Components

/-- The markup of a component, given up at a number of components inside one another. `active` are the components that are
being rendered around it, the innermost first. -/
def renderTo (bottom : Rendering) (components : Components) : (depth : Nat) → (active : List Int) → Int → Rendering
  | 0, _, _ => bottom
  | depth + 1, active, id =>
    if id ∈ active then .error (.componentCycle id)
    else
      match Keyed.find? id components with
      | none => .error (.componentNotFound id)
      | some c =>
        match c.statics with
        | .shared _ => .error (.unresolvedStatics id)
        | .inline texts => interleave (renderGap (renderTo bottom components depth (id :: active)) [] c.children) texts

variable {components left : Components} {p q : Place} {e : RenderError}

/-- A component is never met more components deep than there are outside of those around it. -/
theorem renderTo_eq {bottom : Rendering} {active : List Int} {depth : Nat} {id : Int}
    (hactive : ∀ id, id ∈ active ↔ (∃ c, Keyed.find? id components = some c) ∧ Keyed.find? id left = none)
    (hdepth : left.length < depth) : renderTo bottom components depth active id = components.render left id := by
  fun_induction Components.render components left id generalizing active depth with
  | case1 left id hc =>
    obtain ⟨depth, rfl⟩ := Nat.exists_eq_succ_of_ne_zero (Nat.ne_zero_of_lt hdepth)
    have hnot : id ∉ active := by simp [hactive, hc]
    rw [renderTo, if_neg hnot, hc]
  | case2 left id c hc hfree =>
    obtain ⟨depth, rfl⟩ := Nat.exists_eq_succ_of_ne_zero (Nat.ne_zero_of_lt hdepth)
    rw [renderTo, if_pos ((hactive id).mpr ⟨⟨c, hc⟩, hfree⟩)]
  | case3 left id c hc free hfree source hs =>
    obtain ⟨depth, rfl⟩ := Nat.exists_eq_succ_of_ne_zero (Nat.ne_zero_of_lt hdepth)
    have hnot : id ∉ active := by simp [hactive, hfree]
    rw [renderTo, if_neg hnot]
    simp only [hc, hs]
  | case4 left id c hc free hfree texts hs ih =>
    obtain ⟨depth, rfl⟩ := Nat.exists_eq_succ_of_ne_zero (Nat.ne_zero_of_lt hdepth)
    have hnot : id ∉ active := by simp [hactive, hfree]
    have hinner : renderTo bottom components depth (id :: active) = components.render (Keyed.erase id left) := by
      funext inner
      refine ih inner ?_ ?_
      · intro k
        rw [List.mem_cons, hactive, Keyed.find?_erase]
        by_cases hk : k = id
        · simp [hk, hc]
        · simp [hk]
      · have := Keyed.length_erase_lt hfree
        omega
    rw [renderTo, if_neg hnot]
    simp only [hc, hs, hinner]

/-! ## From place to place -/

theorem Unfolds.sizeOf_lt (h : components.Unfolds p q) (hp : ∀ id, p.content ≠ .component id) :
    sizeOf q.content < sizeOf p.content := by
  cases h with
  | gap hs hgap hc =>
    have := List.sizeOf_lt_of_mem (Keyed.mem_of_find? hc)
    simp only [Prod.mk.sizeOf_spec] at this
    simp only [Child.fragment.sizeOf_spec, Fragment.regular.sizeOf_spec]
    omega
  | cell hs hrow hgap hc =>
    have := List.sizeOf_lt_of_mem hrow
    have := List.sizeOf_lt_of_mem (List.mem_of_getElem? hc)
    simp only [Child.fragment.sizeOf_spec, Fragment.comprehension.sizeOf_spec]
    omega
  | bareCell hrow hc =>
    have := List.sizeOf_lt_of_mem hrow
    have := List.sizeOf_lt_of_mem hc
    simp only [Child.fragment.sizeOf_spec, Fragment.comprehension.sizeOf_spec]
    omega
  | component => exact absurd rfl (hp _)

/-- Inside a place there are fewer components left, or what is rendered is smaller. -/
theorem Unfolds.lex (h : components.Unfolds p q) (hfree : p.Free left) :
    (p.within left).length < left.length ∨ p.within left = left ∧ sizeOf q.content < sizeOf p.content := by
  obtain ⟨scopes, content⟩ := p
  cases content with
  | component id =>
    obtain ⟨c, hc⟩ := hfree id rfl
    exact .inl (Keyed.length_erase_lt hc)
  | fragment f => exact .inr ⟨rfl, h.sizeOf_lt nofun⟩
  | text s => exact .inr ⟨rfl, h.sizeOf_lt nofun⟩

/-- Components that are being rendered around a place are also being rendered around what it unfolds into. -/
theorem find?_within (p : Place) {id : Int} (h : Keyed.find? id left = none) : Keyed.find? id (p.within left) = none := by
  obtain ⟨scopes, content⟩ := p
  cases content with
  | component k =>
    rw [Place.within, Keyed.find?_erase, h]
    split <;> rfl
  | fragment f => exact h
  | text s => exact h

/-- From a place that is rendered only such places are reached. -/
theorem rendered_of_reflTransGen {markup : String} (hp : components.renderAt left p = .ok markup)
    (h : Relation.ReflTransGen components.Unfolds p q) : ∃ left' markup, components.renderAt left' q = .ok markup ∧
      ∀ id, Keyed.find? id left = none → Keyed.find? id left' = none := by
  induction h with
  | refl => exact ⟨left, markup, hp, fun _ hid => hid⟩
  | @tail r q _ hstep ih =>
    obtain ⟨left', markup, hr, hnone⟩ := ih
    obtain ⟨-, -, hinner⟩ := supplied_of_renderAt hr
    obtain ⟨markup, hq⟩ := hinner q hstep
    exact ⟨r.within left', markup, hq, fun id hid => find?_within r (hnone id hid)⟩

/-- A component that is rendered is not reached again from within itself. -/
theorem not_transGen_of_renderAt {scopes scopes' : Scopes} {id : Int} {markup : String}
    (h : components.renderAt left ⟨scopes, .component id⟩ = .ok markup) :
    ¬ Relation.TransGen components.Unfolds ⟨scopes, .component id⟩ ⟨scopes', .component id⟩ := by
  intro hloop
  obtain ⟨q, hfirst, hrest⟩ := Relation.TransGen.head'_iff.mp hloop
  obtain ⟨-, -, hinner⟩ := supplied_of_renderAt h
  obtain ⟨markup, hq⟩ := hinner q hfirst
  obtain ⟨left', markup, hagain, hnone⟩ := rendered_of_reflTransGen hq hrest
  obtain ⟨-, hfree, -⟩ := supplied_of_renderAt hagain
  obtain ⟨c, hc⟩ := hfree id rfl
  have hgone : Keyed.find? id (Keyed.erase id left) = none := by rw [Keyed.find?_erase, if_pos rfl]
  cases (hnone id hgone).symm.trans hc

/-- The components that are not left have been passed on the way to a place. -/
def Passed (components left : Components) (root p : Place) : Prop :=
  ∀ id c, Keyed.find? id components = some c → Keyed.find? id left = none → ∃ scopes,
    Relation.ReflTransGen components.Unfolds root ⟨scopes, .component id⟩ ∧
      Relation.TransGen components.Unfolds ⟨scopes, .component id⟩ p

theorem Passed.within {root : Place} (h : components.Passed left root p)
    (hroot : Relation.ReflTransGen components.Unfolds root p) (hq : components.Unfolds p q) :
    components.Passed (p.within left) root q := by
  intro id c hc hgone
  have hbefore : Keyed.find? id left = none → ∃ scopes,
      Relation.ReflTransGen components.Unfolds root ⟨scopes, .component id⟩ ∧
        Relation.TransGen components.Unfolds ⟨scopes, .component id⟩ q := by
    intro hleft
    obtain ⟨scopes, hto, hway⟩ := h id c hc hleft
    exact ⟨scopes, hto, hway.tail hq⟩
  obtain ⟨scopes, content⟩ := p
  cases content with
  | fragment f => exact hbefore hgone
  | text s => exact hbefore hgone
  | component k =>
    simp only [Place.within, Keyed.find?_erase] at hgone
    split at hgone
    · rename_i hk
      subst hk
      exact ⟨scopes, hroot, .single hq⟩
    · exact hbefore hgone

/-- If a place is not rendered, a place that it unfolds into lacks something, or is a component that was on the way there. -/
theorem exists_of_error {left : Components} {p : Place} (root : Place)
    (hroot : Relation.ReflTransGen components.Unfolds root p) (hpassed : components.Passed left root p)
    (h : components.renderAt left p = .error e) :
    (∃ q, Relation.ReflTransGen components.Unfolds root q ∧ ¬ components.Supplied q ∧ ∀ id, e ≠ .componentCycle id) ∨
    ∃ id scopes scopes', e = .componentCycle id ∧ Relation.ReflTransGen components.Unfolds root ⟨scopes, .component id⟩ ∧
      Relation.TransGen components.Unfolds ⟨scopes, .component id⟩ ⟨scopes', .component id⟩ := by
  cases fails_of_renderAt h with
  | missing hmissing he => exact .inl ⟨p, hroot, hmissing, he⟩
  | @cycle id c hp hc hleft he =>
    obtain ⟨scopes, hto, hloop⟩ := hpassed id c hc hleft
    obtain ⟨scopes', content⟩ := p
    cases hp
    exact .inr ⟨id, scopes, scopes', he, hto, hloop⟩
  | @inner q hfree hq herror =>
    have hdown := hq.lex hfree
    exact exists_of_error root (hroot.tail hq) (hpassed.within hroot hq) herror
termination_by (left.length, sizeOf p.content)
decreasing_by
  rcases hdown with hlt | ⟨heq, hlt⟩
  · exact Prod.Lex.left _ _ hlt
  · rw [heq]
    exact Prod.Lex.right _ hlt

end Components

namespace Root

/-- The place is reached when a description is unfolded from its fragment on. -/
def Reaches (r : Root) (p : Place) : Prop :=
  Relation.ReflTransGen r.components.Unfolds ⟨[], .fragment r.fragment⟩ p

/-- A component is reached, and is reached again from within itself. -/
def Recurs (r : Root) (id : Int) : Prop :=
  ∃ scopes scopes', r.Reaches ⟨scopes, .component id⟩ ∧
    Relation.TransGen r.components.Unfolds ⟨scopes, .component id⟩ ⟨scopes', .component id⟩

/-- The markup of a description, given up at a number of components inside one another. -/
def renderTo (bottom : Rendering) (depth : Nat) (r : Root) : Rendering :=
  r.fragment.render (Components.renderTo bottom r.components depth []) []

/-- A description is never rendered more components deep than there are. -/
theorem renderTo_eq {r : Root} {bottom : Rendering} {depth : Nat} (h : r.components.length < depth) :
    r.renderTo bottom depth = r.render := by
  have hcomponents : Components.renderTo bottom r.components depth [] = Components.render r.components r.components := by
    funext id
    refine Components.renderTo_eq ?_ h
    intro id
    cases Keyed.find? id r.components <;> simp
  rw [renderTo, hcomponents, render]

theorem render_eq_renderAt (r : Root) :
    r.render = r.components.renderAt r.components ⟨[], .fragment r.fragment⟩ := by
  rw [Components.renderAt, Child.render]
  rfl

/-- Where rendering succeeds, nothing is missing in the places that are reached. -/
theorem supplied_of_render {r : Root} {markup : String} (h : r.render = .ok markup) {p : Place} (hp : r.Reaches p) :
    r.components.Supplied p := by
  rw [render_eq_renderAt] at h
  obtain ⟨left, markup, hrendered, -⟩ := Components.rendered_of_reflTransGen h hp
  exact (Components.supplied_of_renderAt hrendered).1

theorem exists_of_render_error {r : Root} {e : RenderError} (h : r.render = .error e) :
    (∃ q, r.Reaches q ∧ ¬ r.components.Supplied q ∧ ∀ id, e ≠ .componentCycle id) ∨
    ∃ id, e = .componentCycle id ∧ r.Recurs id := by
  rw [render_eq_renderAt] at h
  obtain hmissing | ⟨id, scopes, scopes', he, hto, hloop⟩ := Components.exists_of_error ⟨[], .fragment r.fragment⟩ .refl
    (fun id c hc hleft => by cases hc.symm.trans hleft) h
  · exact .inl hmissing
  · exact .inr ⟨id, he, scopes, scopes', hto, hloop⟩

/-- Rendering goes no more components deep than there are. It succeeds if and only if nothing is missing in any place that
the description unfolds into and no component is reached from within itself, and where it says that a component is, it is. -/
theorem render_outcomes (r : Root) :
    (∀ bottom depth, r.components.length < depth → r.renderTo bottom depth = r.render) ∧
    ((∃ markup, r.render = .ok markup) ↔ (∀ p, r.Reaches p → r.components.Supplied p) ∧ ∀ id, ¬ r.Recurs id) ∧
    ∀ id, r.render = .error (.componentCycle id) → r.Recurs id := by
  refine ⟨fun _ _ => renderTo_eq, ⟨?_, ?_⟩, ?_⟩
  · rintro ⟨markup, h⟩
    refine ⟨fun p => supplied_of_render h, ?_⟩
    rintro id ⟨scopes, scopes', hto, hloop⟩
    rw [render_eq_renderAt] at h
    obtain ⟨left, markup, hrendered, -⟩ := Components.rendered_of_reflTransGen h hto
    exact Components.not_transGen_of_renderAt hrendered hloop
  · rintro ⟨hsupplied, hloops⟩
    cases h : r.render with
    | ok markup => exact ⟨markup, rfl⟩
    | error e =>
      obtain ⟨q, hq, hmissing, -⟩ | ⟨id, -, hloop⟩ := exists_of_render_error h
      · exact absurd (hsupplied q hq) hmissing
      · exact absurd hloop (hloops id)
  · intro id h
    obtain ⟨q, -, -, hother⟩ | ⟨k, hk, hloop⟩ := exists_of_render_error h
    · exact absurd rfl (hother id)
    · cases hk
      exact hloop

/-- An item that is used twice, next to itself. -/
def repeatedItem : Root :=
  ⟨.regular (some (.inline ["", "", ""])) [(0, .component 1), (1, .component 1)],
    [(1, ⟨.inline ["<i>", "</i>"], [(0, .text "a")]⟩)]⟩

/-- An item within itself. -/
def nestedItem : Root :=
  ⟨.regular (some (.inline ["", ""])) [(0, .component 1)], [(1, ⟨.inline ["<i>", "</i>"], [(0, .component 1)]⟩)]⟩

/-- An item may be used again next to itself, and must not be within itself. -/
theorem only_nested_item_recurs : repeatedItem.render = .ok "<i>a</i><i>a</i>" ∧ (∀ id, ¬ repeatedItem.Recurs id) ∧
    nestedItem.render = .error (.componentCycle 1) ∧ nestedItem.Recurs 1 ∧
    repeatedItem.renderTo (.error .missingStatics) 2 = repeatedItem.render := by
  have hrepeated : repeatedItem.render = .ok "<i>a</i><i>a</i>" := by cbv
  have hnested : nestedItem.render = .error (.componentCycle 1) := by cbv
  obtain ⟨hdepth, hsucceeds, -⟩ := render_outcomes repeatedItem
  obtain ⟨-, -, hcycle⟩ := render_outcomes nestedItem
  exact ⟨hrepeated, (hsucceeds.mp ⟨_, hrepeated⟩).2, hnested, hcycle 1 hnested, hdepth _ 2 (by decide)⟩

end Root

end LiveMarkup.Rendered
