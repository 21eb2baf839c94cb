import LiveMarkup.Proofs.SharedStatics

/-!
# What components resolve to

A component resolves to itself, or to what it becomes when it is filled from the component that it shares statics with
(`Components.ResolvesTo`). Resolving finds just that (`Components.resolve_eq_ok_iff`), whichever components have been resolved
before (`Components.PartlyResolved.resolvesTo_iff`), so resolving components one after the other succeeds if each of them
resolves to something, and gives each what it resolves to (`Components.resolveEach_eq_ok`, `Components.exists_resolveEach`).
-/

namespace LiveMarkup.Rendered.Components

/-- A component resolves to another. -/
inductive ResolvesTo (old components : Components) : Int → Component → Prop
  /-- Its statics are its own. -/
  | own {id : Int} {c : Component} {texts : List String} (hc : Keyed.find? id components = some c)
      (hs : c.statics = .inline texts) : ResolvesTo old components id c
  /-- It is filled from a component of before the update. -/
  | previous {id source : Int} {c y r : Component} (hc : Keyed.find? id components = some c)
      (hs : c.statics = .shared source) (hneg : source < 0) (hy : Keyed.find? (-source) old = some y)
      (hfill : c.fillFrom y = .ok r) : ResolvesTo old components id r
  /-- It is filled from what another component resolves to. -/
  | next {id source : Int} {c y r : Component} (hc : Keyed.find? id components = some c)
      (hs : c.statics = .shared source) (hpos : 0 ≤ source) (hy : ResolvesTo old components source y)
      (hfill : c.fillFrom y = .ok r) : ResolvesTo old components id r

/-- The component that a reference to statics leads to: one of before the update if the reference is negative, and otherwise
what a component resolves to. -/
def Provides (old components : Components) (source : Int) (y : Component) : Prop :=
  if source < 0 then Keyed.find? (-source) old = some y else ResolvesTo old components source y

variable {old components left resolved stage : Components} {id j k source : Int} {c r r' y : Component} {ids : List Int}

/-! ## One component -/

/-- A component that resolves to something is there. -/
theorem ResolvesTo.find? (h : ResolvesTo old components id r) : ∃ c, Keyed.find? id components = some c := by
  cases h with
  | own hc _ => exact ⟨_, hc⟩
  | previous hc _ _ _ _ => exact ⟨_, hc⟩
  | next hc _ _ _ _ => exact ⟨_, hc⟩

/-- A component that shares statics resolves to what it becomes when it is filled from the component they lead to. -/
theorem resolvesTo_of_shared (hc : Keyed.find? id components = some c) (hs : c.statics = .shared source) :
    ResolvesTo old components id r ↔ ∃ y, Provides old components source y ∧ c.fillFrom y = .ok r := by
  constructor
  · intro h
    cases h with
    | own hc' hs' =>
      cases hc.symm.trans hc'
      cases hs.symm.trans hs'
    | previous hc' hs' hneg hy hfill =>
      cases hc.symm.trans hc'
      cases hs.symm.trans hs'
      exact ⟨_, by rwa [Provides, if_pos hneg], hfill⟩
    | next hc' hs' hpos hy hfill =>
      cases hc.symm.trans hc'
      cases hs.symm.trans hs'
      exact ⟨_, by rwa [Provides, if_neg (by omega)], hfill⟩
  · rintro ⟨y, hy, hfill⟩
    rw [Provides] at hy
    split at hy
    · rename_i hneg
      exact .previous hc hs hneg hy hfill
    · rename_i hneg
      exact .next hc hs (not_lt.mp hneg) hy hfill

/-- A component resolves to one component at most. -/
theorem ResolvesTo.unique (h : ResolvesTo old components id r) (h' : ResolvesTo old components id r') : r = r' := by
  induction h generalizing r' with
  | own hc hs =>
    cases h' with
    | own hc' _ => exact Option.some.inj (hc.symm.trans hc')
    | previous hc' hs' _ _ _ =>
      cases hc.symm.trans hc'
      cases hs.symm.trans hs'
    | next hc' hs' _ _ _ =>
      cases hc.symm.trans hc'
      cases hs.symm.trans hs'
  | previous hc hs hneg hy hfill =>
    obtain ⟨y', hy', hfill'⟩ := (resolvesTo_of_shared hc hs).mp h'
    rw [Provides, if_pos hneg] at hy'
    cases hy.symm.trans hy'
    exact Except.ok.inj (hfill.symm.trans hfill')
  | next hc hs hpos _ hfill ih =>
    obtain ⟨y', hy', hfill'⟩ := (resolvesTo_of_shared hc hs).mp h'
    rw [Provides, if_neg (by omega)] at hy'
    cases ih hy'
    exact Except.ok.inj (hfill.symm.trans hfill')

/-- What a component resolves to has statics of its own. -/
theorem ResolvesTo.inline (hold : old.Resolved) (h : ResolvesTo old components id r) :
    ∃ texts, r.statics = .inline texts := by
  induction h with
  | own _ hs => exact ⟨_, hs⟩
  | previous _ _ _ hy hfill =>
    obtain ⟨texts, htexts⟩ := hold _ (Keyed.mem_of_find? hy)
    exact ⟨texts, (Component.statics_of_fillFrom hfill).trans htexts⟩
  | next _ _ _ _ hfill ih =>
    obtain ⟨texts, htexts⟩ := ih
    exact ⟨texts, (Component.statics_of_fillFrom hfill).trans htexts⟩

/-- The references of a component that resolves to something come to an end. -/
theorem ResolvesTo.settles (h : ResolvesTo old components id r) : Settles old components id := by
  induction h with
  | own hc hs => exact .own hc hs
  | previous hc hs hneg hy _ => exact .previous hc hs hneg (by rw [Leads, if_pos hneg]; exact ⟨_, hy⟩)
  | next hc hs hpos _ _ ih => exact .next ⟨_, hc, hs, hpos⟩ ih

/-- What a component is resolved to is what it resolves to. -/
theorem resolvesTo_of_resolve (h : resolve old components left id = .ok r) : ResolvesTo old components id r := by
  fun_induction resolve old components left id generalizing r with
  | case1 left id hc => cases h
  | case2 left id c hc texts hs =>
    cases h
    exact .own hc hs
  | case3 => cases h
  | case4 left id c hc source hs _ hmet hneg shared hshared => exact .previous hc hs hneg hshared h
  | case5 => cases h
  | case6 left id c hc source hs _ hmet hneg shared hshared ih => exact .next hc hs (not_lt.mp hneg) (ih hshared) h
  | case7 => cases h

/-- What a component resolves to is found if all that has been met on the way has led to it. -/
theorem resolve_of_resolvesTo (h : ResolvesTo old components id r)
    (hmet : ∀ j c, Keyed.find? j components = some c → Keyed.find? j left = none →
      Relation.TransGen components.Shares j id) : resolve old components left id = .ok r := by
  induction h generalizing left with
  | own hc hs =>
    rw [resolve]
    simp only [hc, hs]
  | @previous id source c y r hc hs hneg hy hfill =>
    have hsettles : Settles old components id := (ResolvesTo.previous hc hs hneg hy hfill).settles
    cases hleft : Keyed.find? id left with
    | none => exact absurd (hmet id c hc hleft) hsettles.not_onCycle
    | some _ =>
      rw [resolve]
      simp only [hc, hs, hy, if_pos hneg]
      split
      · rename_i hnone
        cases hleft.symm.trans hnone
      · exact hfill
  | @next id source c y r hc hs hpos hy hfill ih =>
    have hsettles : Settles old components id := (ResolvesTo.next hc hs hpos hy hfill).settles
    have hshares : components.Shares id source := ⟨c, hc, hs, hpos⟩
    cases hleft : Keyed.find? id left with
    | none => exact absurd (hmet id c hc hleft) hsettles.not_onCycle
    | some _ =>
      have hnext : resolve old components (Keyed.erase id left) source = .ok y := by
        refine ih ?_
        intro j c' hc' hj
        rw [Keyed.find?_erase] at hj
        split at hj
        · rename_i hji
          rw [hji]
          exact .single hshares
        · exact (hmet j c' hc' hj).tail hshares
      rw [resolve]
      simp only [hc, hs, if_neg (show ¬ source < 0 by omega), hnext]
      split
      · rename_i hnone
        cases hleft.symm.trans hnone
      · exact hfill

/-- A component is resolved exactly to what it resolves to. -/
theorem resolve_eq_ok_iff : resolve old components components id = .ok r ↔ ResolvesTo old components id r := by
  refine ⟨resolvesTo_of_resolve, ?_⟩
  intro h
  refine resolve_of_resolvesTo h ?_
  intro j c hc hj
  cases hc.symm.trans hj

/-! ## Resolved in part -/

/-- Some components have been put in place of others that resolve to them. -/
def PartlyResolved (old components stage : Components) : Prop :=
  ∀ id, Keyed.find? id stage = Keyed.find? id components ∨
    ∃ r, ResolvesTo old components id r ∧ Keyed.find? id stage = some r

theorem PartlyResolved.refl (old components : Components) : PartlyResolved old components components :=
  fun _ => .inl rfl

/-- One more component may be resolved. -/
theorem PartlyResolved.insert (h : PartlyResolved old components stage) (hk : ResolvesTo old components k y) :
    PartlyResolved old components (Keyed.insert k y stage) := by
  intro id
  rw [Keyed.find?_insert]
  split
  · rename_i hid
    exact .inr ⟨y, by rwa [hid], rfl⟩
  · exact h id

/-- What shares statics has not been resolved. -/
theorem PartlyResolved.find?_of_shared (hold : old.Resolved) (h : PartlyResolved old components stage)
    (hc : Keyed.find? id stage = some c) (hs : c.statics = .shared source) : Keyed.find? id components = some c := by
  obtain hsame | ⟨r, hr, hfound⟩ := h id
  · exact hsame.symm.trans hc
  · cases hc.symm.trans hfound
    obtain ⟨texts, htexts⟩ := hr.inline hold
    cases htexts.symm.trans hs

/-- A component resolves to itself once it has been resolved. -/
theorem ResolvesTo.of_found (hold : old.Resolved) (h : ResolvesTo old components id r) (h' : ResolvesTo old components id r')
    (hfound : Keyed.find? id stage = some r') : ResolvesTo old stage id r := by
  cases h.unique h'
  obtain ⟨texts, htexts⟩ := h.inline hold
  exact .own hfound htexts

/-- All components resolve to what they did when some have been resolved. -/
theorem PartlyResolved.resolvesTo_iff (hold : old.Resolved) (h : PartlyResolved old components stage) :
    ResolvesTo old stage id r ↔ ResolvesTo old components id r := by
  constructor
  · intro hr
    induction hr with
    | @own id c texts hc hs =>
      obtain hsame | ⟨r, hr, hfound⟩ := h id
      · exact .own (hsame.symm.trans hc) hs
      · cases hc.symm.trans hfound
        exact hr
    | previous hc hs hneg hy hfill => exact .previous (h.find?_of_shared hold hc hs) hs hneg hy hfill
    | next hc hs hpos _ hfill ih => exact .next (h.find?_of_shared hold hc hs) hs hpos ih hfill
  · intro hr
    induction hr with
    | @own id c texts hc hs =>
      obtain hsame | ⟨r, hr, hfound⟩ := h id
      · exact .own (hsame.trans hc) hs
      · exact (ResolvesTo.own hc hs).of_found hold hr hfound
    | @previous id source c y r hc hs hneg hy hfill =>
      obtain hsame | ⟨r, hr, hfound⟩ := h id
      · exact .previous (hsame.trans hc) hs hneg hy hfill
      · exact (ResolvesTo.previous hc hs hneg hy hfill).of_found hold hr hfound
    | @next id source c y r hc hs hpos hy hfill ih =>
      obtain hsame | ⟨r, hr, hfound⟩ := h id
      · exact .next (hsame.trans hc) hs hpos ih hfill
      · exact (ResolvesTo.next hc hs hpos hy hfill).of_found hold hr hfound

/-- One more component that has been resolved may be counted among those that there were from the beginning. -/
theorem PartlyResolved.of_insert (hold : old.Resolved) (h : PartlyResolved old components stage)
    (hk : ResolvesTo old components k y) (hfound : Keyed.find? k stage = some y) :
    PartlyResolved old (Keyed.insert k y components) stage := by
  intro id
  rw [Keyed.find?_insert]
  split
  · rename_i hid
    rw [hid]
    exact .inl hfound
  · obtain hsame | ⟨r, hr, hr'⟩ := h id
    · exact .inl hsame
    · exact .inr ⟨r, (((PartlyResolved.refl old components).insert hk).resolvesTo_iff hold).mpr hr, hr'⟩

/-- Where nothing is to be resolved, nothing has been. -/
theorem PartlyResolved.find?_eq (h : PartlyResolved old components stage)
    (hown : ∀ c source, Keyed.find? id components = some c → c.statics ≠ .shared source) :
    Keyed.find? id stage = Keyed.find? id components := by
  obtain hsame | ⟨r, hr, hfound⟩ := h id
  · exact hsame
  · cases hr with
    | own hc _ => exact hfound.trans hc.symm
    | previous hc hs _ _ _ => exact absurd hs (hown _ _ hc)
    | next hc hs _ _ _ => exact absurd hs (hown _ _ hc)

/-! ## One after the other -/

/-- Components resolve to the same when one of them has been resolved. -/
theorem resolvesTo_insert (hold : old.Resolved) (hk : ResolvesTo old components k y) :
    ResolvesTo old (Keyed.insert k y components) j r ↔ ResolvesTo old components j r :=
  ((PartlyResolved.refl old components).insert hk).resolvesTo_iff hold

/-- The same provides statics when a component has been resolved. -/
theorem provides_insert (hold : old.Resolved) (hk : ResolvesTo old components k y) :
    Provides old (Keyed.insert k y components) source c ↔ Provides old components source c := by
  unfold Provides
  split
  · rfl
  · exact resolvesTo_insert hold hk

/-- Components that are resolved become what they resolve to, and the others stay. -/
theorem resolveEach_eq_ok (hold : old.Resolved) (h : resolveEach old components ids = .ok resolved) :
    (Keyed.Sorted components → Keyed.Sorted resolved) ∧ ∀ id,
      (id ∈ ids → ∃ r, ResolvesTo old components id r ∧ Keyed.find? id resolved = some r) ∧
      (id ∉ ids → Keyed.find? id resolved = Keyed.find? id components) := by
  induction ids generalizing components with
  | nil =>
    cases h
    exact ⟨fun hsorted => hsorted, fun id => ⟨fun hmem => absurd hmem List.not_mem_nil, fun _ => rfl⟩⟩
  | cons k rest ih =>
    rw [resolveEach] at h
    split at h
    · rename_i y hy
      have hk := resolve_eq_ok_iff.mp hy
      obtain ⟨hsorted, hfind⟩ := ih h
      refine ⟨fun hcomponents => hsorted (Keyed.sorted_insert hcomponents k y), ?_⟩
      intro id
      obtain ⟨hin, hout⟩ := hfind id
      constructor
      · intro hid
        by_cases hrest : id ∈ rest
        · obtain ⟨r, hr, hfound⟩ := hin hrest
          exact ⟨r, (resolvesTo_insert hold hk).mp hr, hfound⟩
        · obtain rfl : id = k := (List.mem_cons.mp hid).resolve_right hrest
          exact ⟨y, hk, by rw [hout hrest, Keyed.find?_insert, if_pos rfl]⟩
      · intro hid
        rw [List.mem_cons, not_or] at hid
        rw [hout hid.2, Keyed.find?_insert, if_neg hid.1]
    · cases h

/-- Components that all resolve to something are resolved one after the other. -/
theorem exists_resolveEach (hold : old.Resolved) (h : ∀ id ∈ ids, ∃ r, ResolvesTo old components id r) :
    ∃ resolved, resolveEach old components ids = .ok resolved := by
  induction ids generalizing components with
  | nil => exact ⟨components, by rw [resolveEach]⟩
  | cons k rest ih =>
    obtain ⟨y, hk⟩ := h k List.mem_cons_self
    have hrest : ∀ id ∈ rest, ∃ r, ResolvesTo old (Keyed.insert k y components) id r := by
      intro id hid
      obtain ⟨r, hr⟩ := h id (List.mem_cons_of_mem _ hid)
      exact ⟨r, (resolvesTo_insert hold hk).mpr hr⟩
    obtain ⟨resolved, hresolved⟩ := ih hrest
    refine ⟨resolved, ?_⟩
    rw [resolveEach, resolve_eq_ok_iff.mpr hk]
    exact hresolved

end LiveMarkup.Rendered.Components
