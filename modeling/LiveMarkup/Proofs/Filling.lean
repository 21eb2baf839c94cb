import LiveMarkup.Proofs.KeyOrder
import LiveMarkup.Proofs.Resolving

/-!
# Filling in what is complete

A fragment is complete if it lacks no statics (`Fragment.Complete`). Filling it from another one leaves all that is in it
where it is (`Fragment.growsInto_of_fill`). Still it is not always left alone: dynamics are added that only the other one has
(`Fragment.eq_iff_of_fill`), and if one of the two is a comprehension where the other one is not, the filling fails
(`Fragment.clashes_of_fill`). So it is for the components that share statics, with what each of them is filled from
(`Components.fills_of_resolveAll`).
-/

namespace LiveMarkup.Rendered

/-- No statics are missing in the fragment, at whatever depth. What stands in rows is never filled. -/
def Fragment.Complete (f : Fragment) : Prop :=
  f.Throughout fun f => f.statics.isSome

/-- Somewhere one of the fragments is regular and the other one is a comprehension. -/
inductive Fragment.Clashes : Fragment → Fragment → Prop
  | regular {statics shared : Option Statics} {children : Children} {rows : List Row} {own : Templates}
      {stream : Option Stream} : Clashes (.regular statics children) (.comprehension shared rows own stream)
  | comprehension {statics shared : Option Statics} {sources : Children} {rows : List Row} {own : Templates}
      {stream : Option Stream} : Clashes (.comprehension statics rows own stream) (.regular shared sources)
  | inner {statics shared : Option Statics} {children sources : Children} {gap : Nat} {f g : Fragment}
      (hf : Keyed.find? gap children = some (.fragment f)) (hg : Keyed.find? gap sources = some (.fragment g))
      (h : Clashes f g) : Clashes (.regular statics children) (.regular shared sources)

/-- Somewhere both fragments are regular and a gap is filled in the second one only. -/
inductive Fragment.Lacks : Fragment → Fragment → Prop
  | here {statics shared : Option Statics} {children sources : Children} {gap : Nat} {c : Child}
      (hnone : Keyed.find? gap children = none) (hc : Keyed.find? gap sources = some c) :
      Lacks (.regular statics children) (.regular shared sources)
  | inner {statics shared : Option Statics} {children sources : Children} {gap : Nat} {f g : Fragment}
      (hf : Keyed.find? gap children = some (.fragment f)) (hg : Keyed.find? gap sources = some (.fragment g))
      (h : Lacks f g) : Lacks (.regular statics children) (.regular shared sources)

/-- Two dynamics are the same, or regular fragments with the same statics. -/
inductive Child.Alike : Child → Child → Prop
  | same {c : Child} : Alike c c
  | regular {statics : Option Statics} {children grown : Children} :
      Alike (.fragment (.regular statics children)) (.fragment (.regular statics grown))

/-- All that is in the first fragment is in the second one, at the same place. The second one may have more dynamics. -/
def Fragment.GrowsInto (f g : Fragment) : Prop :=
  ∀ path c, (Child.fragment f).at? path = some c → ∃ d, (Child.fragment g).at? path = some d ∧ c.Alike d

variable {f g fg : Fragment} {children sources filled : Children} {gap : Nat} {e : MergeError}

theorem Fragment.complete_regular {statics : Option Statics} :
    (Fragment.regular statics children).Complete ↔
      statics.isSome ∧ ∀ entry ∈ children, entry.2.Throughout fun f => f.statics.isSome :=
  Fragment.throughout_regular

/-- A fragment that has all of its statics takes none from elsewhere. -/
theorem Fragment.Complete.statics_or {statics : Option Statics} (h : (Fragment.regular statics children).Complete)
    (shared : Option Statics) : statics.or shared = statics := by
  obtain ⟨texts, rfl⟩ := Option.isSome_iff_exists.mp (Fragment.complete_regular.mp h).1
  rfl

/-- The fragments within one that has all of its statics have all of theirs. -/
theorem Fragment.Complete.of_find? {statics : Option Statics} (h : (Fragment.regular statics children).Complete)
    (hf : Keyed.find? gap children = some (.fragment f)) : f.Complete :=
  Child.throughout_fragment.mp ((Fragment.complete_regular.mp h).2 _ (Keyed.mem_of_find? hf))

/-- A fragment has what it has. -/
theorem Fragment.growsInto_refl (f : Fragment) : f.GrowsInto f :=
  fun _ c hc => ⟨c, hc, .same⟩

/-- The fragments among ordered children are ordered. -/
theorem Children.Ordered.fragment_of_find? (h : Children.Ordered children)
    (hf : Keyed.find? gap children = some (.fragment f)) : f.Ordered :=
  Child.ordered_fragment.mp (h.of_find? hf)

/-! ## One level -/

/-- A dynamic that is there stays, but for a fragment that is filled from another one. -/
theorem find?_of_fillChildren (hchildren : Keyed.Sorted children) (hsources : Keyed.Sorted sources)
    (h : fillChildren children sources = .ok filled) {c : Child} (hc : Keyed.find? gap children = some c) :
    Keyed.find? gap filled = some c ∨ ∃ f g fg, c = .fragment f ∧ Keyed.find? gap sources = some (.fragment g) ∧
      f.fill g = .ok fg ∧ Keyed.find? gap filled = some (.fragment fg) := by
  rw [fillChildren_eq hchildren] at h
  cases hsource : Keyed.find? gap sources with
  | none => exact .inl ((Keyed.find?_of_updateAll h hsource).trans hc)
  | some source =>
    obtain ⟨c', hc', hfound⟩ := Keyed.exists_of_updateAll (Keyed.nodup_keys_of_sorted hsources) h hsource
    rw [hc] at hc'
    obtain ⟨hnone, -⟩ | hsame | ⟨f, g, fg, hf, rfl, hfg, rfl⟩ := Child.filledWith_eq_ok hc'
    · cases hnone
    · cases hsame
      exact .inl hfound
    · cases hf
      exact .inr ⟨f, g, fg, rfl, rfl, hfg, hfound⟩

/-- A fragment is filled if there is one to fill it from. -/
theorem fill_of_fillChildren (hchildren : Keyed.Sorted children) (hsources : Keyed.Sorted sources)
    (h : fillChildren children sources = .ok filled) (hf : Keyed.find? gap children = some (.fragment f))
    (hg : Keyed.find? gap sources = some (.fragment g)) :
    ∃ fg, f.fill g = .ok fg ∧ Keyed.find? gap filled = some (.fragment fg) := by
  rw [fillChildren_eq hchildren] at h
  obtain ⟨c', hc', hfound⟩ := Keyed.exists_of_updateAll (Keyed.nodup_keys_of_sorted hsources) h hg
  rw [hf] at hc'
  obtain ⟨fg, hfg, rfl⟩ := exists_of_map_eq_ok hc'
  exact ⟨fg, hfg, hfound⟩

/-- A gap that is filled in neither of two fragments stays so, and one that is filled in the second one only is filled. -/
theorem find?_none_of_fillChildren (hchildren : Keyed.Sorted children) (hsources : Keyed.Sorted sources)
    (h : fillChildren children sources = .ok filled) (hnone : Keyed.find? gap children = none) :
    Keyed.find? gap filled = Keyed.find? gap sources := by
  rw [fillChildren_eq hchildren] at h
  cases hsource : Keyed.find? gap sources with
  | none => exact (Keyed.find?_of_updateAll h hsource).trans hnone
  | some source =>
    obtain ⟨c', hc', hfound⟩ := Keyed.exists_of_updateAll (Keyed.nodup_keys_of_sorted hsources) h hsource
    rw [hnone] at hc'
    cases hc'
    exact hfound

/-- If children cannot be filled in, it is for two fragments of one key. -/
theorem error_of_fillChildren_eq (hchildren : Keyed.Sorted children) (hsources : Keyed.Sorted sources)
    (h : fillChildren children sources = .error e) : ∃ gap f g, Keyed.find? gap children = some (.fragment f) ∧
      Keyed.find? gap sources = some (.fragment g) ∧ f.fill g = .error e := by
  rw [fillChildren_eq hchildren] at h
  obtain ⟨gap, source, hmem, hsource⟩ := Keyed.error_of_updateAll (Keyed.nodup_keys_of_sorted hsources) h
  have hfound := (Keyed.find?_eq_some_iff hsources).mpr hmem
  unfold Child.filledWith at hsource
  split at hsource
  · rename_i f g hf
    exact ⟨gap, f, g, hf, hfound, eq_error_of_map hsource⟩
  · cases hsource
  · cases hsource

/-! ## All levels -/

/-- Filling fails only at a regular fragment and a comprehension. -/
theorem Fragment.clashes_of_fill (hf : f.Ordered) (hg : g.Ordered) (h : f.fill g = .error e) : f.Clashes g := by
  induction g using Fragment.inductionOnGaps generalizing f with
  | comprehension shared rows own stream =>
    cases f with
    | comprehension statics rows own stream =>
      rw [Fragment.fill] at h
      cases h
    | regular statics children => exact .regular
  | regular shared sources ih =>
    cases f with
    | comprehension statics rows own stream => exact .comprehension
    | regular statics children =>
      rw [Fragment.ordered_regular] at hf hg
      rw [Fragment.fill_regular] at h
      obtain ⟨gap, f, g, hfound, hsource, hfill⟩ := error_of_fillChildren_eq hf.1 hg.1 (eq_error_of_map h)
      exact .inner hfound hsource
        (ih gap g (Keyed.mem_of_find? hsource) (hf.fragment_of_find? hfound) (hg.fragment_of_find? hsource) hfill)

/-- Filling fails at every regular fragment and comprehension. -/
theorem Fragment.not_clashes_of_fill (hf : f.Ordered) (hg : g.Ordered) (h : f.fill g = .ok fg) : ¬ f.Clashes g := by
  intro hclash
  induction hclash generalizing fg with
  | regular =>
    rw [Fragment.fill] at h
    cases h
  | comprehension =>
    rw [Fragment.fill] at h
    cases h
  | inner hfound hsource _ ih =>
    rw [Fragment.ordered_regular] at hf hg
    rw [Fragment.fill_regular] at h
    obtain ⟨filled, hfilled, rfl⟩ := exists_of_map_eq_ok h
    obtain ⟨fg, hfg, -⟩ := fill_of_fillChildren hf.1 hg.1 hfilled hfound hsource
    exact ih (hf.fragment_of_find? hfound) (hg.fragment_of_find? hsource) hfg

/-- A complete fragment that is filled from a comprehension is left as it is. -/
theorem Fragment.Complete.eq_of_fill_comprehension {shared : Option Statics} {rows : List Row} {own : Templates}
    {stream : Option Stream} (hcomplete : f.Complete) (h : f.fill (.comprehension shared rows own stream) = .ok fg) :
    fg = f := by
  cases f with
  | regular statics children =>
    rw [Fragment.fill] at h
    cases h
  | comprehension statics rows own stream =>
    obtain ⟨texts, rfl⟩ := Option.isSome_iff_exists.mp (Fragment.throughout_comprehension.mp hcomplete)
    rw [Fragment.fill] at h
    cases h
    rfl

/-- A complete fragment that is filled from a regular one is regular, keeps its statics, and is filled gap by gap. -/
theorem Fragment.Complete.exists_of_fill_regular {shared : Option Statics} (hcomplete : f.Complete)
    (h : f.fill (.regular shared sources) = .ok fg) : ∃ statics children filled, f = .regular statics children ∧
      fillChildren children sources = .ok filled ∧ fg = .regular statics filled := by
  cases f with
  | comprehension statics rows own stream =>
    rw [Fragment.fill] at h
    cases h
  | regular statics children =>
    rw [Fragment.fill_regular, hcomplete.statics_or] at h
    obtain ⟨filled, hfilled, rfl⟩ := exists_of_map_eq_ok h
    exact ⟨statics, children, filled, rfl, hfilled, rfl⟩

/-- All that is in a complete fragment stays. -/
theorem Fragment.growsInto_of_fill (hcomplete : f.Complete) (hf : f.Ordered) (hg : g.Ordered) (h : f.fill g = .ok fg) :
    f.GrowsInto fg := by
  induction g using Fragment.inductionOnGaps generalizing f fg with
  | comprehension shared rows own stream =>
    rw [hcomplete.eq_of_fill_comprehension h]
    exact f.growsInto_refl
  | regular shared sources ih =>
    obtain ⟨statics, children, filled, rfl, hfilled, rfl⟩ := hcomplete.exists_of_fill_regular h
    rw [Fragment.ordered_regular] at hf hg
    rintro (- | ⟨gap, path⟩) c hc
    · cases hc
      exact ⟨_, rfl, .regular⟩
    · rw [Child.at?, Option.bind_eq_some_iff] at hc
      obtain ⟨target, htarget, hc⟩ := hc
      rw [Child.at?]
      obtain hsame | ⟨f, g, fg, rfl, hsource, hfg, hfound⟩ := find?_of_fillChildren hf.1 hg.1 hfilled htarget
      · rw [hsame]
        exact ⟨c, hc, .same⟩
      · rw [hfound]
        exact ih gap g (Keyed.mem_of_find? hsource) (hcomplete.of_find? htarget) (hf.fragment_of_find? htarget)
          (hg.fragment_of_find? hsource) hfg path c hc

/-- A fragment that lacks something is another one after it was filled in. -/
theorem Fragment.ne_of_lacks (hcomplete : f.Complete) (hf : f.Ordered) (hg : g.Ordered) (h : f.fill g = .ok fg)
    (hlacks : f.Lacks g) : fg ≠ f := by
  induction hlacks generalizing fg with
  | here hnone hc =>
    obtain ⟨statics, children, filled, heq, hfilled, rfl⟩ := hcomplete.exists_of_fill_regular h
    cases heq
    rw [Fragment.ordered_regular] at hf hg
    have hfound := (find?_none_of_fillChildren hf.1 hg.1 hfilled hnone).trans hc
    intro heq
    cases heq
    cases hnone.symm.trans hfound
  | inner hfound hsource _ ih =>
    obtain ⟨statics, children, filled, heq, hfilled, rfl⟩ := hcomplete.exists_of_fill_regular h
    cases heq
    rw [Fragment.ordered_regular] at hf hg
    obtain ⟨fg, hfg, hnew⟩ := fill_of_fillChildren hf.1 hg.1 hfilled hfound hsource
    have hne := ih (hcomplete.of_find? hfound) (hf.fragment_of_find? hfound) (hg.fragment_of_find? hsource) hfg
    intro heq
    cases heq
    cases hfound.symm.trans hnew
    exact hne rfl

/-- A fragment that lacks nothing stays as it is. -/
theorem Fragment.eq_of_not_lacks (hcomplete : f.Complete) (hf : f.Ordered) (hg : g.Ordered) (h : f.fill g = .ok fg)
    (hlacks : ¬ f.Lacks g) : fg = f := by
  induction g using Fragment.inductionOnGaps generalizing f fg with
  | comprehension shared rows own stream => exact hcomplete.eq_of_fill_comprehension h
  | regular shared sources ih =>
    obtain ⟨statics, children, filled, rfl, hfilled, rfl⟩ := hcomplete.exists_of_fill_regular h
    rw [Fragment.ordered_regular] at hf hg
    have hsorted : Keyed.Sorted filled := by
      rw [fillChildren_eq hf.1] at hfilled
      exact Keyed.sorted_updateAll hf.1 hfilled
    refine congrArg (Fragment.regular statics) (Keyed.eq_of_find?_eq hsorted hf.1 fun gap => ?_)
    cases hc : Keyed.find? gap children with
    | none =>
      rw [find?_none_of_fillChildren hf.1 hg.1 hfilled hc]
      cases hsource : Keyed.find? gap sources with
      | none => rfl
      | some c => exact absurd (.here hc hsource) hlacks
    | some c =>
      obtain hsame | ⟨f, g, fg, rfl, hsource, hfg, hfound⟩ := find?_of_fillChildren hf.1 hg.1 hfilled hc
      · exact hsame
      · rw [hfound, ih gap g (Keyed.mem_of_find? hsource) (hcomplete.of_find? hc) (hf.fragment_of_find? hc)
          (hg.fragment_of_find? hsource) hfg fun hinner => hlacks (.inner hc hsource hinner)]

/-- A complete fragment is left as it is if and only if the other one has no dynamic that it lacks. -/
theorem Fragment.eq_iff_of_fill (hcomplete : f.Complete) (hf : f.Ordered) (hg : g.Ordered) (h : f.fill g = .ok fg) :
    fg = f ↔ ¬ f.Lacks g := by
  refine ⟨?_, Fragment.eq_of_not_lacks hcomplete hf hg h⟩
  intro heq hlacks
  exact Fragment.ne_of_lacks hcomplete hf hg h hlacks heq

/-! ## Components -/

/-- A fragment in a gap of one component clashes with the one in the same gap of another. -/
def Component.Clashes (x y : Component) : Prop :=
  ∃ gap f g, Keyed.find? gap x.children = some (.fragment f) ∧ Keyed.find? gap y.children = some (.fragment g) ∧
    f.Clashes g

section

variable {x y r : Component}

/-- If a component cannot be filled in from another one, two of their fragments are not of one kind. -/
theorem Component.clashes_of_fillFrom (hx : x.Ordered) (hy : y.Ordered) (h : x.fillFrom y = .error e) : x.Clashes y := by
  rw [Component.fillFrom_eq] at h
  obtain ⟨gap, f, g, hf, hg, hfill⟩ := error_of_fillChildren_eq hx.1 hy.1 (eq_error_of_map h)
  exact ⟨gap, f, g, hf, hg, Fragment.clashes_of_fill (hx.fragment_of_find? hf) (hy.fragment_of_find? hg) hfill⟩

/-- If a component is filled in from another one, their fragments are of one kind. -/
theorem Component.not_clashes_of_fillFrom (hx : x.Ordered) (hy : y.Ordered) (h : x.fillFrom y = .ok r) :
    ¬ x.Clashes y := by
  rw [Component.fillFrom_eq] at h
  obtain ⟨filled, hfilled, -⟩ := exists_of_map_eq_ok h
  rintro ⟨gap, f, g, hf, hg, hclash⟩
  obtain ⟨fg, hfg, -⟩ := fill_of_fillChildren hx.1 hy.1 hfilled hf hg
  exact Fragment.not_clashes_of_fill (hx.fragment_of_find? hf) (hy.fragment_of_find? hg) hfg hclash

/-- A complete fragment of a component is there after the component has been filled. -/
theorem Component.grows_of_fillFrom (hx : x.Ordered) (hy : y.Ordered) (h : x.fillFrom y = .ok r)
    (hf : Keyed.find? gap x.children = some (.fragment f)) (hcomplete : f.Complete) :
    ∃ filled, Keyed.find? gap r.children = some (.fragment filled) ∧ f.GrowsInto filled ∧
      (filled = f ↔ ∀ g, Keyed.find? gap y.children = some (.fragment g) → ¬ f.Lacks g) := by
  rw [Component.fillFrom_eq] at h
  obtain ⟨filled, hfilled, rfl⟩ := exists_of_map_eq_ok h
  by_cases hsource : ∃ g, Keyed.find? gap y.children = some (.fragment g)
  · obtain ⟨g, hg⟩ := hsource
    obtain ⟨fg, hfg, hfound⟩ := fill_of_fillChildren hx.1 hy.1 hfilled hf hg
    have hordered := hx.fragment_of_find? hf
    have hordered' := hy.fragment_of_find? hg
    refine ⟨fg, hfound, Fragment.growsInto_of_fill hcomplete hordered hordered' hfg, ?_⟩
    rw [Fragment.eq_iff_of_fill hcomplete hordered hordered' hfg]
    simp [hg]
  · refine ⟨f, ?_, f.growsInto_refl, ?_⟩
    · obtain hsame | ⟨_, g, _, -, hg, -, -⟩ := find?_of_fillChildren hx.1 hy.1 hfilled hf
      · exact hsame
      · exact absurd ⟨g, hg⟩ hsource
    · exact iff_of_true rfl fun g hg => absurd ⟨g, hg⟩ hsource

end

namespace Components

variable {old components left resolved : Components} {id source : Int} {ids : List Int} {x y r : Component}

/-- What a component resolves to is ordered. -/
theorem ResolvesTo.ordered (hold : Components.Ordered old) (hcomponents : Components.Ordered components)
    (h : ResolvesTo old components id r) : r.Ordered :=
  ordered_resolve hold hcomponents (resolve_eq_ok_iff.mpr h)

/-- What provides the statics of a component is ordered. -/
theorem Provides.ordered (hold : Components.Ordered old) (hcomponents : Components.Ordered components)
    (h : Provides old components source y) : y.Ordered := by
  rw [Provides] at h
  split at h
  · exact hold.of_find? h
  · exact h.ordered hold hcomponents

/-- Where a dynamic does not fit, there is a component that cannot be filled from the one it shares statics with. -/
theorem exists_of_resolve_mismatch (h : resolve old components left id = .error .typeMismatch) :
    ∃ id x source y, Keyed.find? id components = some x ∧ x.statics = .shared source ∧
      Provides old components source y ∧ x.fillFrom y = .error .typeMismatch := by
  fun_induction resolve old components left id with
  | case1 => cases h
  | case2 => cases h
  | case3 => cases h
  | case4 left id c hc source hs _ _ hneg shared hshared =>
    exact ⟨id, c, source, shared, hc, hs, by rwa [Provides, if_pos hneg], h⟩
  | case5 => cases h
  | case6 left id c hc source hs _ _ hneg shared hshared ih =>
    exact ⟨id, c, source, shared, hc, hs, by rw [Provides, if_neg hneg]; exact resolvesTo_of_resolve hshared, h⟩
  | case7 left id c hc source hs _ _ hneg e hnext ih =>
    cases h
    exact ih hnext

/-- If resolving ends for a mismatch, some component cannot be filled in from what provides its statics. -/
theorem exists_of_resolveEach_mismatch (hold : old.Resolved)
    (h : resolveEach old components ids = .error .typeMismatch) :
    ∃ id x source y, Keyed.find? id components = some x ∧ x.statics = .shared source ∧
      Provides old components source y ∧ x.fillFrom y = .error .typeMismatch := by
  induction ids generalizing components with
  | nil => cases h
  | cons k rest ih =>
    rw [resolveEach] at h
    split at h
    · rename_i z hz
      have hk := resolve_eq_ok_iff.mp hz
      obtain ⟨id, x, source, y, hx, hs, hy, hfill⟩ := ih h
      have hin := ((PartlyResolved.refl old components).insert hk).find?_of_shared hold hx hs
      refine ⟨id, x, source, y, hin, hs, ?_, hfill⟩
      exact (provides_insert hold hk).mp hy
    · rename_i e he
      cases h
      exact exists_of_resolve_mismatch he

/-- Of a component that shares statics, a complete fragment is there after all components have been resolved, and it is as it
was unless the component that provides the statics has a dynamic that it lacks. Components are resolved only if none of them
clashes with the one that provides its statics, and where a dynamic does not fit, one of them does. -/
theorem fills_of_resolveAll (hold : old.Resolved) (hprevious : Components.Ordered old)
    (hcomponents : Components.Ordered components) :
    (∀ resolved, resolveAll old components = .ok resolved → ∀ id x source, Keyed.find? id components = some x →
      x.statics = .shared source → ∃ y r, Provides old components source y ∧ Keyed.find? id resolved = some r ∧
        r.statics = y.statics ∧ ¬ x.Clashes y ∧
        ∀ gap f, Keyed.find? gap x.children = some (.fragment f) → f.Complete →
          ∃ filled, Keyed.find? gap r.children = some (.fragment filled) ∧ f.GrowsInto filled ∧
            (filled = f ↔ ∀ g, Keyed.find? gap y.children = some (.fragment g) → ¬ f.Lacks g)) ∧
    (resolveAll old components = .error .typeMismatch → ∃ id x source y, Keyed.find? id components = some x ∧
      x.statics = .shared source ∧ Provides old components source y ∧ x.Clashes y) := by
  constructor
  · intro resolved h id x source hx hs
    obtain ⟨r, hr, hfound⟩ := ((resolveEach_eq_ok hold h).2 id).1 (mem_pending (Keyed.mem_of_find? hx) hs)
    obtain ⟨y, hy, hfill⟩ := (resolvesTo_of_shared hx hs).mp hr
    have hxordered := hcomponents.of_find? hx
    have hyordered := hy.ordered hprevious hcomponents
    exact ⟨y, r, hy, hfound, Component.statics_of_fillFrom hfill,
      Component.not_clashes_of_fillFrom hxordered hyordered hfill,
      fun _ _ => Component.grows_of_fillFrom hxordered hyordered hfill⟩
  · intro h
    obtain ⟨id, x, source, y, hx, hs, hy, hfill⟩ := exists_of_resolveEach_mismatch hold h
    exact ⟨id, x, source, y, hx, hs, hy,
      Component.clashes_of_fillFrom (hcomponents.of_find? hx) (hy.ordered hprevious hcomponents) hfill⟩

/-! ### A line in bold -/

/-- A fragment with statics of its own. -/
def bold : Fragment :=
  .regular (some (.inline ["<b>", "</b>"])) [(0, .text "y")]

/-- A component with this fragment that shares its statics. -/
def boldLine : Component :=
  ⟨.shared 1, [(0, .fragment bold)]⟩

/-- A component with a fragment in which there are two dynamics. -/
def markedLine : Component :=
  ⟨.inline ["<p>", "</p>"],
    [(0, .fragment (.regular (some (.inline ["<i>", "", "</i>"])) [(0, .text "x"), (1, .text "!")]))]⟩

/-- A component with a comprehension. -/
def list : Component :=
  ⟨.inline ["<ul>", "</ul>"],
    [(0, .fragment (.comprehension (some (.inline ["<li>", "</li>"])) [[.text "x"]] [] none))]⟩

/-- The fragment has all of its statics. -/
theorem complete_bold : bold.Complete := by
  rw [bold, Fragment.complete_regular]
  refine ⟨rfl, ?_⟩
  intro entry hentry
  cases List.mem_singleton.mp hentry
  trivial

/-- The line takes over the second dynamic, which there is no gap for. -/
theorem bold_line_gains_dynamic : Components.Resolved [] ∧ Components.Ordered [] ∧
    Components.Ordered [(1, markedLine), (2, boldLine)] ∧
    ∃ resolved y r filled, resolveAll [] [(1, markedLine), (2, boldLine)] = .ok resolved ∧
      Provides [] [(1, markedLine), (2, boldLine)] 1 y ∧ Keyed.find? 2 resolved = some r ∧
      r.statics = y.statics ∧ Keyed.find? 0 r.children = some (.fragment filled) ∧ bold.GrowsInto filled ∧ filled ≠ bold := by
  have hresolved : Components.Resolved [] := fun _ hentry => absurd hentry List.not_mem_nil
  have hold : Components.Ordered [] := .nil
  have hordered : Components.Ordered [(1, markedLine), (2, boldLine)] := by
    simp [Components.Ordered, Component.Ordered, Children.Ordered, Child.Ordered, Keyed.SortedOf, Keyed.Sorted,
      Child.Throughout, Fragment.Throughout, EachThroughout, Fragment.KeysAscend, markedLine, boldLine, bold]
  obtain ⟨hfills, -⟩ := fills_of_resolveAll hresolved hold hordered
  have hok : resolveAll [] [(1, markedLine), (2, boldLine)] = .ok [(1, markedLine), (2, ⟨.inline ["<p>", "</p>"],
      [(0, .fragment (.regular (some (.inline ["<b>", "</b>"])) [(0, .text "y"), (1, .text "!")]))]⟩)] := by cbv
  obtain ⟨y, r, hy, hr, hstatics, -, hkept⟩ := hfills _ hok 2 boldLine 1 rfl rfl
  obtain ⟨filled, hfilled, hgrows, -⟩ := hkept 0 bold rfl complete_bold
  refine ⟨hresolved, hold, hordered, _, y, r, filled, hok, hy, hr, hstatics, hfilled, hgrows, ?_⟩
  rintro rfl
  cases hr
  cases hfilled

/-- The JSON of a description in which the line shares the statics of the list. -/
def boldListSource : Json :=
  .object [("0", .number (.integer 2)),
    ("c", .object [
      ("1", .object [
        ("0", .object [("d", .array [.array [.string "x"]]), ("s", .array [.string "<li>", .string "</li>"])]),
        ("s", .array [.string "<ul>", .string "</ul>"])]),
      ("2", .object [
        ("0", .object [("0", .string "y"), ("s", .array [.string "<b>", .string "</b>"])]),
        ("s", .number (.integer 1))])]),
    ("s", .array [.string "", .string ""])]

/-- A line that lacks no statics does not fit the list, and for this the description is refused. -/
theorem complete_fragment_refused : bold.Complete ∧ Keyed.find? 0 boldLine.children = some (.fragment bold) ∧
    resolveAll [] [(1, list), (2, boldLine)] = .error .typeMismatch ∧
    Root.ofText boldListSource.compact = .error (.merge .typeMismatch) := by
  have hplain : boldListSource.Plain Json.depthLimit :=
    ⟨126, rfl, ⟨2, rfl, by decide⟩,
      ⟨125, rfl,
        ⟨124, rfl,
          ⟨123, rfl, ⟨122, rfl, ⟨121, rfl, trivial, trivial⟩, trivial⟩, ⟨122, rfl, trivial, trivial, trivial⟩, trivial⟩,
          ⟨123, rfl, trivial, trivial, trivial⟩, trivial⟩,
        ⟨124, rfl, ⟨123, rfl, trivial, ⟨122, rfl, trivial, trivial, trivial⟩, trivial⟩,
          ⟨1, rfl, by decide⟩, trivial⟩, trivial⟩,
      ⟨125, rfl, trivial, trivial, trivial⟩, trivial⟩
  refine ⟨complete_bold, rfl, ?_, ?_⟩
  · cbv
  · rw [Root.ofText, membersOfText_compact hplain]
    cbv

end Components

end LiveMarkup.Rendered
