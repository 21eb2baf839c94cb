import LiveMarkup.Proofs.InPlace

/-!
# What updates leave alone

An update without statics changes the dynamics that it names and no others. On the way to a dynamic that it leaves alone it
may name fragments, as long as its updates of these leave the dynamic alone (`Child.Leaves`). Such dynamics are the same before
and after the update (`Fragment.at?_of_merge`), and so are components that the update does not name. Together with what is known
about orders (`Root.decides_merge`) this says that an update acts on each place by itself (`Root.merge_pointwise`).
-/

namespace LiveMarkup.Rendered

/-- An update leaves what is at the end of a path alone: on the way there, it comes to a gap for which it has nothing, and
before that only to fragments without statics. -/
def Child.Leaves : (path : List Nat) → (update : Child) → Prop
  | [], _ => False
  | gap :: path, .fragment (.regular none updates) =>
    match Keyed.find? gap updates with
    | none => True
    | some update => Child.Leaves path update
  | _ :: _, _ => False

variable {f fg update : Fragment} {children merged updates : Children} {gap : Nat} {path : List Nat}

theorem Child.at?_cons (statics : Option Statics) (children : Children) (gap : Nat) (path : List Nat) :
    (Child.fragment (.regular statics children)).at? (gap :: path) =
      (Keyed.find? gap children).bind (Child.at? path) := by
  rw [Child.at?]

/-- The way to what an update leaves alone ends in the update. -/
theorem Child.Leaves.at?_eq_none : ∀ {path : List Nat} {update : Child}, update.Leaves path → update.at? path = none
  | [], update, h => by cases h
  | gap :: path, .text s, h => by cases h
  | gap :: path, .component id, h => by cases h
  | gap :: path, .fragment (.comprehension statics rows own stream), h => by cases h
  | gap :: path, .fragment (.regular (some statics) updates), h => by cases h
  | gap :: path, .fragment (.regular none updates), h => by
    rw [Child.Leaves] at h
    rw [Child.at?_cons]
    cases hfind : Keyed.find? gap updates with
    | none => rfl
    | some update =>
      rw [hfind] at h
      exact Child.Leaves.at?_eq_none h

/-- A dynamic that is updated by something other than a fragment for a fragment is replaced. -/
theorem Child.at?_of_mergedWith {current : Option Child} {update merged : Child} (hpath : update.Leaves path)
    (h : Child.mergedWith current update = .ok merged)
    (hfragment : ∀ f g fg, current = some (.fragment f) → update = .fragment g → f.merge g = .ok fg →
      (Child.fragment fg).at? path = (Child.fragment f).at? path) :
    merged.at? path = current.bind (Child.at? path) := by
  by_cases hfragments : ∃ f g, current = some (.fragment f) ∧ update = .fragment g
  · obtain ⟨f, g, rfl, rfl⟩ := hfragments
    obtain ⟨fg, hfg, rfl⟩ := exists_of_map_eq_ok h
    exact hfragment f g fg rfl rfl hfg
  · have hother : ∀ f g, current = some (.fragment f) → update ≠ .fragment g :=
      fun f g hf hg => hfragments ⟨f, g, hf, hg⟩
    rw [Child.mergedWith_eq_of_forall hother] at h
    cases h
    rw [hpath.at?_eq_none]
    cases path with
    | nil => cases hpath
    | cons gap path =>
      cases current with
      | none => rfl
      | some current =>
        cases current with
        | text s => rfl
        | component id => rfl
        | fragment f =>
          cases update with
          | text s => cases hpath
          | component id => cases hpath
          | fragment g => exact absurd rfl (hother f g rfl)

/-- Dynamics of which some are updated are the same in the gaps that are left alone. -/
theorem Children.at?_of_merge (statics : Option Statics) (hupdates : Keyed.Sorted updates)
    (h : mergeChildren children updates = .ok merged) (hpath : (Child.fragment (.regular none updates)).Leaves path)
    (hfragment : ∀ gap rest f g fg, path = gap :: rest → Keyed.find? gap updates = some (.fragment g) →
      (Child.fragment g).Leaves rest → f.merge g = .ok fg → (Child.fragment fg).at? rest = (Child.fragment f).at? rest) :
    (Child.fragment (.regular statics merged)).at? path = (Child.fragment (.regular statics children)).at? path := by
  cases path with
  | nil => cases hpath
  | cons gap path =>
    rw [Child.Leaves] at hpath
    rw [mergeChildren_eq] at h
    rw [Child.at?_cons, Child.at?_cons]
    cases hfind : Keyed.find? gap updates with
    | none => rw [Keyed.find?_of_updateAll h hfind]
    | some update =>
      rw [hfind] at hpath
      obtain ⟨c, hc, hfound⟩ := Keyed.exists_of_updateAll (Keyed.nodup_keys_of_sorted hupdates) h hfind
      rw [hfound]
      refine Child.at?_of_mergedWith hpath hc ?_
      rintro f g fg - rfl hfg
      exact hfragment gap path f g fg rfl hfind hpath hfg

/-- What is at the end of a path that an update of a fragment leaves alone stays. -/
theorem Fragment.at?_of_merge (hupdate : update.Ordered) (h : f.merge update = .ok fg)
    (hpath : (Child.fragment update).Leaves path) : (Child.fragment fg).at? path = (Child.fragment f).at? path := by
  induction update using Fragment.inductionOnGaps generalizing f fg path with
  | comprehension statics rows own stream =>
    cases path with
    | nil => cases hpath
    | cons gap path => cases hpath
  | regular statics updates ih =>
    cases path with
    | nil => cases hpath
    | cons gap path =>
      cases statics with
      | some statics => cases hpath
      | none =>
        cases f with
        | comprehension statics rows own stream =>
          rw [Fragment.merge] at h
          cases h
        | regular statics children =>
          rw [Fragment.merge_regular] at h
          obtain ⟨merged, hmerged, rfl⟩ := exists_of_map_eq_ok h
          rw [Fragment.ordered_regular] at hupdate
          refine Children.at?_of_merge statics hupdate.1 hmerged hpath ?_
          intro gap rest f g fg _ hfind hleaves hfg
          have hg : g.Ordered := Child.ordered_fragment.mp (hupdate.of_find? hfind)
          exact ih gap g (Keyed.mem_of_find? hfind) hg hfg hleaves

/-! ## Components -/

namespace Components

variable {components merged resolved : Components} {old : Components} {id : Int}

/-- A component whose statics are its own is the same after all components have been resolved. -/
theorem find?_of_resolveAll (hold : old.Resolved) (hsorted : Keyed.Sorted components)
    (h : resolveAll old components = .ok resolved)
    (hinline : ∀ c, Keyed.find? id components = some c → ∃ texts, c.statics = .inline texts) :
    Keyed.find? id resolved = Keyed.find? id components := by
  refine ((resolveEach_eq_ok hold h).2 id).2 ?_
  intro hmem
  obtain ⟨entry, hentry, rfl⟩ := List.mem_map.mp hmem
  obtain ⟨hin, hshared⟩ := List.mem_filter.mp hentry
  obtain ⟨texts, htexts⟩ := hinline entry.2 ((Keyed.find?_eq_some_iff hsorted).mpr hin)
  rw [Component.isShared, htexts] at hshared
  cases hshared

end Components

namespace Root

variable {r next : Root} {d : RootDiff}

/-- A component that an update does not name stays. -/
theorem find?_of_merge (hr : r.Ordered) (hold : r.components.Resolved) (hd : d.Ordered) (h : r.merge d = .ok next) {id : Int}
    (hid : Keyed.find? id d.components = none) : Keyed.find? id next.components = Keyed.find? id r.components := by
  obtain ⟨components, -, hcomponents, hresolved⟩ := merge_eq_ok h
  have hsorted := (Components.ordered_merge hr.2 hd.2 hcomponents).1
  rw [Components.merge_eq] at hcomponents
  have hkept := Keyed.find?_of_updateAll hcomponents hid
  rw [Components.find?_of_resolveAll hold hsorted hresolved ?_, hkept]
  intro c hc
  rw [hkept] at hc
  exact hold _ (Keyed.mem_of_find? hc)

/-- A component of which some dynamics are updated keeps its statics, and the dynamics that are left alone. -/
theorem exists_of_update (hr : r.Ordered) (hold : r.components.Resolved) (hd : d.Ordered) (h : r.merge d = .ok next)
    {id : Int} {updates : Children} (hid : Keyed.find? id d.components = some (.update updates)) :
    ∃ c c', Keyed.find? id r.components = some c ∧ Keyed.find? id next.components = some c' ∧ c'.statics = c.statics ∧
      ∀ path, (Child.fragment (.regular none updates)).Leaves path →
        (Child.fragment (.regular none c'.children)).at? path = (Child.fragment (.regular none c.children)).at? path := by
  obtain ⟨components, -, hcomponents, hresolved⟩ := merge_eq_ok h
  have hsorted := (Components.ordered_merge hr.2 hd.2 hcomponents).1
  rw [Components.merge_eq] at hcomponents
  obtain ⟨c', hc', hfound⟩ := Keyed.exists_of_updateAll (Keyed.nodup_keys_of_sorted hd.2.1) hcomponents hid
  cases hc : Keyed.find? id r.components with
  | none =>
    rw [hc] at hc'
    cases hc'
  | some c =>
    rw [hc] at hc'
    obtain ⟨children, hchildren, rfl⟩ := exists_of_map_eq_ok hc'
    have hupdates : Children.Ordered updates := hd.2.of_find? hid
    refine ⟨c, { c with children }, rfl, ?_, rfl, ?_⟩
    · rw [Components.find?_of_resolveAll hold hsorted hresolved ?_, hfound]
      intro c' hc'
      cases hfound.symm.trans hc'
      exact hold _ (Keyed.mem_of_find? hc)
    · intro path hpath
      refine Children.at?_of_merge none hupdates.1 hchildren hpath ?_
      intro gap rest f g fg _ hfind hleaves hfg
      exact Fragment.at?_of_merge (Child.ordered_fragment.mp (hupdates.of_find? hfind)) hfg hleaves

/-- What an update comes to does not hang on the order in which it is gone through, but for the error if there is one. If it
succeeds, components that it does not name stay, and so do the dynamics that it leaves alone, in the fragment and in the
components. -/
theorem merge_pointwise (hr : r.Held) (hd : d.Ordered) :
    r.MergesTo d (r.merge d) ∧ (∀ outcome, r.MergesTo d outcome → outcome.toOption = (r.merge d).toOption) ∧
    ∀ next, r.merge d = .ok next →
      (∀ id, Keyed.find? id d.components = none → Keyed.find? id next.components = Keyed.find? id r.components) ∧
      (∀ path, (Child.fragment d.fragment).Leaves path →
        (Child.fragment next.fragment).at? path = (Child.fragment r.fragment).at? path) ∧
      ∀ id updates, Keyed.find? id d.components = some (.update updates) →
        ∃ c c', Keyed.find? id r.components = some c ∧ Keyed.find? id next.components = some c' ∧
          c'.statics = c.statics ∧ ∀ path, (Child.fragment (.regular none updates)).Leaves path →
            (Child.fragment (.regular none c'.children)).at? path =
              (Child.fragment (.regular none c.children)).at? path := by
  have hordered := hr.ordered
  have hold : r.components.Resolved := hr.reached.resolved.2
  obtain ⟨hmay, honly⟩ := decides_merge hordered hold hd
  refine ⟨hmay, honly, ?_⟩
  intro next h
  refine ⟨fun id => find?_of_merge hordered hold hd h, ?_, fun id updates => exists_of_update hordered hold hd h⟩
  obtain ⟨components, hfragment, -, -⟩ := merge_eq_ok h
  exact fun path => Fragment.at?_of_merge hd.1 hfragment

/-- An update of one of two items, with nothing about the fragment that they are in. -/
def firstItemChanged : RootDiff :=
  ⟨.regular none [], [(1, .update [(0, .text "z")])]⟩

/-- The other item stays, and so does the place that it is used at. -/
theorem first_item_changes_alone : twoItems.Held ∧ firstItemChanged.Ordered ∧
    ∃ next, twoItems.MergesTo firstItemChanged (.ok next) ∧
      (∀ outcome, twoItems.MergesTo firstItemChanged outcome → outcome = .ok next) ∧
      Keyed.find? 2 next.components = some ⟨.inline ["<i>", "</i>"], [(0, .text "b")]⟩ ∧
      (Child.fragment next.fragment).at? [0] = some (.component 2) ∧
      ∃ c, Keyed.find? 1 next.components = some c ∧ c.statics = .inline ["<i>", "</i>"] := by
  have hheld : twoItems.Held := .ofText ofText_twoItems
  have hordered : firstItemChanged.Ordered := by
    simp [firstItemChanged, RootDiff.Ordered, Fragment.ordered_regular, Children.Ordered, Keyed.SortedOf, Keyed.Sorted,
      ComponentDiff.Ordered, Child.Ordered, Child.Throughout]
  have hmerge : twoItems.merge firstItemChanged = .ok ⟨twoItems.fragment,
      [(1, ⟨.inline ["<i>", "</i>"], [(0, .text "z")]⟩), (2, ⟨.inline ["<i>", "</i>"], [(0, .text "b")]⟩)]⟩ := by cbv
  obtain ⟨hmay, honly, hkept⟩ := merge_pointwise hheld hordered
  obtain ⟨hcomponents, hfragment, hupdated⟩ := hkept _ hmerge
  rw [hmerge] at hmay honly
  obtain ⟨c, c', hc, hc', hstatics, -⟩ := hupdated 1 [(0, .text "z")] rfl
  cases hc
  refine ⟨hheld, hordered, _, hmay, ?_, hcomponents 2 rfl, hfragment [0] trivial, c', hc', hstatics⟩
  intro outcome h
  have hsame := honly outcome h
  cases outcome with
  | error e => cases hsame
  | ok r => exact congrArg _ (Option.some.inj hsame)

end Root

end LiveMarkup.Rendered
