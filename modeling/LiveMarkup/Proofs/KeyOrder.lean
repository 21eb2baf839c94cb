import LiveMarkup.Proofs.Descriptions
import LiveMarkup.Proofs.Nesting

/-!
# Descriptions in key order

In what is read the gaps of every fragment ascend, and so do the ids of templates and components
(`RootDiff.ordered_ofText`), and merging and resolving leave it so. So descriptions that are read, and what updates make of
them, are in order at every depth (`Root.Held.ordered`). Updates of components are updates of a keyed list
(`Components.merge_eq`), as those of dynamics are.
-/

namespace LiveMarkup.Rendered

/-! ## Key order at every depth -/

/-- The gaps of a regular fragment ascend, or the ids of the templates that a comprehension declares. -/
def Fragment.KeysAscend : Fragment → Prop
  | .regular _ children => Keyed.Sorted children
  | .comprehension _ _ own _ => Keyed.Sorted own

/-- A fragment is in order, and so are the fragments in it. What stands in rows is not told of: it is never merged or
filled. -/
def Fragment.Ordered (f : Fragment) : Prop :=
  f.Throughout Fragment.KeysAscend

/-- Everything in a dynamic is in order. -/
def Child.Ordered (c : Child) : Prop :=
  c.Throughout Fragment.KeysAscend

/-- Dynamics in order, and everything in them. -/
def Children.Ordered : Children → Prop :=
  Keyed.SortedOf Child.Ordered

/-- The dynamics of a component are in order, and everything in them. -/
def Component.Ordered (c : Component) : Prop :=
  Children.Ordered c.children

/-- Components in order, and everything in them. -/
def Components.Ordered : Components → Prop :=
  Keyed.SortedOf Component.Ordered

/-- Everything in an update of a component is in order. -/
def ComponentDiff.Ordered : ComponentDiff → Prop
  | .replace c => c.Ordered
  | .update children => Children.Ordered children

/-- Everything in a description is in order. -/
def Root.Ordered (r : Root) : Prop :=
  r.fragment.Ordered ∧ Components.Ordered r.components

/-- Everything in an update of a description is in order. -/
def RootDiff.Ordered (d : RootDiff) : Prop :=
  d.fragment.Ordered ∧ Keyed.SortedOf ComponentDiff.Ordered d.components

variable {current target merged filled update source : Fragment} {children updates sources : Children}

theorem Fragment.ordered_regular {statics : Option Statics} :
    (Fragment.regular statics children).Ordered ↔ Children.Ordered children :=
  Fragment.throughout_regular

theorem Child.ordered_fragment {f : Fragment} : (Child.fragment f).Ordered ↔ f.Ordered :=
  Child.throughout_fragment

/-! ### Merging and filling -/

/-- A dynamic that an update has changed is ordered if it was and the update is. -/
theorem Child.ordered_mergedWith {current : Option Child} {update merged : Child}
    (hcurrent : ∀ c, current = some c → c.Ordered) (hupdate : update.Ordered)
    (hmerge : ∀ f g fg, current = some (.fragment f) → update = .fragment g → f.Ordered → g.Ordered →
      f.merge g = .ok fg → fg.Ordered)
    (h : Child.mergedWith current update = .ok merged) : merged.Ordered := by
  obtain rfl | ⟨f, g, fg, rfl, rfl, hfg, rfl⟩ := Child.mergedWith_eq_ok h
  · exact hupdate
  · rw [Child.ordered_fragment] at hupdate ⊢
    exact hmerge f g fg rfl rfl (Child.ordered_fragment.mp (hcurrent _ rfl)) hupdate hfg

/-- Merging keeps the keys of a fragment in order. -/
theorem Fragment.ordered_merge (hcurrent : current.Ordered) (hupdate : update.Ordered)
    (h : current.merge update = .ok merged) : merged.Ordered := by
  induction update using Fragment.inductionOnGaps generalizing current merged with
  | comprehension statics rows own stream =>
    cases statics with
    | some statics =>
      cases (Fragment.merge_of_statics rfl).symm.trans h
      exact hupdate
    | none =>
      cases current with
      | regular statics children =>
        rw [Fragment.merge] at h
        cases h
      | comprehension statics before declared stream =>
        rw [Fragment.merge_comprehension] at h
        obtain ⟨rows, _, rfl⟩ := exists_of_map_eq_ok h
        rw [Fragment.Ordered, Fragment.throughout_comprehension] at hcurrent ⊢
        exact Keyed.sorted_insertAll hcurrent own
  | regular statics updates ih =>
    cases statics with
    | some statics =>
      cases (Fragment.merge_of_statics rfl).symm.trans h
      exact hupdate
    | none =>
      cases current with
      | comprehension statics before declared stream =>
        rw [Fragment.merge] at h
        cases h
      | regular statics children =>
        rw [Fragment.merge_regular] at h
        obtain ⟨merged, hmerged, rfl⟩ := exists_of_map_eq_ok h
        rw [mergeChildren_eq] at hmerged
        rw [Fragment.ordered_regular] at hcurrent hupdate ⊢
        refine hcurrent.updateAll hmerged ?_
        intro gap update current c hmem hc hmerge
        refine Child.ordered_mergedWith hc (hupdate.2 _ hmem) ?_ hmerge
        rintro f g fg rfl rfl hf hg hfg
        exact ih gap g hmem hf hg hfg

/-- A dynamic that is filled in is ordered if it was and what it is filled from is. -/
theorem Child.ordered_filledWith {target : Option Child} {source filled : Child}
    (htarget : ∀ c, target = some c → c.Ordered) (hsource : source.Ordered)
    (hfill : ∀ f g fg, target = some (.fragment f) → source = .fragment g → f.Ordered → g.Ordered →
      f.fill g = .ok fg → fg.Ordered)
    (h : Child.filledWith target source = .ok filled) : filled.Ordered := by
  obtain ⟨rfl, rfl⟩ | rfl | ⟨f, g, fg, rfl, rfl, hfg, rfl⟩ := Child.filledWith_eq_ok h
  · exact hsource
  · exact htarget _ rfl
  · rw [Child.ordered_fragment] at hsource ⊢
    exact hfill f g fg rfl rfl (Child.ordered_fragment.mp (htarget _ rfl)) hsource hfg

/-- Filling in statics keeps the keys of a fragment in order. -/
theorem Fragment.ordered_fill (htarget : target.Ordered) (hsource : source.Ordered)
    (h : target.fill source = .ok filled) : filled.Ordered := by
  induction source using Fragment.inductionOnGaps generalizing target filled with
  | comprehension shared _ _ _ =>
    cases target with
    | comprehension statics rows own stream =>
      rw [Fragment.fill] at h
      cases h
      exact htarget
    | regular statics children =>
      rw [Fragment.fill] at h
      cases h
  | regular shared sources ih =>
    cases target with
    | comprehension statics rows own stream =>
      rw [Fragment.fill] at h
      cases h
    | regular statics children =>
      rw [Fragment.fill_regular] at h
      obtain ⟨filled, hfilled, rfl⟩ := exists_of_map_eq_ok h
      rw [Fragment.ordered_regular] at htarget hsource ⊢
      rw [fillChildren_eq htarget.1] at hfilled
      refine htarget.updateAll hfilled ?_
      intro gap source target c hmem hc hfill
      refine Child.ordered_filledWith hc (hsource.2 _ hmem) ?_ hfill
      rintro f g fg rfl rfl hf hg hfg
      exact ih gap g hmem hf hg hfg

/-! ### Components -/

/-- Merging keeps the keys of children in order. -/
theorem Children.ordered_merge (hchildren : Children.Ordered children) (hupdates : Children.Ordered updates)
    {merged : Children} (h : mergeChildren children updates = .ok merged) : Children.Ordered merged := by
  rw [mergeChildren_eq] at h
  exact hchildren.updateAll h fun _ _ _ _ hmem hc hmerge =>
    Child.ordered_mergedWith hc (hupdates.2 _ hmem) (fun _ _ _ _ _ => Fragment.ordered_merge) hmerge

/-- A component that is filled in from another one is ordered if both are. -/
theorem Component.ordered_fillFrom {c source r : Component} (hc : c.Ordered) (hsource : source.Ordered)
    (h : c.fillFrom source = .ok r) : r.Ordered := by
  rw [Component.fillFrom_eq] at h
  obtain ⟨filled, hfilled, rfl⟩ := exists_of_map_eq_ok h
  rw [fillChildren_eq hc.1] at hfilled
  exact hc.updateAll hfilled fun _ _ _ _ hmem hc hfill =>
    Child.ordered_filledWith hc (hsource.2 _ hmem) (fun _ _ _ _ _ => Fragment.ordered_fill) hfill

namespace Components

variable {old components left resolved : Components} {id : Int} {r : Component}

/-- Resolving a component gives one that is ordered. -/
theorem ordered_resolve (hold : Components.Ordered old) (hcomponents : Components.Ordered components)
    (h : resolve old components left id = .ok r) : r.Ordered := by
  fun_induction resolve old components left id generalizing r with
  | case1 left id hc => cases h
  | case2 left id c hc texts hs =>
    cases h
    exact hcomponents.of_find? hc
  | case3 => cases h
  | case4 left id c hc source hs _ hmet hneg shared hshared =>
    exact Component.ordered_fillFrom (hcomponents.of_find? hc) (hold.of_find? hshared) h
  | case5 => cases h
  | case6 left id c hc source hs _ hmet hneg shared hshared ih =>
    exact Component.ordered_fillFrom (hcomponents.of_find? hc) (ih hshared) h
  | case7 => cases h

/-- Resolving components one after the other keeps them in order. -/
theorem ordered_resolveEach (hold : Components.Ordered old) {ids : List Int} (hcomponents : Components.Ordered components)
    (h : resolveEach old components ids = .ok resolved) : Components.Ordered resolved := by
  induction ids generalizing components with
  | nil =>
    cases h
    exact hcomponents
  | cons id rest ih =>
    rw [resolveEach] at h
    split at h
    · rename_i r hr
      exact ih (hcomponents.insert id (ordered_resolve hold hcomponents hr)) h
    · cases h

end Components

/-- The component that an update makes of the one with the id. -/
def ComponentDiff.applied (id : Int) (current : Option Component) : ComponentDiff → Except MergeError Component
  | .replace c => .ok c
  | .update updates =>
    match current with
    | none => .error (.missingComponent id)
    | some c => (mergeChildren c.children updates).map fun children => { c with children }

/-- What an update makes of a component is ordered if the component was and the update is. -/
theorem ComponentDiff.ordered_applied {id : Int} {current : Option Component} {update : ComponentDiff} {c : Component}
    (hcurrent : ∀ c, current = some c → c.Ordered) (hupdate : update.Ordered)
    (h : ComponentDiff.applied id current update = .ok c) : c.Ordered := by
  cases update with
  | replace c' =>
    cases h
    exact hupdate
  | update children =>
    cases current with
    | none => cases h
    | some before =>
      obtain ⟨after, hafter, rfl⟩ := exists_of_map_eq_ok h
      exact Children.ordered_merge (hcurrent before rfl) hupdate hafter

namespace Components

variable {old components merged : Components} {updates : List (Int × ComponentDiff)}

/-- Merging components goes through the updates as through any that are told by keys. -/
theorem merge_eq (components : Components) (updates : List (Int × ComponentDiff)) :
    Components.merge components updates = Keyed.updateAll ComponentDiff.applied components updates := by
  induction updates generalizing components with
  | nil => rw [Components.merge, Keyed.updateAll]
  | cons entry rest ih =>
    obtain ⟨id, update⟩ := entry
    rw [Keyed.updateAll]
    cases update with
    | replace c =>
      rw [Components.merge]
      exact ih _
    | update children =>
      rw [Components.merge]
      cases hfind : Keyed.find? id components with
      | none => rfl
      | some c =>
        simp only [ComponentDiff.applied]
        cases mergeChildren c.children children with
        | error e => rfl
        | ok merged => exact ih _

/-- Merging keeps components in order. -/
theorem ordered_merge (hcomponents : Components.Ordered components)
    (hupdates : Keyed.SortedOf ComponentDiff.Ordered updates) (h : Components.merge components updates = .ok merged) :
    Components.Ordered merged := by
  rw [merge_eq] at h
  exact hcomponents.updateAll h fun _ _ _ _ hmem hcurrent happlied =>
    ComponentDiff.ordered_applied hcurrent (hupdates.2 _ hmem) happlied

end Components

/-! ### Reading -/

/-- Templates that are read after others are in order with them. -/
theorem sorted_readTemplatesAfter {templates read : Templates} {members : Members} (h : Keyed.Sorted templates)
    (hread : readTemplatesAfter templates members = .ok read) : Keyed.Sorted read := by
  induction members generalizing templates with
  | nil =>
    cases hread
    exact h
  | cons member rest ih =>
    simp only [readTemplatesAfter, bind, Except.bind] at hread
    split at hread
    · cases hread
    · split at hread
      · cases hread
      · exact ih (Keyed.sorted_insert h _ _) hread

/-- The templates of a fragment are in order as they are read, also if there are none. -/
theorem sorted_readTemplates {templates? : Option Templates} {key : String} {members : Members}
    (h : readMember readTemplates key members = .ok templates?) : Keyed.Sorted (templates?.getD []) := by
  rw [readMember] at h
  split at h
  · cases h
    exact Keyed.sorted_nil
  · split at h
    · rename_i templates htemplates
      cases h
      simp only [readTemplates, bind, Except.bind] at htemplates
      split at htemplates
      · cases htemplates
      · exact sorted_readTemplatesAfter Keyed.sorted_nil htemplates
    · cases h

/-- A fragment that is read is ordered if its children are. -/
theorem ordered_readParts {members : Members} {rows? : Option (Except DecodeError (List Row))}
    {read : Unit → Except DecodeError Children} {f : Fragment} (hread : ∀ children, read () = .ok children → Children.Ordered children)
    (h : readParts members rows? read = .ok f) : f.Ordered := by
  simp only [readParts, bind, Except.bind, pure, Except.pure] at h
  split at h
  · cases h
  · split at h
    · cases h
    · split at h
      · split at h
        · cases h
        · rename_i templates? htemplates
          split at h
          · cases h
          · cases h
            exact sorted_readTemplates htemplates
      · split at h
        · cases h
        · split at h
          · cases h
          · rename_i children hchildren
            cases h
            exact Fragment.ordered_regular.mpr (hread children hchildren)

mutual

/-- A dynamic that is read is ordered. -/
theorem Child.ordered_read : ∀ {c : Child} (v : Json), readChild v = .ok c → c.Ordered
  | _, .string s, h => by
    cases h
    trivial
  | _, .number n, h => by
    simp only [readChild, bind, Except.bind, pure, Except.pure] at h
    split at h
    · cases h
    · cases h
      trivial
  | _, .array items, h => by
    simp only [readChild, bind, Except.bind, pure, Except.pure] at h
    split at h
    · cases h
    · cases h
      trivial
  | _, .object members, h => by
    simp only [readChild, bind, Except.bind, pure, Except.pure] at h
    split at h
    · cases h
    · rename_i f hf
      cases h
      exact ordered_readParts (fun children => ordered_readChildren members .nil) hf
  | _, .null, h => by cases h
  | _, .bool b, h => by cases h

/-- Children that are read after others are in order with them. -/
theorem ordered_readChildren : ∀ {children read : Children} (members : List (String × Json)), Children.Ordered children →
    readChildren children members = .ok read → Children.Ordered read
  | _, _, [], hchildren, h => by
    cases h
    exact hchildren
  | _, _, (key, v) :: rest, hchildren, h => by
    rw [readChildren] at h
    split at h
    · exact ordered_readChildren rest hchildren h
    · split at h
      · rename_i c hc
        exact ordered_readChildren rest (hchildren.insert _ (Child.ordered_read v hc)) h
      · cases h

end

/-- A fragment that is read is ordered. -/
theorem ordered_readFragment {members : Members} {f : Fragment} (h : readFragment members = .ok f) : f.Ordered :=
  ordered_readParts (fun _ => ordered_readChildren members .nil) h

/-- A component that is read is ordered. -/
theorem ordered_readComponent {members : Members} {c : Component} (h : readComponent members = .ok c) : c.Ordered := by
  simp only [readComponent, bind, Except.bind] at h
  split at h
  · cases h
  · split at h
    · cases h
    · split at h
      · cases h
      · rename_i children hchildren
        cases h
        exact ordered_readChildren members .nil hchildren

/-- An update of a component that is read is ordered. -/
theorem ordered_readComponentDiff {members : Members} {update : ComponentDiff} (h : readComponentDiff members = .ok update) :
    update.Ordered := by
  simp only [readComponentDiff, bind, Except.bind, pure, Except.pure] at h
  split at h
  · split at h
    · cases h
    · rename_i c hc
      cases h
      exact ordered_readComponent hc
  · split at h
    · cases h
    · rename_i children hchildren
      cases h
      exact ordered_readChildren members .nil hchildren

/-- An update that is read is in order at every depth. -/
theorem RootDiff.ordered_ofText {text : String} {d : RootDiff} (h : RootDiff.ofText text = .ok d) : d.Ordered := by
  unfold RootDiff.ofText at h
  split at h
  · cases h
  · rename_i members _
    split at h
    · cases h
    · rename_i read hread
      cases h
      simp only [readRootDiff, bind, Except.bind] at hread
      split at hread
      · cases hread
      · rename_i components? hcomponents
        split at hread
        · cases hread
        · rename_i fragment hfragment
          cases hread
          exact ⟨ordered_readFragment hfragment,
            sortedOf_readMember (fun _ _ => ordered_readComponentDiff) hcomponents⟩

namespace Root

/-- A description that has been read from a text, or that has come out of updates since. -/
inductive Held : Root → Prop
  | ofText {text : String} {r : Root} (h : Root.ofText text = .ok r) : Held r
  | merge {r next : Root} {update : RootDiff} (h : Held r) (hupdate : update.Ordered) (hnext : r.merge update = .ok next) :
      Held next

variable {r next : Root} {update : RootDiff}

/-- What is held has been reached by reading and merging. -/
theorem Held.reached (h : r.Held) : r.Reached := by
  induction h with
  | ofText h => exact .ofText h
  | merge _ _ hnext ih => exact .merge ih hnext

/-- Merging keeps a description in order. -/
theorem ordered_merge (h : r.Ordered) (hupdate : update.Ordered) (hnext : r.merge update = .ok next) : next.Ordered := by
  obtain ⟨components, hfragment, hcomponents, hresolved⟩ := merge_eq_ok hnext
  have hmerged := Components.ordered_merge h.2 hupdate.2 hcomponents
  exact ⟨Fragment.ordered_merge h.1 hupdate.1 hfragment, Components.ordered_resolveEach h.2 hmerged hresolved⟩

/-- A description that is read, and what updates make of it, is in order at every depth. -/
theorem Held.ordered (h : r.Held) : r.Ordered := by
  induction h with
  | ofText h =>
    obtain ⟨members, components?, hcomponents, hfragment, hresolved⟩ := ofText_eq_ok h
    exact ⟨ordered_readFragment hfragment, Components.ordered_resolveEach .nil
      (sortedOf_readMember (fun _ _ => ordered_readComponent) hcomponents) hresolved⟩
  | merge _ hupdate hnext ih => exact ordered_merge ih hupdate hnext

end Root

end LiveMarkup.Rendered
