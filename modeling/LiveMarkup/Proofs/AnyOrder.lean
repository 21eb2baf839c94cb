import LiveMarkup.Proofs.KeyOrder

/-!
# Updates in any order

The dynamics and the templates that an update names come in no particular order. Relations tell what merging and filling may
come to in whatever order these are gone through, at every depth (`Fragment.MergesTo`, `Fragment.FillsTo`). All orders succeed
if one does, and then all come to the same (`Fragment.decides_merge`, `Fragment.decides_fill`); only the errors may be others.
-/

namespace LiveMarkup.Rendered

/-! ## Merging fragments -/

mutual

/-- What merging fragments may come to. -/
inductive Fragment.MergesTo : Fragment → Fragment → Except MergeError Fragment → Prop
  | replace {current update : Fragment} (h : update.statics.isSome) : Fragment.MergesTo current update (.ok update)
  | regular {statics : Option Statics} {children updates order : Children} {outcome : Except MergeError Children}
      (horder : order.Perm updates) (h : Keyed.UpdatesTo (fun _ => Child.MergesTo) children order outcome) :
      Fragment.MergesTo (.regular statics children) (.regular none updates) (outcome.map (.regular statics))
  | comprehension {statics : Option Statics} {rows incoming : List Row} {own added order : Templates}
      {stream update : Option Stream} (horder : order.Perm added) :
      Fragment.MergesTo (.comprehension statics rows own stream) (.comprehension none incoming added update)
        ((mergeRows rows stream incoming update).map fun merged =>
          .comprehension statics merged.1 (Keyed.insertAll own order) merged.2)
  | regularMismatch {statics : Option Statics} {rows : List Row} {own : Templates} {stream : Option Stream}
      {updates : Children} :
      Fragment.MergesTo (.comprehension statics rows own stream) (.regular none updates) (.error .typeMismatch)
  | comprehensionMismatch {statics : Option Statics} {children : Children} {incoming : List Row} {added : Templates}
      {update : Option Stream} :
      Fragment.MergesTo (.regular statics children) (.comprehension none incoming added update) (.error .typeMismatch)

/-- What updating the dynamic in a gap may come to. -/
inductive Child.MergesTo : Option Child → Child → Except MergeError Child → Prop
  | fragment {current update : Fragment} {outcome : Except MergeError Fragment}
      (h : Fragment.MergesTo current update outcome) :
      Child.MergesTo (some (.fragment current)) (.fragment update) (outcome.map .fragment)
  | replace {current : Option Child} {update : Child}
      (h : ∀ f g, current = some (.fragment f) → update ≠ .fragment g) : Child.MergesTo current update (.ok update)

end

section

variable {f update : Fragment} {children updates : Children}

/-- Unless a fragment is to be merged into another one, the update takes the place of what was there. -/
theorem Child.mergedWith_eq_of_forall {current : Option Child} {update : Child}
    (h : ∀ f g, current = some (.fragment f) → update ≠ .fragment g) : Child.mergedWith current update = .ok update := by
  unfold Child.mergedWith
  split
  · exact absurd rfl (h _ _ rfl)
  · rfl

/-- The order in which templates are stored makes no difference. -/
theorem insertAll_perm {own added order : Templates} (hown : Keyed.Sorted own) (hadded : Keyed.Sorted added)
    (horder : order.Perm added) : Keyed.insertAll own order = Keyed.insertAll own added := by
  refine Keyed.eq_of_find?_eq (Keyed.sorted_insertAll hown order) (Keyed.sorted_insertAll hown added) fun id => ?_
  have hkeys : (order.map Prod.fst).Nodup := (horder.map Prod.fst).nodup_iff.mpr (Keyed.nodup_keys_of_sorted hadded)
  have hreverse : order.reverse.Perm added.reverse :=
    (List.reverse_perm order).trans (horder.trans (List.reverse_perm added).symm)
  rw [Keyed.find?_insertAll, Keyed.find?_insertAll,
    Keyed.find?_perm hreverse (((List.reverse_perm order).map Prod.fst).nodup_iff.mpr hkeys)]

/-- What becomes of a dynamic is one of its outcomes, if this is so for the fragments in it. -/
theorem Child.decides_mergedWith {current : Option Child} {update : Child}
    (h : ∀ f g, current = some (.fragment f) → update = .fragment g → Keyed.Decides (f.MergesTo g) (f.merge g)) :
    Keyed.Decides (Child.MergesTo current update) (Child.mergedWith current update) := by
  by_cases hfragments : ∃ f g, current = some (.fragment f) ∧ update = .fragment g
  · obtain ⟨f, g, rfl, rfl⟩ := hfragments
    obtain ⟨hmay, honly⟩ := h f g rfl rfl
    refine ⟨.fragment hmay, ?_⟩
    intro outcome h
    cases h with
    | fragment h => rw [Child.mergedWith, Keyed.toOption_map, Keyed.toOption_map, honly _ h]
    | replace h => exact absurd rfl (h f g rfl)
  · have hother : ∀ f g, current = some (.fragment f) → update ≠ .fragment g :=
      fun f g hf hg => hfragments ⟨f, g, hf, hg⟩
    rw [Child.mergedWith_eq_of_forall hother]
    refine ⟨.replace hother, ?_⟩
    intro outcome h
    cases h with
    | fragment h => exact absurd rfl (hother _ _ rfl)
    | replace _ => rfl

/-- What becomes of children is an outcome of their updates in some order. -/
theorem Children.decides_merge (hchildren : Children.Ordered children) (hupdates : Children.Ordered updates)
    (h : ∀ (gap : Nat) (f g : Fragment), (gap, .fragment g) ∈ updates → f.Ordered → g.Ordered →
      Keyed.Decides (f.MergesTo g) (f.merge g)) :
    Keyed.Decides (fun outcome => ∃ order, order.Perm updates ∧
      Keyed.UpdatesTo (fun _ => Child.MergesTo) children order outcome) (mergeChildren children updates) := by
  rw [mergeChildren_eq]
  refine Keyed.decides_updateAll hchildren (Keyed.nodup_keys_of_sorted hupdates.1) ?_
  intro gap update current hmem hcurrent
  refine ⟨Child.decides_mergedWith ?_, ?_⟩
  · rintro f g rfl rfl
    exact h gap f g hmem (Child.ordered_fragment.mp (hcurrent _ rfl)) (Child.ordered_fragment.mp (hupdates.2 _ hmem))
  · intro merged hmerged
    exact Child.ordered_mergedWith hcurrent (hupdates.2 _ hmem) (fun _ _ _ _ _ => Fragment.ordered_merge) hmerged

/-- What fragments are merged to stands for all that merging may come to. -/
theorem Fragment.decides_merge (hf : f.Ordered) (hupdate : update.Ordered) :
    Keyed.Decides (f.MergesTo update) (f.merge update) := by
  induction update using Fragment.inductionOnGaps generalizing f with
  | comprehension statics incoming added update =>
    cases statics with
    | some statics =>
      rw [Fragment.merge_of_statics rfl]
      refine ⟨.replace rfl, ?_⟩
      rintro outcome ⟨⟩
      rfl
    | none =>
      cases f with
      | regular statics children =>
        rw [Fragment.merge]
        refine ⟨.comprehensionMismatch, ?_⟩
        intro outcome h
        cases h with
        | replace hs => cases hs
        | comprehensionMismatch => rfl
      | comprehension statics rows own stream =>
        rw [Fragment.Ordered, Fragment.throughout_comprehension] at hf hupdate
        rw [Fragment.merge_comprehension]
        refine ⟨.comprehension (.refl added), ?_⟩
        intro outcome h
        cases h with
        | replace hs => cases hs
        | comprehension horder => rw [insertAll_perm hf hupdate horder]
  | regular statics updates ih =>
    cases statics with
    | some statics =>
      rw [Fragment.merge_of_statics rfl]
      refine ⟨.replace rfl, ?_⟩
      rintro outcome ⟨⟩
      rfl
    | none =>
      cases f with
      | comprehension statics rows own stream =>
        rw [Fragment.merge]
        refine ⟨.regularMismatch, ?_⟩
        intro outcome h
        cases h with
        | replace hs => cases hs
        | regularMismatch => rfl
      | regular statics children =>
        rw [Fragment.ordered_regular] at hf hupdate
        rw [Fragment.merge_regular]
        obtain ⟨⟨order, horder, hmay⟩, honly⟩ :=
          Children.decides_merge hf hupdate fun gap f g hmem hf hg => ih gap g hmem hf hg
        refine ⟨.regular horder hmay, ?_⟩
        intro outcome h
        cases h with
        | replace hs => cases hs
        | regular horder h => rw [Keyed.toOption_map, Keyed.toOption_map, honly _ ⟨_, horder, h⟩]

end

/-! ## Filling fragments -/

mutual

/-- What filling a fragment may come to. -/
inductive Fragment.FillsTo : Fragment → Fragment → Except MergeError Fragment → Prop
  | comprehension {statics shared : Option Statics} {rows rows' : List Row} {own own' : Templates}
      {stream stream' : Option Stream} :
      Fragment.FillsTo (.comprehension statics rows own stream) (.comprehension shared rows' own' stream')
        (.ok (.comprehension (statics.or shared) rows own stream))
  | regular {statics shared : Option Statics} {children sources order : Children} {outcome : Except MergeError Children}
      (horder : order.Perm sources) (h : Keyed.UpdatesTo (fun _ => Child.FillsTo) children order outcome) :
      Fragment.FillsTo (.regular statics children) (.regular shared sources)
        (outcome.map (.regular (statics.or shared)))
  | regularMismatch {statics shared : Option Statics} {rows : List Row} {own : Templates} {stream : Option Stream}
      {sources : Children} :
      Fragment.FillsTo (.comprehension statics rows own stream) (.regular shared sources) (.error .typeMismatch)
  | comprehensionMismatch {statics shared : Option Statics} {children : Children} {rows : List Row} {own : Templates}
      {stream : Option Stream} :
      Fragment.FillsTo (.regular statics children) (.comprehension shared rows own stream) (.error .typeMismatch)

/-- What filling the dynamic in a gap may come to. -/
inductive Child.FillsTo : Option Child → Child → Except MergeError Child → Prop
  | missing {source : Child} : Child.FillsTo none source (.ok source)
  | fragment {target source : Fragment} {outcome : Except MergeError Fragment}
      (h : Fragment.FillsTo target source outcome) :
      Child.FillsTo (some (.fragment target)) (.fragment source) (outcome.map .fragment)
  | keep {target source : Child} (h : ∀ f g, target = .fragment f → source ≠ .fragment g) :
      Child.FillsTo (some target) source (.ok target)

end

section

variable {f source : Fragment} {children sources : Children}

/-- Unless a fragment is to be filled in from another one, what is there stays. -/
theorem Child.filledWith_eq_of_forall {target source : Child} (h : ∀ f g, target = .fragment f → source ≠ .fragment g) :
    Child.filledWith (some target) source = .ok target := by
  cases target with
  | component id => rfl
  | text s => rfl
  | fragment f =>
    cases source with
    | component id => rfl
    | text s => rfl
    | fragment g => exact absurd rfl (h f g rfl)

/-- What a dynamic is filled in to is one of its outcomes, if this is so for the fragments in it. -/
theorem Child.decides_filledWith {target : Option Child} {source : Child}
    (h : ∀ f g, target = some (.fragment f) → source = .fragment g → Keyed.Decides (f.FillsTo g) (f.fill g)) :
    Keyed.Decides (Child.FillsTo target source) (Child.filledWith target source) := by
  cases target with
  | none =>
    refine ⟨.missing, ?_⟩
    rintro outcome ⟨⟩
    rfl
  | some target =>
    by_cases hfragments : ∃ f g, target = .fragment f ∧ source = .fragment g
    · obtain ⟨f, g, rfl, rfl⟩ := hfragments
      obtain ⟨hmay, honly⟩ := h f g rfl rfl
      refine ⟨.fragment hmay, ?_⟩
      intro outcome h
      cases h with
      | fragment h => rw [Child.filledWith, Keyed.toOption_map, Keyed.toOption_map, honly _ h]
      | keep h => exact absurd rfl (h f g rfl)
    · have hother : ∀ f g, target = .fragment f → source ≠ .fragment g := fun f g hf hg => hfragments ⟨f, g, hf, hg⟩
      rw [Child.filledWith_eq_of_forall hother]
      refine ⟨.keep hother, ?_⟩
      intro outcome h
      cases h with
      | fragment h => exact absurd rfl (hother _ _ rfl)
      | keep _ => rfl

/-- What children are filled in to is an outcome of filling them in in some order. -/
theorem Children.decides_fill (hchildren : Children.Ordered children) (hsources : Children.Ordered sources)
    (h : ∀ (gap : Nat) (f g : Fragment), (gap, .fragment g) ∈ sources → f.Ordered → g.Ordered →
      Keyed.Decides (f.FillsTo g) (f.fill g)) :
    Keyed.Decides (fun outcome => ∃ order, order.Perm sources ∧
      Keyed.UpdatesTo (fun _ => Child.FillsTo) children order outcome) (fillChildren children sources) := by
  rw [fillChildren_eq hchildren.1]
  refine Keyed.decides_updateAll hchildren (Keyed.nodup_keys_of_sorted hsources.1) ?_
  intro gap source target hmem htarget
  refine ⟨Child.decides_filledWith ?_, ?_⟩
  · rintro f g rfl rfl
    exact h gap f g hmem (Child.ordered_fragment.mp (htarget _ rfl)) (Child.ordered_fragment.mp (hsources.2 _ hmem))
  · intro filled hfilled
    exact Child.ordered_filledWith htarget (hsources.2 _ hmem) (fun _ _ _ _ _ => Fragment.ordered_fill) hfilled

/-- What a fragment is filled to stands for all that filling may come to. -/
theorem Fragment.decides_fill (hf : f.Ordered) (hsource : source.Ordered) :
    Keyed.Decides (f.FillsTo source) (f.fill source) := by
  induction source using Fragment.inductionOnGaps generalizing f with
  | comprehension shared rows own stream =>
    cases f with
    | regular statics children =>
      rw [Fragment.fill]
      refine ⟨.comprehensionMismatch, ?_⟩
      rintro outcome ⟨⟩
      rfl
    | comprehension statics rows own stream =>
      rw [Fragment.fill]
      refine ⟨.comprehension, ?_⟩
      rintro outcome ⟨⟩
      rfl
  | regular shared sources ih =>
    cases f with
    | comprehension statics rows own stream =>
      rw [Fragment.fill]
      refine ⟨.regularMismatch, ?_⟩
      rintro outcome ⟨⟩
      rfl
    | regular statics children =>
      rw [Fragment.ordered_regular] at hf hsource
      rw [Fragment.fill_regular]
      obtain ⟨⟨order, horder, hmay⟩, honly⟩ :=
        Children.decides_fill hf hsource fun gap f g hmem hf hg => ih gap g hmem hf hg
      refine ⟨.regular horder hmay, ?_⟩
      intro outcome h
      cases h with
      | regular horder h => rw [Keyed.toOption_map, Keyed.toOption_map, honly _ ⟨_, horder, h⟩]

end

/-! ## Updating and filling components -/

/-- What updating the component with an id may come to. -/
inductive ComponentDiff.AppliesTo : Int → Option Component → ComponentDiff → Except MergeError Component → Prop
  | replace {id : Int} {current : Option Component} {c : Component} : AppliesTo id current (.replace c) (.ok c)
  | missing {id : Int} {updates : Children} : AppliesTo id none (.update updates) (.error (.missingComponent id))
  | update {id : Int} {c : Component} {updates order : Children} {outcome : Except MergeError Children}
      (horder : order.Perm updates) (h : Keyed.UpdatesTo (fun _ => Child.MergesTo) c.children order outcome) :
      AppliesTo id (some c) (.update updates) (outcome.map fun children => { c with children })

/-- What filling a component may come to. -/
inductive Component.FillsTo : Component → Component → Except MergeError Component → Prop
  | children {c source : Component} {order : Children} {outcome : Except MergeError Children}
      (horder : order.Perm source.children) (h : Keyed.UpdatesTo (fun _ => Child.FillsTo) c.children order outcome) :
      FillsTo c source (outcome.map fun children => ⟨source.statics, children⟩)

/-- What an update makes of a component is one of its outcomes. -/
theorem ComponentDiff.decides_applied {id : Int} {current : Option Component} {update : ComponentDiff}
    (hcurrent : ∀ c, current = some c → c.Ordered) (hupdate : update.Ordered) :
    Keyed.Decides (ComponentDiff.AppliesTo id current update) (ComponentDiff.applied id current update) := by
  cases update with
  | replace c =>
    refine ⟨.replace, ?_⟩
    rintro outcome ⟨⟩
    rfl
  | update updates =>
    cases current with
    | none =>
      refine ⟨.missing, ?_⟩
      rintro outcome ⟨⟩
      rfl
    | some c =>
      obtain ⟨⟨order, horder, hmay⟩, honly⟩ :=
        Children.decides_merge (hcurrent c rfl) hupdate fun _ _ _ _ => Fragment.decides_merge
      refine ⟨.update horder hmay, ?_⟩
      intro outcome h
      cases h with
      | update horder h =>
        rw [ComponentDiff.applied, Keyed.toOption_map, Keyed.toOption_map, honly _ ⟨_, horder, h⟩]

/-- What a component is filled in to is one of its outcomes. -/
theorem Component.decides_fillFrom {c source : Component} (hc : c.Ordered) (hsource : source.Ordered) :
    Keyed.Decides (c.FillsTo source) (c.fillFrom source) := by
  obtain ⟨⟨order, horder, hmay⟩, honly⟩ := Children.decides_fill hc hsource fun _ _ _ _ => Fragment.decides_fill
  rw [Component.fillFrom_eq]
  refine ⟨.children horder hmay, ?_⟩
  intro outcome h
  cases h with
  | children horder h => rw [Keyed.toOption_map, Keyed.toOption_map, honly _ ⟨_, horder, h⟩]

end LiveMarkup.Rendered
