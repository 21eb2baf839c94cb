import Mathlib
import LiveMarkup.Proofs.Pointwise

/-!
# Updates that come twice

An update that has been merged can be merged again, and changes nothing then (`Root.merge_twice`). Of a fragment that it has
put in place as it is, this says that the fragment is not changed by being merged into itself (`Fragment.merge_self`); of one
that it has merged, that what came out takes the same values in the same gaps (`Fragment.merge_again`). Streams are the
exception, since they insert and cut rows each time, and so are references to components of before the update, which are others
the second time.
-/

namespace LiveMarkup.Rendered

/-! ## What makes the second time another one -/

/-- Somewhere in a fragment, be it in a gap or in a row, a comprehension has a stream. -/
inductive Fragment.HasStream : Fragment → Prop
  | here {statics : Option Statics} {rows : List Row} {own : Templates} {stream : Stream} :
      HasStream (.comprehension statics rows own (some stream))
  | inGap {statics : Option Statics} {children : Children} {gap : Nat} {f : Fragment}
      (hmem : (gap, Child.fragment f) ∈ children) (h : HasStream f) : HasStream (.regular statics children)
  | inRow {statics : Option Statics} {rows : List Row} {own : Templates} {stream : Option Stream} {row : Row} {f : Fragment}
      (hrow : row ∈ rows) (hmem : Child.fragment f ∈ row) (h : HasStream f) :
      HasStream (.comprehension statics rows own stream)

/-- One of the dynamics has a stream in it. -/
def Children.HasStream (children : Children) : Prop :=
  ∃ gap f, (gap, Child.fragment f) ∈ children ∧ f.HasStream

/-- The dynamics that an update of a component brings. -/
def ComponentDiff.children : ComponentDiff → Children
  | .replace c => c.children
  | .update children => children

namespace RootDiff

/-- There is a stream in what an update brings for the fragment or for a component. -/
def HasStream (d : RootDiff) : Prop :=
  d.fragment.HasStream ∨ ∃ entry ∈ d.components, Children.HasStream entry.2.children

/-- A component that an update brings shares the statics of one of before the update. -/
def RefersBack (d : RootDiff) : Prop :=
  ∃ id c source, (id, ComponentDiff.replace c) ∈ d.components ∧ c.statics = .shared source ∧ source < 0

end RootDiff

/-! ## Fragments -/

variable {current merged update f : Fragment} {children updates : Children} {gap : Nat}

theorem Fragment.not_hasStream_of_mem {statics : Option Statics} (h : ¬ (Fragment.regular statics children).HasStream)
    (hmem : (gap, Child.fragment f) ∈ children) : ¬ f.HasStream :=
  fun hf => h (.inGap hmem hf)

theorem Fragment.stream_eq_none {statics : Option Statics} {rows : List Row} {own : Templates} {stream : Option Stream}
    (h : ¬ (Fragment.comprehension statics rows own stream).HasStream) : stream = none := by
  cases stream with
  | none => rfl
  | some stream => exact absurd .here h

/-- Rows that are exchanged as a whole are the same the second time, and those of a streamed list are left alone. -/
theorem mergeRows_again {rows incoming rows' : List Row} {stream stream' : Option Stream}
    (h : mergeRows rows stream incoming none = .ok (rows', stream')) :
    mergeRows rows' stream' incoming none = .ok (rows', stream') := by
  cases stream with
  | none =>
    cases h
    rfl
  | some current =>
    cases h
    rfl

/-- Templates that are declared again stay. -/
theorem insertAll_again {own : Templates} (h : Keyed.Sorted own) (added : Templates) :
    Keyed.insertAll (Keyed.insertAll own added) added = Keyed.insertAll own added := by
  have hsorted := Keyed.sorted_insertAll h added
  refine Keyed.eq_of_find?_eq (Keyed.sorted_insertAll hsorted added) hsorted fun k => ?_
  rw [Keyed.find?_insertAll, Keyed.find?_insertAll, ← Option.or_assoc, Option.or_self]

theorem insertAll_self {own : Templates} (h : Keyed.Sorted own) : Keyed.insertAll own own = own := by
  refine Keyed.eq_of_find?_eq (Keyed.sorted_insertAll h own) h fun k => ?_
  rw [Keyed.find?_insertAll, ← Keyed.find?_perm own.reverse_perm.symm (Keyed.nodup_keys_of_sorted h), Option.or_self]

/-- A fragment without streams stays as it is when it is merged into itself. -/
theorem Fragment.merge_self (hf : f.Ordered) (hstream : ¬ f.HasStream) : f.merge f = .ok f := by
  induction f using Fragment.inductionOnGaps with
  | comprehension statics rows own stream =>
    cases statics with
    | some statics => exact Fragment.merge_of_statics rfl
    | none =>
      obtain rfl := Fragment.stream_eq_none hstream
      have hown : Keyed.Sorted own := Fragment.throughout_comprehension.mp hf
      rw [Fragment.merge_comprehension, insertAll_self hown]
      rfl
  | regular statics children ih =>
    cases statics with
    | some statics => exact Fragment.merge_of_statics rfl
    | none =>
      have hchildren := Fragment.ordered_regular.mp hf
      have hmerge : mergeChildren children children = .ok children := by
        rw [mergeChildren_eq]
        refine Keyed.updateAll_eq_ok hchildren.1 hchildren.1 (Keyed.nodup_keys_of_sorted hchildren.1) ?_ fun _ _ => rfl
        intro gap c hfind
        refine ⟨c, ?_, hfind⟩
        rw [hfind]
        cases c with
        | text s => rfl
        | component id => rfl
        | fragment g =>
          have hmem := Keyed.mem_of_find? hfind
          have hg : g.Ordered := Child.ordered_fragment.mp (hchildren.2 _ hmem)
          rw [Child.mergedWith, ih gap g hmem hg (Fragment.not_hasStream_of_mem hstream hmem)]
          rfl
      rw [Fragment.merge_regular, hmerge]
      rfl

/-- A dynamic that has come out of an update takes the update again, if the fragments that have come out of merging do. -/
theorem Child.mergedWith_again {current : Option Child} {update merged : Child} (hupdate : update.Ordered)
    (hstream : ∀ g, update = .fragment g → ¬ g.HasStream)
    (hfragment : ∀ f g fg, current = some (.fragment f) → update = .fragment g → f.merge g = .ok fg → fg.merge g = .ok fg)
    (h : Child.mergedWith current update = .ok merged) : Child.mergedWith (some merged) update = .ok merged := by
  obtain rfl | ⟨f, g, fg, rfl, rfl, hfg, rfl⟩ := Child.mergedWith_eq_ok h
  · cases merged with
    | text s => rfl
    | component id => rfl
    | fragment g =>
      rw [Child.mergedWith, Fragment.merge_self (Child.ordered_fragment.mp hupdate) (hstream g rfl)]
      rfl
  · rw [Child.mergedWith, hfragment f g fg rfl rfl hfg]
    rfl

/-- Dynamics that have come out of updates take them again. -/
theorem Children.merge_again (hchildren : Children.Ordered children) (hupdates : Children.Ordered updates)
    (hstream : ∀ gap g, (gap, Child.fragment g) ∈ updates → ¬ g.HasStream)
    (hfragment : ∀ (gap : Nat) (f g fg : Fragment), (gap, Child.fragment g) ∈ updates → f.Ordered → f.merge g = .ok fg →
      fg.merge g = .ok fg)
    {merged : Children} (h : mergeChildren children updates = .ok merged) : mergeChildren merged updates = .ok merged := by
  have hmerged := (Children.ordered_merge hchildren hupdates h).1
  have hkeys := Keyed.nodup_keys_of_sorted hupdates.1
  rw [mergeChildren_eq] at h ⊢
  refine Keyed.updateAll_eq_ok hmerged hmerged hkeys ?_ fun _ _ => rfl
  intro gap update hfind
  have hmem := Keyed.mem_of_find? hfind
  obtain ⟨c, hc, hfound⟩ := Keyed.exists_of_updateAll hkeys h hfind
  refine ⟨c, ?_, hfound⟩
  rw [hfound]
  refine Child.mergedWith_again (hupdates.2 _ hmem) ?_ ?_ hc
  · rintro g rfl
    exact hstream gap g hmem
  · rintro f g fg hf rfl hfg
    exact hfragment gap f g fg hmem (Child.ordered_fragment.mp (hchildren.of_find? hf)) hfg

/-- A fragment that has come out of an update without streams takes the update again. -/
theorem Fragment.merge_again (hcurrent : current.Ordered) (hupdate : update.Ordered) (hstream : ¬ update.HasStream)
    (h : current.merge update = .ok merged) : merged.merge update = .ok merged := by
  induction update using Fragment.inductionOnGaps generalizing current merged with
  | comprehension statics incoming added stream =>
    cases statics with
    | some statics =>
      cases (Fragment.merge_of_statics rfl).symm.trans h
      exact Fragment.merge_of_statics rfl
    | none =>
      obtain rfl := Fragment.stream_eq_none hstream
      cases current with
      | regular statics children =>
        rw [Fragment.merge] at h
        cases h
      | comprehension statics rows own stream =>
        have hown : Keyed.Sorted own := Fragment.throughout_comprehension.mp hcurrent
        rw [Fragment.merge_comprehension] at h
        obtain ⟨⟨rows', stream'⟩, hrows, rfl⟩ := exists_of_map_eq_ok h
        rw [Fragment.merge_comprehension, mergeRows_again hrows, insertAll_again hown]
        rfl
  | regular statics updates ih =>
    cases statics with
    | some statics =>
      cases (Fragment.merge_of_statics rfl).symm.trans h
      exact Fragment.merge_of_statics rfl
    | none =>
      cases current with
      | comprehension statics rows own stream =>
        rw [Fragment.merge] at h
        cases h
      | regular statics children =>
        rw [Fragment.merge_regular] at h
        obtain ⟨after, hafter, rfl⟩ := exists_of_map_eq_ok h
        have hchildren := Fragment.ordered_regular.mp hcurrent
        have hupdates := Fragment.ordered_regular.mp hupdate
        have hagain := Children.merge_again hchildren hupdates
          (fun gap g => Fragment.not_hasStream_of_mem hstream)
          (fun gap f g fg hmem hf hfg => ih gap g hmem hf (Child.ordered_fragment.mp (hupdates.2 _ hmem))
            (Fragment.not_hasStream_of_mem hstream hmem) hfg) hafter
        rw [Fragment.merge_regular, hagain]
        rfl

/-! ## Components -/

namespace Components

variable {old old' components merged resolved : Components} {updates : List (Int × ComponentDiff)} {id : Int} {r : Component}

/-- A component shares the statics of one of before the update. -/
def RefersBack (components : Components) : Prop :=
  ∃ id c source, Keyed.find? id components = some c ∧ c.statics = .shared source ∧ source < 0

/-- What was there before the update does not matter to components that do not refer to it. -/
theorem ResolvesTo.of_not_refersBack (hback : ¬ components.RefersBack) (h : ResolvesTo old components id r) :
    ResolvesTo old' components id r := by
  induction h with
  | own hc hs => exact .own hc hs
  | previous hc hs hneg _ _ => exact absurd ⟨_, _, _, hc, hs, hneg⟩ hback
  | next hc hs hpos _ hfill ih => exact .next hc hs hpos ih hfill

theorem resolveAll_of_not_refersBack (hold : old.Resolved) (hold' : old'.Resolved) (hsorted : Keyed.Sorted components)
    (hback : ¬ components.RefersBack) (h : resolveAll old components = .ok resolved) :
    resolveAll old' components = .ok resolved := by
  obtain ⟨hfirst, hfind⟩ := resolveEach_eq_ok hold h
  obtain ⟨again, hagain⟩ := exists_resolveEach hold' fun id hid => by
    obtain ⟨r, hr, -⟩ := (hfind id).1 hid
    exact ⟨r, hr.of_not_refersBack hback⟩
  obtain ⟨hsecond, hfind'⟩ := resolveEach_eq_ok hold' hagain
  rw [resolveAll, hagain]
  refine congrArg _ (Keyed.eq_of_find?_eq (hsecond hsorted) (hfirst hsorted) fun id => ?_)
  by_cases hid : id ∈ (components.filter fun entry => entry.2.isShared).map Prod.fst
  · obtain ⟨r, hr, hfound⟩ := (hfind id).1 hid
    obtain ⟨r', hr', hfound'⟩ := (hfind' id).1 hid
    rw [hfound, hfound', hr'.unique (hr.of_not_refersBack hback)]
  · rw [(hfind id).2 hid, (hfind' id).2 hid]

/-- What is merged into components with statics of their own refers back only where an update does. -/
theorem not_refersBack_of_merge (hold : old.Resolved) (hkeys : (updates.map Prod.fst).Nodup)
    (hback : ∀ id c source, (id, ComponentDiff.replace c) ∈ updates → c.statics = .shared source → ¬ source < 0)
    (h : merge old updates = .ok merged) : ¬ merged.RefersBack := by
  rintro ⟨id, c, source, hc, hs, hneg⟩
  rw [merge_eq] at h
  cases hid : Keyed.find? id updates with
  | none =>
    rw [Keyed.find?_of_updateAll h hid] at hc
    obtain ⟨texts, htexts⟩ := hold _ (Keyed.mem_of_find? hc)
    cases htexts.symm.trans hs
  | some update =>
    obtain ⟨c', hc', hfound⟩ := Keyed.exists_of_updateAll hkeys h hid
    cases hc.symm.trans hfound
    cases update with
    | replace c =>
      cases hc'
      exact hback id c source (Keyed.mem_of_find? hid) hs hneg
    | update children =>
      cases hbefore : Keyed.find? id old with
      | none =>
        rw [hbefore] at hc'
        cases hc'
      | some before =>
        rw [hbefore] at hc'
        obtain ⟨after, -, rfl⟩ := exists_of_map_eq_ok hc'
        obtain ⟨texts, htexts⟩ := hold _ (Keyed.mem_of_find? hbefore)
        cases htexts.symm.trans hs

/-- Components that have come out of updates, and have been resolved since, take the updates again. -/
theorem merge_again (hold : old.Resolved) (hordered : Components.Ordered old)
    (hupdates : Keyed.SortedOf ComponentDiff.Ordered updates)
    (hstream : ∀ entry ∈ updates, ¬ Children.HasStream entry.2.children) (h : merge old updates = .ok merged)
    (hresolved : resolveAll old merged = .ok resolved) : merge resolved updates = .ok merged := by
  have hkeys := Keyed.nodup_keys_of_sorted hupdates.1
  have hmerged := (ordered_merge hordered hupdates h).1
  have hsorted : Keyed.Sorted resolved := (resolveEach_eq_ok hold hresolved).1 hmerged
  rw [merge_eq] at h ⊢
  refine Keyed.updateAll_eq_ok hsorted hmerged hkeys ?_ ?_
  · intro id update hid
    have hmem := Keyed.mem_of_find? hid
    obtain ⟨c, hc, hfound⟩ := Keyed.exists_of_updateAll hkeys h hid
    refine ⟨c, ?_, hfound⟩
    cases update with
    | replace c' =>
      cases hc
      rfl
    | update children =>
      cases hbefore : Keyed.find? id old with
      | none =>
        rw [hbefore] at hc
        cases hc
      | some before =>
        rw [hbefore] at hc
        obtain ⟨after, hafter, rfl⟩ := exists_of_map_eq_ok hc
        have hinline := hold _ (Keyed.mem_of_find? hbefore)
        rw [find?_of_resolveAll hold hmerged hresolved ?_, hfound]
        · have hchildren : Children.Ordered children := hupdates.2 _ hmem
          have hstill : ∀ gap g, (gap, Child.fragment g) ∈ children → ¬ g.HasStream :=
            fun gap g hg hhas => hstream _ hmem ⟨gap, g, hg, hhas⟩
          have hagain := Children.merge_again (hordered.of_find? hbefore) hchildren hstill
            (fun gap f g fg hg hf => Fragment.merge_again hf (Child.ordered_fragment.mp (hchildren.2 _ hg)) (hstill gap g hg))
            hafter
          rw [ComponentDiff.applied, hagain]
          rfl
        · intro c' hc'
          cases hfound.symm.trans hc'
          exact hinline
  · intro id hid
    have hkept := Keyed.find?_of_updateAll h hid
    rw [find?_of_resolveAll hold hmerged hresolved ?_]
    intro c hc
    rw [hkept] at hc
    exact hold _ (Keyed.mem_of_find? hc)

end Components

/-! ## Descriptions -/

namespace Root

variable {r next : Root} {d : RootDiff}

/-- An update that is merged a second time changes nothing, if there are no streams in it and none of its components refers
to the components of before. -/
theorem merge_twice (hr : r.Held) (hd : d.Ordered) (hstream : ¬ d.HasStream) (hback : ¬ d.RefersBack)
    (h : r.merge d = .ok next) : next.merge d = .ok next := by
  have hordered := hr.ordered
  have hold : r.components.Resolved := hr.reached.resolved.2
  obtain ⟨merged, hfragment, hcomponents, hresolved⟩ := merge_eq_ok h
  have hsorted := (Components.ordered_merge hordered.2 hd.2 hcomponents).1
  have hnext : next.components.Resolved := (Components.resolveAll_resolved hold hsorted hresolved).2
  have hfragment' : next.fragment.merge d.fragment = .ok next.fragment :=
    Fragment.merge_again hordered.1 hd.1 (fun hf => hstream (.inl hf)) hfragment
  have hcomponents' : Components.merge next.components d.components = .ok merged :=
    Components.merge_again hold hordered.2 hd.2 (fun entry hentry hf => hstream (.inr ⟨entry, hentry, hf⟩)) hcomponents
      hresolved
  have hforward : ¬ merged.RefersBack :=
    Components.not_refersBack_of_merge hold (Keyed.nodup_keys_of_sorted hd.2.1)
      (fun id c source hmem hs hneg => hback ⟨id, c, source, hmem, hs, hneg⟩) hcomponents
  have hresolved' := Components.resolveAll_of_not_refersBack hold hnext hsorted hforward hresolved
  rw [merge_of_components hfragment' hcomponents', hresolved']
  rfl

/-- An update that puts a fragment where a component was used, changes one item, and exchanges the other for one that shares
the statics of the first. -/
def itemsChanged : RootDiff :=
  ⟨.regular none [(0, .fragment (.regular none [(0, .text "x")]))],
    [(1, .update [(0, .text "z")]), (2, .replace ⟨.shared 1, [(0, .text "w")]⟩)]⟩

/-- The first time the fragment is put in place and the second time it is merged. -/
theorem items_change_once : twoItems.Held ∧ itemsChanged.Ordered ∧ ¬ itemsChanged.HasStream ∧ ¬ itemsChanged.RefersBack ∧
    ∃ next, next ≠ twoItems ∧ twoItems.merge itemsChanged = .ok next ∧ next.merge itemsChanged = .ok next := by
  have hheld : twoItems.Held := .ofText ofText_twoItems
  have hordered : itemsChanged.Ordered := by
    simp [itemsChanged, RootDiff.Ordered, Fragment.ordered_regular, Children.Ordered, Keyed.SortedOf, Keyed.Sorted,
      ComponentDiff.Ordered, Component.Ordered, Child.Ordered, Child.Throughout, Fragment.throughout_regular,
      Fragment.KeysAscend]
  have hstream : ¬ itemsChanged.HasStream := by
    rintro (h | ⟨entry, hentry, gap, f, hmem, h⟩)
    · cases h with
      | inGap hmem h =>
        cases List.mem_singleton.mp hmem
        cases h with
        | inGap hmem h => cases List.mem_singleton.mp hmem
    · obtain rfl | rfl := List.mem_pair.mp hentry
      · cases List.mem_singleton.mp hmem
      · cases List.mem_singleton.mp hmem
  have hback : ¬ itemsChanged.RefersBack := by
    rintro ⟨id, c, source, hmem, hs, hneg⟩
    obtain h | h := List.mem_pair.mp hmem
    · cases h
    · cases h
      cases hs
      exact absurd hneg (by decide)
  have hmerge : twoItems.merge itemsChanged =
      .ok ⟨.regular (some (.inline ["", ""])) [(0, .fragment (.regular none [(0, .text "x")]))],
        [(1, ⟨.inline ["<i>", "</i>"], [(0, .text "z")]⟩), (2, ⟨.inline ["<i>", "</i>"], [(0, .text "w")]⟩)]⟩ := by cbv
  refine ⟨hheld, hordered, hstream, hback, _, ?_, hmerge, merge_twice hheld hordered hstream hback hmerge⟩
  intro heq
  cases heq

end Root

end LiveMarkup.Rendered
