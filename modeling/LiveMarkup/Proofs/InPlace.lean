import LiveMarkup.Proofs.AnyOrder
import LiveMarkup.Proofs.Resolving

/-!
# Components resolved in place

A component is resolved in place: when it is filled, the components that it is filled from have been resolved in place before
it (`Components.ResolvesBy`). What has been resolved on the way does not matter to what another component resolves to, and
none of the components that are still to be filled is touched (`Components.InPlace`). So resolving in place comes to what
resolving comes to (`Components.agrees_of_resolvesBy`, `Components.mayBe_resolve`), in whatever order components are resolved
(`Components.decides_resolveEach`), and with this it is told what updating a description may come to (`Root.decides_merge`).
-/

namespace LiveMarkup.Rendered

namespace Components

/-- What resolving the component with an id in place may come to. `visiting` are the components that are to be filled after
it. -/
inductive ResolvesBy (old components : Components) : (visiting : List Int) → Int → Except MergeError Components → Prop
  | missing {visiting : List Int} {id : Int} (hc : Keyed.find? id components = none) :
      ResolvesBy old components visiting id (.error (.missingComponent id))
  | own {visiting : List Int} {id : Int} {c : Component} {texts : List String} (hc : Keyed.find? id components = some c)
      (hs : c.statics = .inline texts) : ResolvesBy old components visiting id (.ok components)
  | cycle {visiting : List Int} {id source : Int} {c : Component} (hc : Keyed.find? id components = some c)
      (hs : c.statics = .shared source) (hmet : id ∈ visiting) :
      ResolvesBy old components visiting id (.error (.sharedCycle id))
  | previous {visiting : List Int} {id source : Int} {c y : Component} {outcome : Except MergeError Component}
      (hc : Keyed.find? id components = some c) (hs : c.statics = .shared source) (hfree : id ∉ visiting)
      (hneg : source < 0) (hy : Keyed.find? (-source) old = some y) (hfill : c.FillsTo y outcome) :
      ResolvesBy old components visiting id (outcome.map fun r => Keyed.insert id r components)
  | previousMissing {visiting : List Int} {id source : Int} {c : Component} (hc : Keyed.find? id components = some c)
      (hs : c.statics = .shared source) (hfree : id ∉ visiting) (hneg : source < 0)
      (hy : Keyed.find? (-source) old = none) :
      ResolvesBy old components visiting id (.error (.missingComponent source))
  | next {visiting : List Int} {id source : Int} {c c' y : Component} {next : Components}
      {outcome : Except MergeError Component} (hc : Keyed.find? id components = some c) (hs : c.statics = .shared source)
      (hfree : id ∉ visiting) (hpos : ¬ source < 0) (hsource : ResolvesBy old components (id :: visiting) source (.ok next))
      (hy : Keyed.find? source next = some y) (hc' : Keyed.find? id next = some c') (hfill : c'.FillsTo y outcome) :
      ResolvesBy old components visiting id (outcome.map fun r => Keyed.insert id r next)
  | nextError {visiting : List Int} {id source : Int} {c : Component} {e : MergeError}
      (hc : Keyed.find? id components = some c) (hs : c.statics = .shared source) (hfree : id ∉ visiting)
      (hpos : ¬ source < 0) (hsource : ResolvesBy old components (id :: visiting) source (.error e)) :
      ResolvesBy old components visiting id (.error e)

/-- What resolving components in place, one after the other, may come to. -/
inductive EachResolvesBy (old : Components) : Components → List Int → Except MergeError Components → Prop
  | done {components : Components} : EachResolvesBy old components [] (.ok components)
  | next {components next : Components} {id : Int} {rest : List Int} {outcome : Except MergeError Components}
      (hid : ResolvesBy old components [] id (.ok next)) (h : EachResolvesBy old next rest outcome) :
      EachResolvesBy old components (id :: rest) outcome
  | stop {components : Components} {id : Int} {rest : List Int} {e : MergeError}
      (hid : ResolvesBy old components [] id (.error e)) : EachResolvesBy old components (id :: rest) (.error e)

variable {old components stage stage' left resolved : Components} {visiting ids order : List Int} {id source : Int}
  {c y r free : Component} {outcome : Except MergeError Component}

/-! ## On the way -/

/-- Components that are visited are those that are not left, and all of them share statics with a component, be it by way of
others. -/
def LedTo (components left : Components) (visiting : List Int) (id : Int) : Prop :=
  ∀ j c, Keyed.find? j components = some c → (j ∈ visiting ↔ Keyed.find? j left = none) ∧
    (j ∈ visiting → Relation.TransGen components.Shares j id)

theorem ledTo_start (components : Components) (id : Int) : components.LedTo components [] id := by
  intro j c hc
  simp [hc]

/-- One reference on, the component that was met is not left any more. -/
theorem LedTo.next (h : components.LedTo left visiting id) (hshares : components.Shares id source) :
    components.LedTo (Keyed.erase id left) (id :: visiting) source := by
  intro j c hc
  obtain ⟨hiff, hled⟩ := h j c hc
  rw [List.mem_cons, Keyed.find?_erase]
  by_cases hj : j = id
  · subst hj
    exact ⟨by simp, fun _ => .single hshares⟩
  · simp only [hj, false_or, if_false]
    exact ⟨hiff, fun hmem => (hled hmem).tail hshares⟩

/-- What a component resolves to is found with those that are left. -/
theorem LedTo.resolve_eq (h : components.LedTo left visiting id) (hr : ResolvesTo old components id r) :
    resolve old components left id = .ok r := by
  refine resolve_of_resolvesTo hr ?_
  intro j c hc hj
  obtain ⟨hiff, hled⟩ := h j c hc
  exact hled (hiff.mpr hj)

/-- Components after one of them has been resolved in place. Others may have been resolved with it, but none that are
visited. -/
structure InPlace (old components stage : Components) (visiting : List Int) (id : Int) (r : Component) (next : Components) :
    Prop where
  found : Keyed.find? id next = some r
  part : PartlyResolved old components next
  ordered : Components.Ordered next
  kept : ∀ k ∈ visiting, Keyed.find? k next = Keyed.find? k stage

/-- A component that has been resolved before is in place. -/
theorem inPlace_of_found (hstage : Components.Ordered stage) (hpart : PartlyResolved old components stage)
    (hfound : Keyed.find? id stage = some r) : InPlace old components stage visiting id r stage :=
  ⟨hfound, hpart, hstage, fun _ _ => rfl⟩

/-- A component that is not visited may be put in place. -/
theorem inPlace_insert (hpart : PartlyResolved old components stage') (hstage' : Components.Ordered stage')
    (hkept : ∀ k ∈ visiting, Keyed.find? k stage' = Keyed.find? k stage) (hfree : id ∉ visiting)
    (hr : ResolvesTo old components id r) (hordered : r.Ordered) :
    InPlace old components stage visiting id r (Keyed.insert id r stage') where
  found := by rw [Keyed.find?_insert, if_pos rfl]
  part := hpart.insert hr
  ordered := hstage'.insert id hordered
  kept := by
    intro k hk
    have hne : k ≠ id := by
      rintro rfl
      exact hfree hk
    rw [Keyed.find?_insert, if_neg hne]
    exact hkept k hk

/-- A component that is not being visited is left. -/
theorem LedTo.exists_left (h : components.LedTo left visiting id) (hc : Keyed.find? id components = some c)
    (hfree : id ∉ visiting) : ∃ free, Keyed.find? id left = some free := by
  refine Option.ne_none_iff_exists'.mp ?_
  intro hnone
  exact hfree ((h id c hc).1.mpr hnone)

/-- A reference to a component that has been met is a cycle. -/
theorem resolve_of_met (hc : Keyed.find? id components = some c) (hs : c.statics = .shared source)
    (hmet : Keyed.find? id left = none) : resolve old components left id = .error (.sharedCycle id) := by
  rw [resolve]
  simp only [hc, hs]
  split
  · rfl
  · rename_i hfree
    cases hmet.symm.trans hfree

/-- A component that shares statics, and has not been met, is filled from the component that is found for it. -/
theorem resolve_of_shared (hc : Keyed.find? id components = some c) (hs : c.statics = .shared source)
    (hfree : Keyed.find? id left = some free) : resolve old components left id =
      if source < 0 then
        match Keyed.find? (-source) old with
        | some shared => c.fillFrom shared
        | none => .error (.missingComponent source)
      else
        match resolve old components (Keyed.erase id left) source with
        | .ok shared => c.fillFrom shared
        | .error e => .error e := by
  rw [resolve]
  simp only [hc, hs]
  split
  · rename_i hnone
    cases hfree.symm.trans hnone
  · rfl

/-! ## One component -/

/-- Resolving in place agrees with resolving, but for the error if there is one. -/
def Agrees (old components stage : Components) (visiting : List Int) (id : Int) (x : Except MergeError Component) :
    Except MergeError Components → Prop
  | .ok next => ∃ r, x = .ok r ∧ InPlace old components stage visiting id r next
  | .error _ => ∃ e, x = .error e

/-- Resolving in place may come to what resolving comes to. -/
def MayBe (old components stage : Components) (visiting : List Int) (id : Int) : Except MergeError Component → Prop
  | .ok r => ∃ next, ResolvesBy old stage visiting id (.ok next) ∧ InPlace old components stage visiting id r next
  | .error e => ResolvesBy old stage visiting id (.error e)

section

variable (hpart : PartlyResolved old components stage') (hstage' : Components.Ordered stage')
  (hkept : ∀ k ∈ visiting, Keyed.find? k stage' = Keyed.find? k stage) (hc : c.Ordered) (hy : y.Ordered)
  (hfree : id ∉ visiting) (hr : ∀ r, c.fillFrom y = .ok r → ResolvesTo old components id r)
include hpart hstage' hkept hc hy hfree hr

theorem agrees_of_fillsTo (hfill : c.FillsTo y outcome) :
    Agrees old components stage visiting id (c.fillFrom y) (outcome.map fun r => Keyed.insert id r stage') := by
  have hdecides := Component.decides_fillFrom hc hy
  cases outcome with
  | error e =>
    cases hx : c.fillFrom y with
    | error e' => exact ⟨e', rfl⟩
    | ok r =>
      rw [hx] at hdecides
      exact absurd hfill hdecides.not_error
  | ok r =>
    have hx := hdecides.eq_ok hfill
    exact ⟨r, hx, inPlace_insert hpart hstage' hkept hfree (hr r hx) (Component.ordered_fillFrom hc hy hx)⟩

theorem mayBe_fillFrom (hby : ∀ outcome, c.FillsTo y outcome →
      ResolvesBy old stage visiting id (outcome.map fun r => Keyed.insert id r stage')) :
    MayBe old components stage visiting id (c.fillFrom y) := by
  have hmay := hby _ (Component.decides_fillFrom hc hy).1
  cases hx : c.fillFrom y with
  | error e =>
    rw [hx] at hmay
    exact hmay
  | ok r =>
    rw [hx] at hmay
    exact ⟨_, hmay, inPlace_insert hpart hstage' hkept hfree (hr r hx) (Component.ordered_fillFrom hc hy hx)⟩

end

section

variable (hold : old.Resolved) (hprevious : Components.Ordered old) (hstage : Components.Ordered stage)
  (hpart : PartlyResolved old components stage)
include hold hprevious hstage hpart

/-- Whatever resolving in place comes to, resolving comes to it as well. -/
theorem agrees_of_resolvesBy {outcome : Except MergeError Components} (h : ResolvesBy old stage visiting id outcome)
    (hled : components.LedTo left visiting id) :
    Agrees old components stage visiting id (resolve old components left id) outcome := by
  induction h generalizing left with
  | @missing visiting id hc =>
    obtain hsame | ⟨r, hr, hfound⟩ := hpart id
    · exact ⟨_, by rw [resolve, hsame.symm.trans hc]⟩
    · cases hc.symm.trans hfound
  | @own visiting id c texts hc hs =>
    obtain hsame | ⟨r, hr, hfound⟩ := hpart id
    · refine ⟨c, ?_, inPlace_of_found hstage hpart hc⟩
      rw [resolve]
      simp only [hsame.symm.trans hc, hs]
    · exact ⟨r, hled.resolve_eq hr, inPlace_of_found hstage hpart hfound⟩
  | cycle hc hs hmet =>
    have hin := hpart.find?_of_shared hold hc hs
    exact ⟨_, resolve_of_met hin hs ((hled _ _ hin).1.mp hmet)⟩
  | previous hc hs hfree hneg hy hfill =>
    have hin := hpart.find?_of_shared hold hc hs
    obtain ⟨free, hleft⟩ := hled.exists_left hin hfree
    rw [resolve_of_shared hin hs hleft, if_pos hneg, hy]
    exact agrees_of_fillsTo hpart hstage (fun _ _ => rfl) (hstage.of_find? hc) (hprevious.of_find? hy) hfree
      (fun r hr => .previous hin hs hneg hy hr) hfill
  | previousMissing hc hs hfree hneg hy =>
    have hin := hpart.find?_of_shared hold hc hs
    obtain ⟨free, hleft⟩ := hled.exists_left hin hfree
    exact ⟨_, by rw [resolve_of_shared hin hs hleft, if_pos hneg, hy]⟩
  | @next visiting id source c c' y next outcome hc hs hfree hpos _ hy hc' hfill ih =>
    have hin := hpart.find?_of_shared hold hc hs
    obtain ⟨free, hleft⟩ := hled.exists_left hin hfree
    obtain ⟨y', hsource, hnext⟩ := ih (hled.next ⟨c, hin, hs, not_lt.mp hpos⟩)
    cases hy.symm.trans hnext.found
    cases hc.symm.trans ((hnext.kept id List.mem_cons_self).symm.trans hc')
    rw [resolve_of_shared hin hs hleft, if_neg hpos, hsource]
    exact agrees_of_fillsTo hnext.part hnext.ordered (fun k hk => hnext.kept k (List.mem_cons_of_mem _ hk))
      (hstage.of_find? hc) (hnext.ordered.of_find? hy) hfree
      (fun r hr => .next hin hs (not_lt.mp hpos) (resolvesTo_of_resolve hsource) hr) hfill
  | nextError hc hs hfree hpos _ ih =>
    have hin := hpart.find?_of_shared hold hc hs
    obtain ⟨free, hleft⟩ := hled.exists_left hin hfree
    obtain ⟨e', hsource⟩ := ih (hled.next ⟨_, hin, hs, not_lt.mp hpos⟩)
    exact ⟨e', by rw [resolve_of_shared hin hs hleft, if_neg hpos, hsource]⟩

/-- Whatever resolving comes to, resolving in place may come to it as well. -/
theorem mayBe_resolve (left : Components) (visiting : List Int) (id : Int) (hled : components.LedTo left visiting id) :
    MayBe old components stage visiting id (resolve old components left id) := by
  obtain hsame | ⟨r, hr, hfound⟩ := hpart id
  swap
  · -- the component has been resolved before
    obtain ⟨texts, htexts⟩ := hr.inline hold
    rw [hled.resolve_eq hr]
    exact ⟨stage, .own hfound htexts, inPlace_of_found hstage hpart hfound⟩
  cases hin : Keyed.find? id components with
  | none =>
    rw [resolve, hin]
    exact .missing (hsame.trans hin)
  | some c =>
    have hc := hsame.trans hin
    cases hs : c.statics with
    | inline texts =>
      rw [resolve]
      simp only [hin, hs]
      exact ⟨stage, .own hc hs, inPlace_of_found hstage hpart hc⟩
    | shared source =>
      by_cases hmet : id ∈ visiting
      · rw [resolve_of_met hin hs ((hled id c hin).1.mp hmet)]
        exact .cycle hc hs hmet
      · obtain ⟨free, hleft⟩ := hled.exists_left hin hmet
        rw [resolve_of_shared hin hs hleft]
        by_cases hneg : source < 0
        · rw [if_pos hneg]
          cases hy : Keyed.find? (-source) old with
          | none => exact .previousMissing hc hs hmet hneg hy
          | some y =>
            exact mayBe_fillFrom hpart hstage (fun _ _ => rfl) (hstage.of_find? hc) (hprevious.of_find? hy) hmet
              (fun r hr => .previous hin hs hneg hy hr) fun _ => .previous hc hs hmet hneg hy
        · rw [if_neg hneg]
          have hmay := mayBe_resolve (Keyed.erase id left) (id :: visiting) source
            (hled.next ⟨c, hin, hs, not_lt.mp hneg⟩)
          cases hsource : resolve old components (Keyed.erase id left) source with
          | error e =>
            rw [hsource] at hmay
            exact .nextError hc hs hmet hneg hmay
          | ok y =>
            rw [hsource] at hmay
            obtain ⟨next, hby, hnext⟩ := hmay
            have hc' := (hnext.kept id List.mem_cons_self).trans hc
            exact mayBe_fillFrom hnext.part hnext.ordered (fun k hk => hnext.kept k (List.mem_cons_of_mem _ hk))
              (hstage.of_find? hc) (hnext.ordered.of_find? hnext.found) hmet
              (fun r hr => .next hin hs (not_lt.mp hneg) (resolvesTo_of_resolve hsource) hr)
              fun _ => .next hc hs hmet hneg hby hnext.found hc'
termination_by left.length
decreasing_by exact Keyed.length_erase_lt hleft

end

/-! ## One after the other -/

/-- Components that are resolved in place one after the other come to what they come to when each of them is resolved by
itself. -/
theorem decides_resolveEach_of_order (hold : old.Resolved) (hprevious : Components.Ordered old)
    (hcomponents : Components.Ordered components) (hstage : Components.Ordered stage)
    (hpart : PartlyResolved old components stage)
    (hpending : ∀ id c source, Keyed.find? id components = some c → c.statics = .shared source → id ∈ order) :
    Keyed.Decides (EachResolvesBy old stage order) (resolveEach old components order) := by
  induction order generalizing components stage with
  | nil =>
    obtain rfl : stage = components := Keyed.eq_of_find?_eq hstage.1 hcomponents.1 fun id =>
      hpart.find?_eq fun c source hc hs => absurd (hpending id c source hc hs) List.not_mem_nil
    rw [resolveEach]
    refine ⟨.done, ?_⟩
    rintro outcome ⟨⟩
    rfl
  | cons id rest ih =>
    have hled := components.ledTo_start id
    have hmay := mayBe_resolve hold hprevious hstage hpart components [] id hled
    rw [resolveEach]
    cases hresolve : resolve old components components id with
    | error e =>
      rw [hresolve] at hmay
      refine ⟨.stop hmay, ?_⟩
      intro outcome h
      cases h with
      | next hid _ =>
        obtain ⟨r, hr, -⟩ := agrees_of_resolvesBy hold hprevious hstage hpart hid hled
        cases hresolve.symm.trans hr
      | stop _ => rfl
    | ok r =>
      rw [hresolve] at hmay
      obtain ⟨next, hby, hnext⟩ := hmay
      have hr := resolve_eq_ok_iff.mp hresolve
      have hordered := hcomponents.insert id (ordered_resolve hprevious hcomponents hresolve)
      have hrest : ∀ j c source, Keyed.find? j (Keyed.insert id r components) = some c → c.statics = .shared source →
          j ∈ rest := by
        intro j c source hc hs
        obtain ⟨texts, htexts⟩ := hr.inline hold
        rw [Keyed.find?_insert] at hc
        split at hc
        · cases hc
          cases htexts.symm.trans hs
        · rename_i hj
          exact (List.mem_cons.mp (hpending j c source hc hs)).resolve_left hj
      refine ⟨.next hby (ih hordered hnext.ordered (hnext.part.of_insert hold hr hnext.found) hrest).1, ?_⟩
      intro outcome h
      cases h with
      | stop hid =>
        obtain ⟨e', he'⟩ := agrees_of_resolvesBy hold hprevious hstage hpart hid hled
        cases hresolve.symm.trans he'
      | next hid h =>
        obtain ⟨r', hr', hother⟩ := agrees_of_resolvesBy hold hprevious hstage hpart hid hled
        cases hresolve.symm.trans hr'
        exact (ih hordered hother.ordered (hother.part.of_insert hold hr hother.found) hrest).2 outcome h

/-- Where resolving components fails, it fails for the same components in every order. -/
theorem not_ok_of_resolveEach_error {first second : List Int} {resolved : Components} {e : MergeError} (hold : old.Resolved)
    (hsame : ∀ id, id ∈ first ↔ id ∈ second) (h : resolveEach old components first = .error e) :
    resolveEach old components second ≠ .ok resolved := by
  intro hok
  obtain ⟨-, hfind⟩ := resolveEach_eq_ok hold hok
  obtain ⟨other, hother⟩ := exists_resolveEach hold fun id hid => by
    obtain ⟨r, hr, -⟩ := (hfind id).1 ((hsame id).mp hid)
    exact ⟨r, hr⟩
  cases h.symm.trans hother

/-- The order in which components are resolved decides at most which error there is. -/
theorem resolveEach_perm (hold : old.Resolved) (hsorted : Keyed.Sorted components) (horder : order.Perm ids) :
    (resolveEach old components order).toOption = (resolveEach old components ids).toOption := by
  cases hfirst : resolveEach old components order with
  | error e =>
    cases hsecond : resolveEach old components ids with
    | error e' => rfl
    | ok resolved => exact absurd hsecond (not_ok_of_resolveEach_error hold (fun _ => horder.mem_iff) hfirst)
  | ok resolved =>
    cases hsecond : resolveEach old components ids with
    | error e => exact absurd hfirst (not_ok_of_resolveEach_error hold (fun _ => horder.mem_iff.symm) hsecond)
    | ok resolved' =>
      obtain ⟨hsorted₁, hfind₁⟩ := resolveEach_eq_ok hold hfirst
      obtain ⟨hsorted₂, hfind₂⟩ := resolveEach_eq_ok hold hsecond
      refine congrArg some (Keyed.eq_of_find?_eq (hsorted₁ hsorted) (hsorted₂ hsorted) fun id => ?_)
      by_cases hid : id ∈ ids
      · obtain ⟨r, hr, hfound⟩ := (hfind₁ id).1 (horder.mem_iff.mpr hid)
        obtain ⟨r', hr', hfound'⟩ := (hfind₂ id).1 hid
        rw [hfound, hfound', hr.unique hr']
      · rw [(hfind₁ id).2 fun hmem => hid (horder.mem_iff.mp hmem), (hfind₂ id).2 hid]

/-- Components that share statics may be resolved in place in whatever order. -/
theorem decides_resolveEach (hold : old.Resolved) (hprevious : Components.Ordered old)
    (hcomponents : Components.Ordered components)
    (hpending : ∀ id c source, Keyed.find? id components = some c → c.statics = .shared source → id ∈ ids) :
    Keyed.Decides (fun outcome => ∃ order, order.Perm ids ∧ EachResolvesBy old components order outcome)
      (resolveEach old components ids) := by
  have hone : ∀ {order : List Int}, order.Perm ids →
      Keyed.Decides (EachResolvesBy old components order) (resolveEach old components order) := by
    intro order horder
    refine decides_resolveEach_of_order hold hprevious hcomponents hcomponents (.refl old components) ?_
    intro id c source hc hs
    exact horder.mem_iff.mpr (hpending id c source hc hs)
  refine ⟨⟨ids, .refl ids, (hone (.refl ids)).1⟩, ?_⟩
  rintro outcome ⟨order, horder, h⟩
  rw [(hone horder).2 outcome h, resolveEach_perm hold hcomponents.1 horder]

end Components

/-! ## Updating descriptions -/

/-- What updating a description may come to. -/
inductive Root.MergesTo (r : Root) (d : RootDiff) : Except MergeError Root → Prop
  | fragmentError {e : MergeError} (hfragment : r.fragment.MergesTo d.fragment (.error e)) : MergesTo r d (.error e)
  | componentError {fragment : Fragment} {order : List (Int × ComponentDiff)} {e : MergeError}
      (hfragment : r.fragment.MergesTo d.fragment (.ok fragment)) (horder : order.Perm d.components)
      (hcomponents : Keyed.UpdatesTo ComponentDiff.AppliesTo r.components order (.error e)) : MergesTo r d (.error e)
  | resolved {fragment : Fragment} {order : List (Int × ComponentDiff)} {components : Components} {pending : List Int}
      {outcome : Except MergeError Components} (hfragment : r.fragment.MergesTo d.fragment (.ok fragment))
      (horder : order.Perm d.components)
      (hcomponents : Keyed.UpdatesTo ComponentDiff.AppliesTo r.components order (.ok components))
      (hpending : pending.Perm ((components.filter fun entry => entry.2.isShared).map Prod.fst))
      (h : Components.EachResolvesBy r.components components pending outcome) :
      MergesTo r d (outcome.map fun components => ⟨fragment, components⟩)

/-- What becomes of components is an outcome of their updates in some order. -/
theorem Components.decides_merge {components : Components} {updates : List (Int × ComponentDiff)}
    (hcomponents : Components.Ordered components) (hupdates : Keyed.SortedOf ComponentDiff.Ordered updates) :
    Keyed.Decides (fun outcome => ∃ order, order.Perm updates ∧
      Keyed.UpdatesTo ComponentDiff.AppliesTo components order outcome) (Components.merge components updates) := by
  rw [Components.merge_eq]
  refine Keyed.decides_updateAll hcomponents (Keyed.nodup_keys_of_sorted hupdates.1) ?_
  intro id update current hmem hcurrent
  refine ⟨ComponentDiff.decides_applied hcurrent (hupdates.2 _ hmem), ?_⟩
  intro c hc
  exact ComponentDiff.ordered_applied hcurrent (hupdates.2 _ hmem) hc

/-- After the fragment and the components have been merged all components are resolved. -/
theorem Root.merge_of_components {r : Root} {d : RootDiff} {fragment : Fragment} {components : Components}
    (hfragment : r.fragment.merge d.fragment = .ok fragment)
    (hcomponents : Components.merge r.components d.components = .ok components) :
    r.merge d = (Components.resolveAll r.components components).map fun components => ⟨fragment, components⟩ := by
  rw [Root.merge]
  simp only [hfragment, hcomponents]
  cases Components.resolveAll r.components components with
  | error e => rfl
  | ok resolved => rfl

/-- What a description is updated to stands for all that updating it may come to, in whatever order. -/
theorem Root.decides_merge {r : Root} {d : RootDiff} (hr : r.Ordered) (hold : r.components.Resolved) (hd : d.Ordered) :
    Keyed.Decides (r.MergesTo d) (r.merge d) := by
  have hfragment := Fragment.decides_merge hr.1 hd.1
  have hcomponents := Components.decides_merge hr.2 hd.2
  cases hf : r.fragment.merge d.fragment with
  | error e =>
    have hmerge : r.merge d = .error e := by rw [Root.merge, hf]
    rw [hf] at hfragment
    rw [hmerge]
    refine ⟨.fragmentError hfragment.1, ?_⟩
    intro outcome h
    cases h with
    | fragmentError _ => rfl
    | componentError hok _ _ => cases hfragment.eq_ok hok
    | resolved hok _ _ _ _ => cases hfragment.eq_ok hok
  | ok fragment =>
    rw [hf] at hfragment
    cases hc : Components.merge r.components d.components with
    | error e =>
      have hmerge : r.merge d = .error e := by
        rw [Root.merge]
        simp only [hf, hc]
      rw [hc] at hcomponents
      obtain ⟨order, horder, hmay⟩ := hcomponents.1
      rw [hmerge]
      refine ⟨.componentError hfragment.1 horder hmay, ?_⟩
      intro outcome h
      cases h with
      | fragmentError herror => exact absurd herror hfragment.not_error
      | componentError _ _ _ => rfl
      | resolved _ horder hok _ _ =>
        have := hcomponents.eq_ok ⟨_, horder, hok⟩
        cases this
    | ok components =>
      rw [hc] at hcomponents
      obtain ⟨order, horder, hmay⟩ := hcomponents.1
      obtain ⟨⟨pending, hpending, heach⟩, honly⟩ := Components.decides_resolveEach hold hr.2
        (Components.ordered_merge hr.2 hd.2 hc)
        fun _ _ _ hfound hs => Components.mem_pending (Keyed.mem_of_find? hfound) hs
      rw [Root.merge_of_components hf hc]
      refine ⟨.resolved hfragment.1 horder hmay hpending heach, ?_⟩
      intro outcome h
      cases h with
      | fragmentError herror => exact absurd herror hfragment.not_error
      | componentError _ horder herror => exact absurd ⟨_, horder, herror⟩ hcomponents.not_error
      | resolved hok horder hmerged hpending h =>
        cases hfragment.eq_ok hok
        have hsame := hcomponents.eq_ok ⟨_, horder, hmerged⟩
        cases hsame
        rw [Keyed.toOption_map, Keyed.toOption_map, honly _ ⟨_, hpending, h⟩, Components.resolveAll]

end LiveMarkup.Rendered
