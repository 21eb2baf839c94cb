import Mathlib.Logic.Relation
import Mathlib.Data.Int.Order.Basic
import LiveMarkup.Rendered.Merge
import LiveMarkup.Proofs.KeyedLists

/-!
# Shared statics

Resolving follows the references to statics from component to component. It comes to an end at statics that a component has
of its own or at a component of before the update (`Components.Settles`), which no component on a cycle does. So components
are resolved only if no references form a cycle and each of them names a component (`Components.resolveAll_settles`), and
then the statics of each are its own (`Components.resolveAll_resolved`). If resolving fails, there is a fault in the
components that says why (`Components.fault_of_resolveAll`).
-/

namespace LiveMarkup.Rendered

namespace Components

/-- A component takes its statics from another one of the same components. -/
def Shares (components : Components) (id source : Int) : Prop :=
  ∃ c, Keyed.find? id components = some c ∧ c.statics = .shared source ∧ 0 ≤ source

/-- A component takes its statics from itself, be it by way of others. -/
def OnCycle (components : Components) (id : Int) : Prop :=
  Relation.TransGen components.Shares id id

/-- A reference to statics names a component that exists: one of before the update if it is negative, and one of the
components themselves otherwise. -/
def Leads (old components : Components) (source : Int) : Prop :=
  if source < 0 then ∃ c, Keyed.find? (-source) old = some c else ∃ c, Keyed.find? source components = some c

/-- The statics of each component are its own. -/
def Resolved (components : Components) : Prop :=
  ∀ entry ∈ components, ∃ texts, entry.2.statics = .inline texts

/-- References to statics, followed from a component on, come to an end. -/
inductive Settles (old components : Components) : Int → Prop
  | own {id : Int} {c : Component} {texts : List String} (hc : Keyed.find? id components = some c)
      (hs : c.statics = .inline texts) : Settles old components id
  | previous {id source : Int} {c : Component} (hc : Keyed.find? id components = some c)
      (hs : c.statics = .shared source) (hneg : source < 0) (hleads : Leads old components source) :
      Settles old components id
  | next {id source : Int} (hshares : components.Shares id source) (h : Settles old components source) :
      Settles old components id

/-- Why components cannot be resolved. -/
inductive Fault (old components : Components) : MergeError → Prop
  /-- The references from a component on form a cycle. -/
  | cycle {id : Int} (h : components.OnCycle id) : Fault old components (.sharedCycle id)
  /-- A reference names no component. -/
  | missing {id source : Int} {c : Component} (hc : Keyed.find? id components = some c)
      (hs : c.statics = .shared source) (hleads : ¬ Leads old components source) :
      Fault old components (.missingComponent source)
  /-- A dynamic of a component does not fit what it is filled from. -/
  | mismatch : Fault old components .typeMismatch

variable {old components left resolved : Components} {id source k : Int} {c r : Component}

/-! ## References -/

/-- A component takes its statics from one other at most. -/
theorem Shares.unique {source' : Int} (h : components.Shares id source) (h' : components.Shares id source') :
    source = source' := by
  obtain ⟨c, hc, hs, _⟩ := h
  obtain ⟨c', hc', hs', _⟩ := h'
  cases hc.symm.trans hc'
  exact ComponentStatics.shared.inj (hs.symm.trans hs')

/-- A component whose references come to an end is there. -/
theorem Settles.find? (h : Settles old components id) : ∃ c, Keyed.find? id components = some c := by
  cases h with
  | own hc _ => exact ⟨_, hc⟩
  | previous hc _ _ _ => exact ⟨_, hc⟩
  | next hshares _ =>
    obtain ⟨c, hc, _⟩ := hshares
    exact ⟨c, hc⟩

/-- On a cycle references never come to an end, since the cycle goes through the next component as well. -/
theorem Settles.not_onCycle (h : Settles old components id) : ¬ components.OnCycle id := by
  induction h with
  | own hc hs =>
    intro hcycle
    obtain ⟨_, ⟨c, hc', hs', _⟩, _⟩ := Relation.TransGen.head'_iff.mp hcycle
    cases hc.symm.trans hc'
    cases hs.symm.trans hs'
  | previous hc hs hneg _ =>
    intro hcycle
    obtain ⟨_, ⟨c, hc', hs', hpos⟩, _⟩ := Relation.TransGen.head'_iff.mp hcycle
    cases hc.symm.trans hc'
    cases hs.symm.trans hs'
    omega
  | next hshares _ ih =>
    intro hcycle
    obtain ⟨_, hfirst, hrest⟩ := Relation.TransGen.head'_iff.mp hcycle
    cases hshares.unique hfirst
    exact ih (Relation.TransGen.tail' hrest hfirst)

/-- A reference that is not negative leads somewhere if there is a component of that number. -/
theorem leads_iff (hpos : 0 ≤ source) : Leads old components source ↔ ∃ c, Keyed.find? source components = some c := by
  rw [Leads, if_neg (by omega)]

/-- Where references come to an end, the first of them names a component. -/
theorem Settles.leads (h : Settles old components id) (hc : Keyed.find? id components = some c)
    (hs : c.statics = .shared source) : Leads old components source := by
  cases h with
  | own hc' hs' =>
    cases hc.symm.trans hc'
    cases hs.symm.trans hs'
  | previous hc' hs' _ hleads =>
    cases hc.symm.trans hc'
    cases hs.symm.trans hs'
    exact hleads
  | next hshares h =>
    obtain ⟨c', hc', hs', hpos⟩ := hshares
    cases hc.symm.trans hc'
    cases hs.symm.trans hs'
    exact (leads_iff hpos).mpr h.find?

end Components

/-! ## Filling in -/

mutual

/-- Filling fails only where a regular fragment meets a comprehension. -/
theorem Fragment.error_of_fill {target : Fragment} {e : MergeError} :
    ∀ source : Fragment, target.fill source = .error e → e = .typeMismatch
  | .comprehension shared _ _ _, h => by
    cases target with
    | comprehension statics rows templates stream => cases h
    | regular statics children =>
      cases h
      rfl
  | .regular shared sources, h => by
    cases target with
    | comprehension statics rows templates stream =>
      cases h
      rfl
    | regular statics children =>
      rw [Fragment.fill] at h
      split at h
      · cases h
      · rename_i hfill
        cases h
        exact error_of_fillChildren sources hfill

/-- Filling in children fails for a mismatch only. -/
theorem error_of_fillChildren {children : Children} {e : MergeError} :
    ∀ sources : List (Nat × Child), fillChildren children sources = .error e → e = .typeMismatch
  | [], h => by cases h
  | (i, .fragment source) :: rest, h => by
    rw [fillChildren] at h
    split at h
    · split at h
      · exact error_of_fillChildren rest h
      · rename_i hfill
        cases h
        exact Fragment.error_of_fill source hfill
    · exact error_of_fillChildren rest h
    · exact error_of_fillChildren rest h
  | (i, .component id) :: rest, h => by
    rw [fillChildren] at h
    split at h <;> exact error_of_fillChildren rest h
  | (i, .text s) :: rest, h => by
    rw [fillChildren] at h
    split at h <;> exact error_of_fillChildren rest h

end

/-- Filling in a component fails for a mismatch only. -/
theorem Component.error_of_fillFrom {c source : Component} {e : MergeError} (h : c.fillFrom source = .error e) :
    e = .typeMismatch := by
  unfold Component.fillFrom at h
  split at h
  · cases h
  · rename_i hfill
    cases h
    exact error_of_fillChildren _ hfill

/-- A component that is filled has the statics that it is filled with. -/
theorem Component.statics_of_fillFrom {c source r : Component} (h : c.fillFrom source = .ok r) :
    r.statics = source.statics := by
  unfold Component.fillFrom at h
  split at h
  · cases h
    rfl
  · cases h

namespace Components

variable {old components left resolved : Components} {id source k : Int} {c r : Component} {e : MergeError}

/-! ## One component -/

/-- A component that is resolved has a place where its references come to an end. -/
theorem settles_of_resolve (h : resolve old components left id = .ok r) : Settles old components id := by
  fun_induction resolve old components left id generalizing r with
  | case1 left id hc => cases h
  | case2 left id c hc texts hs => exact .own hc hs
  | case3 => cases h
  | case4 left id c hc source hs _ hmet hneg shared hshared =>
    refine .previous hc hs hneg ?_
    rw [Leads, if_pos hneg]
    exact ⟨shared, hshared⟩
  | case5 => cases h
  | case6 left id c hc source hs _ hmet hneg shared hshared ih =>
    exact .next ⟨c, hc, hs, not_lt.mp hneg⟩ (ih hshared)
  | case7 => cases h

/-- A component that has been resolved has statics of its own. -/
theorem inline_of_resolve (hold : old.Resolved) (h : resolve old components left id = .ok r) :
    ∃ texts, r.statics = .inline texts := by
  fun_induction resolve old components left id generalizing r with
  | case1 left id hc => cases h
  | case2 left id c hc texts hs =>
    cases h
    exact ⟨texts, hs⟩
  | case3 => cases h
  | case4 left id c hc source hs _ hmet hneg shared hshared =>
    obtain ⟨texts, htexts⟩ := hold _ (Keyed.mem_of_find? hshared)
    exact ⟨texts, (Component.statics_of_fillFrom h).trans htexts⟩
  | case5 => cases h
  | case6 left id c hc source hs _ hmet hneg shared hshared ih =>
    obtain ⟨texts, htexts⟩ := ih hshared
    exact ⟨texts, (Component.statics_of_fillFrom h).trans htexts⟩
  | case7 => cases h

/-- If a component cannot be resolved, there is a fault in the references. The components that have been met on the way lead
to it. -/
theorem fault_of_resolve (hfound : ∃ c, Keyed.find? id components = some c)
    (hmet : ∀ j c, Keyed.find? j components = some c → Keyed.find? j left = none →
      Relation.TransGen components.Shares j id)
    (h : resolve old components left id = .error e) : Fault old components e := by
  fun_induction resolve old components left id with
  | case1 left id hc =>
    obtain ⟨c, hc'⟩ := hfound
    cases hc.symm.trans hc'
  | case2 left id c hc texts hs => cases h
  | case3 left id c hc source hs hleft =>
    cases h
    exact .cycle (hmet _ c hc hleft)
  | case4 left id c hc source hs _ _ hneg shared hshared =>
    cases Component.error_of_fillFrom h
    exact .mismatch
  | case5 left id c hc source hs _ _ hneg hold =>
    cases h
    refine .missing hc hs ?_
    rw [Leads, if_pos hneg, hold]
    simp
  | case6 left id c hc source hs _ _ hneg shared hshared ih =>
    cases Component.error_of_fillFrom h
    exact .mismatch
  | case7 left id c hc source hs _ _ hneg e hnext ih =>
    cases h
    cases hsource : Keyed.find? source components with
    | none =>
      rw [resolve, hsource] at hnext
      cases hnext
      refine .missing hc hs ?_
      rw [leads_iff (not_lt.mp hneg), hsource]
      simp
    | some c' =>
      refine ih ⟨c', hsource⟩ ?_ hnext
      have hshares : components.Shares id source := ⟨c, hc, hs, not_lt.mp hneg⟩
      intro j c' hc' hj
      rw [Keyed.find?_erase] at hj
      split at hj
      · rename_i hji
        rw [hji]
        exact .single hshares
      · exact (hmet j c' hc' hj).tail hshares

/-! ## All components -/

/-- The references of a component stay when another one changes. -/
theorem shares_insert (hne : id ≠ k) : Shares (Keyed.insert k r components) id source ↔ components.Shares id source := by
  rw [Shares, Shares, Keyed.find?_insert, if_neg hne]

/-- A cycle through none but other components stays when a component changes: from any component on, either the way stays, or it
comes by the one that changes. -/
theorem onCycle_insert (h : components.OnCycle id) (hk : ¬ components.OnCycle k) :
    OnCycle (Keyed.insert k r components) id := by
  have hway : ∀ {a b}, Relation.TransGen components.Shares a b →
      Relation.TransGen (Shares (Keyed.insert k r components)) a b ∨
        Relation.ReflTransGen components.Shares a k ∧ Relation.TransGen components.Shares k b := by
    intro a b hab
    induction hab with
    | @single b hstep =>
      by_cases hak : a = k
      · subst hak
        exact .inr ⟨.refl, .single hstep⟩
      · exact .inl (.single ((shares_insert hak).mpr hstep))
    | @tail b c hab hstep ih =>
      by_cases hbk : b = k
      · subst hbk
        exact .inr ⟨hab.to_reflTransGen, .single hstep⟩
      · rcases ih with hstays | ⟨hto, hfrom⟩
        · exact .inl (hstays.tail ((shares_insert hbk).mpr hstep))
        · exact .inr ⟨hto, hfrom.tail hstep⟩
  rcases hway h with hstays | ⟨hto, hfrom⟩
  · exact hstays
  · exact absurd (hfrom.trans_left hto) hk

/-- References lead somewhere as before when a component changes that was there. -/
theorem leads_insert (hc : Keyed.find? k components = some c) :
    Leads old (Keyed.insert k r components) source ↔ Leads old components source := by
  unfold Leads
  split
  · rfl
  · rw [Keyed.find?_insert]
    split
    · rename_i hsource
      rw [hsource, hc]
      simp
    · rfl

/-- Once components are resolved, none of them was on a cycle, and all their references led to a component. -/
theorem resolveEach_settles {ids : List Int} (h : resolveEach old components ids = .ok resolved) (hid : id ∈ ids) :
    ¬ components.OnCycle id ∧
      ∀ c source, Keyed.find? id components = some c → c.statics = .shared source → Leads old components source := by
  induction ids generalizing components with
  | nil => cases hid
  | cons k rest ih =>
    rw [resolveEach] at h
    split at h
    · rename_i r hr
      have hsettles := settles_of_resolve hr
      by_cases hk : id = k
      · subst hk
        exact ⟨hsettles.not_onCycle, fun c source hc hs => hsettles.leads hc hs⟩
      · obtain ⟨hcycle, hleads⟩ := ih h ((List.mem_cons.mp hid).resolve_left hk)
        obtain ⟨c', hc'⟩ := hsettles.find?
        refine ⟨?_, ?_⟩
        · intro hon
          exact hcycle (onCycle_insert hon hsettles.not_onCycle)
        · intro c source hc hs
          refine (leads_insert hc').mp (hleads c source ?_ hs)
          rw [Keyed.find?_insert, if_neg hk, hc]
    · cases h

/-- If components cannot be resolved one after the other, there is a fault in the references: what has been resolved has none
any more, so all that are left were there before. -/
theorem fault_of_resolveEach {ids : List Int} (hold : old.Resolved)
    (hfound : ∀ id ∈ ids, ∃ c, Keyed.find? id components = some c)
    (h : resolveEach old components ids = .error e) : Fault old components e := by
  induction ids generalizing components with
  | nil => cases h
  | cons id rest ih =>
    obtain ⟨c, hc⟩ := hfound id List.mem_cons_self
    rw [resolveEach] at h
    split at h
    · rename_i r hr
      obtain ⟨texts, htexts⟩ := inline_of_resolve hold hr
      have hbefore : ∀ {j : Int} {c : Component} {source : Int}, Keyed.find? j (Keyed.insert id r components) = some c →
          c.statics = .shared source → Keyed.find? j components = some c := by
        intro j c source hc hs
        rw [Keyed.find?_insert] at hc
        split at hc
        · cases hc
          cases htexts.symm.trans hs
        · exact hc
      have hfault := ih (fun j hj => by
        rw [Keyed.find?_insert]
        split
        · exact ⟨r, rfl⟩
        · exact hfound j (List.mem_cons_of_mem _ hj)) h
      cases hfault with
      | @cycle k hcycle =>
        have hshares : Shares (Keyed.insert id r components) ≤ components.Shares := by
          intro a b hab
          obtain ⟨c, hc, hs, hpos⟩ := hab
          exact ⟨c, hbefore hc hs, hs, hpos⟩
        exact .cycle (Relation.TransGen.mono hshares k k hcycle)
      | missing hc' hs hleads => exact .missing (hbefore hc' hs) hs (mt (leads_insert hc).mpr hleads)
      | mismatch => exact .mismatch
    · rename_i e' he
      cases h
      exact fault_of_resolve ⟨c, hc⟩ (fun j c hc hj => absurd (hc.symm.trans hj) (by simp)) he

/-- Resolving components one after the other gives them statics of their own, and leaves the others. -/
theorem resolveEach_entries {ids : List Int} (hold : old.Resolved) (hsorted : Keyed.Sorted components)
    (h : resolveEach old components ids = .ok resolved) : Keyed.Sorted resolved ∧
      ∀ entry ∈ resolved, (∃ texts, entry.2.statics = .inline texts) ∨ entry ∈ components ∧ entry.1 ∉ ids := by
  induction ids generalizing components with
  | nil =>
    cases h
    exact ⟨hsorted, fun entry hentry => .inr ⟨hentry, List.not_mem_nil⟩⟩
  | cons id rest ih =>
    rw [resolveEach] at h
    split at h
    · rename_i r hr
      have hsorted' := Keyed.sorted_insert hsorted id r
      obtain ⟨hresolved, hentries⟩ := ih hsorted' h
      refine ⟨hresolved, ?_⟩
      intro entry hentry
      rcases hentries entry hentry with hinline | ⟨hin, hout⟩
      · exact .inl hinline
      · by_cases hid : entry.1 = id
        · have hfind := (Keyed.find?_eq_some_iff hsorted').mpr hin
          rw [Keyed.find?_insert, if_pos hid] at hfind
          cases hfind
          exact .inl (inline_of_resolve hold hr)
        · rcases Keyed.mem_insert hin with rfl | hin
          · exact absurd rfl hid
          · exact .inr ⟨hin, by simp [hid, hout]⟩
    · cases h

/-- Exactly the components that share statics are resolved. -/
theorem mem_pending {entry : Int × Component} {source : Int} (hentry : entry ∈ components)
    (hs : entry.2.statics = .shared source) :
    entry.1 ∈ (components.filter fun entry => entry.2.isShared).map Prod.fst :=
  List.mem_map_of_mem (List.mem_filter.mpr ⟨hentry, by rw [Component.isShared, hs]⟩)

/-- If all components can be resolved, there is no cycle and every reference leads somewhere. -/
theorem resolveAll_settles (h : resolveAll old components = .ok resolved) : (∀ id, ¬ components.OnCycle id) ∧
    ∀ id c source, Keyed.find? id components = some c → c.statics = .shared source → Leads old components source := by
  have hpending : ∀ {id : Int} {c : Component} {source : Int}, Keyed.find? id components = some c →
      c.statics = .shared source → id ∈ (components.filter fun entry => entry.2.isShared).map Prod.fst :=
    fun hc hs => mem_pending (Keyed.mem_of_find? hc) hs
  refine ⟨?_, ?_⟩
  · intro id hcycle
    obtain ⟨_, ⟨c, hc, hs, _⟩, _⟩ := Relation.TransGen.head'_iff.mp hcycle
    exact (resolveEach_settles h (hpending hc hs)).1 hcycle
  · intro id c source hc hs
    exact (resolveEach_settles h (hpending hc hs)).2 c source hc hs

/-- If not all components can be resolved, there is a fault in the references. -/
theorem fault_of_resolveAll (hold : old.Resolved) (h : resolveAll old components = .error e) :
    Fault old components e := by
  refine fault_of_resolveEach hold ?_ h
  intro id hid
  obtain ⟨entry, hentry, rfl⟩ := List.mem_map.mp hid
  rw [← Option.ne_none_iff_exists']
  intro hnone
  exact Keyed.find?_eq_none_iff.mp hnone entry (List.mem_filter.mp hentry).1 rfl

/-- When all components have been resolved, each has statics of its own. -/
theorem resolveAll_resolved (hold : old.Resolved) (hsorted : Keyed.Sorted components)
    (h : resolveAll old components = .ok resolved) : Keyed.Sorted resolved ∧ resolved.Resolved := by
  obtain ⟨hresolved, hentries⟩ := resolveEach_entries hold hsorted h
  refine ⟨hresolved, ?_⟩
  intro entry hentry
  rcases hentries entry hentry with hinline | ⟨hin, hout⟩
  · exact hinline
  · cases hs : entry.2.statics with
    | inline texts => exact ⟨texts, rfl⟩
    | shared source =>
      exact absurd (mem_pending hin hs) hout

/-- Merging keeps components in order of their keys. -/
theorem sorted_merge {components merged : Components} {updates : List (Int × ComponentDiff)}
    (hsorted : Keyed.Sorted components) (h : components.merge updates = .ok merged) : Keyed.Sorted merged := by
  fun_induction Components.merge components updates with
  | case1 components =>
    cases h
    exact hsorted
  | case2 components id c rest ih => exact ih (Keyed.sorted_insert hsorted id c) h
  | case3 => cases h
  | case4 components id updates rest c hc children hmerge ih => exact ih (Keyed.sorted_insert hsorted id _) h
  | case5 => cases h

end Components

end LiveMarkup.Rendered
