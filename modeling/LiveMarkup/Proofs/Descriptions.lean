import Mathlib
import LiveMarkup.Rendered.Json
import LiveMarkup.Proofs.JsonText
import LiveMarkup.Proofs.KeyedUpdates
import LiveMarkup.Proofs.RenderErrors

/-!
# Descriptions that are reached

A description is read, and then it is updated any number of times (`Root.Reached`). Its components are resolved when it is
read and after each update, so the statics of each of them are its own (`Root.Reached.resolved`), and rendering never meets a
reference to statics (`Root.statics_resolved`).
-/

namespace LiveMarkup.Rendered

/-! ## Reading -/

section

variable {α : Type} {p : α → Prop} {read : Members → Except DecodeError α} {members : Members}

/-- What is read by ids after entries that are in order is put in order with them. -/
theorem sortedOf_readByIdAfter (hread : ∀ members a, read members = .ok a → p a) {found entries : List (Int × α)}
    (hfound : Keyed.SortedOf p found) (h : readByIdAfter read found members = .ok entries) : Keyed.SortedOf p entries := by
  induction members generalizing found with
  | nil =>
    cases h
    exact hfound
  | cons member rest ih =>
    simp only [readByIdAfter, bind, Except.bind] at h
    split at h
    · cases h
    · split at h
      · cases h
      · split at h
        · cases h
        · rename_i a ha
          exact ih (hfound.insert _ (hread _ a ha)) h

/-- What is read by ids is in the order of the ids. -/
theorem sortedOf_readById (hread : ∀ members a, read members = .ok a → p a) {entries : List (Int × α)} {v : Json}
    (h : readById read v = .ok entries) : Keyed.SortedOf p entries := by
  simp only [readById, bind, Except.bind] at h
  split at h
  · cases h
  · exact sortedOf_readByIdAfter hread .nil h

/-- What belongs to components is in the order of their ids, also where there is none. -/
theorem sortedOf_readMember (hread : ∀ members a, read members = .ok a → p a) {entries? : Option (List (Int × α))}
    {key : String} (h : readMember (readById read) key members = .ok entries?) : Keyed.SortedOf p (entries?.getD []) := by
  rw [readMember] at h
  split at h
  · cases h
    exact .nil
  · split at h
    · rename_i entries hentries
      cases h
      exact sortedOf_readById hread hentries
    · cases h

/-- A description is read from its components and its fragment. -/
theorem readRoot_eq_ok {r : Root} (h : readRoot members = .ok r) : ∃ components?,
    readMember (readById readComponent) "c" members = .ok components? ∧ readFragment members = .ok r.fragment ∧
    r.components = components?.getD [] := by
  simp only [readRoot, bind, Except.bind] at h
  split at h
  · cases h
  · rename_i components? hcomponents
    split at h
    · cases h
    · rename_i fragment hfragment
      split at h
      · cases h
        exact ⟨components?, hcomponents, hfragment, rfl⟩
      · cases h

end

/-- The members of an object that is written are its members in the order of their keys. -/
theorem membersOfText_compact {subject : Subject} {v : Json} (h : v.Plain Json.depthLimit) :
    membersOfText subject v.compact =
      match readMembers subject v.sorted with
      | .ok members => .ok members
      | .error e => .error (.decode e) := by
  have hparse := Json.parse?_compact h
  cases hread : readMembers subject v.sorted with
  | error e => simp only [membersOfText, hparse, hread]
  | ok members => simp only [membersOfText, hparse, hread]

/-! ## Updating -/

namespace Root

/-- A description that has been read, or that has come out of updates of such a description. -/
inductive Reached : Root → Prop
  | ofText {text : String} {r : Root} (h : Root.ofText text = .ok r) : Reached r
  | merge {r next : Root} {update : RootDiff} (h : Reached r) (hnext : r.merge update = .ok next) : Reached next

variable {r next : Root} {update : RootDiff}

/-- The fragment is merged, and the components are merged and then resolved over those of before. -/
theorem merge_eq_ok (h : r.merge update = .ok next) : ∃ components,
    r.fragment.merge update.fragment = .ok next.fragment ∧
    Components.merge r.components update.components = .ok components ∧
    Components.resolveAll r.components components = .ok next.components := by
  unfold merge at h
  split at h
  · cases h
  · rename_i fragment hfragment
    split at h
    · cases h
    · rename_i components hcomponents
      split at h
      · cases h
      · rename_i resolved hresolved
        cases h
        exact ⟨components, hfragment, hcomponents, hresolved⟩

/-- The components of a description that is read are resolved among themselves. -/
theorem ofText_eq_ok {text : String} (h : ofText text = .ok r) : ∃ members components?,
    readMember (readById readComponent) "c" members = .ok components? ∧ readFragment members = .ok r.fragment ∧
    Components.resolveAll [] (components?.getD []) = .ok r.components := by
  unfold ofText at h
  split at h
  · cases h
  · rename_i members _
    split at h
    · cases h
    · rename_i read hread
      obtain ⟨components?, hcomponents, hfragment, hread⟩ := readRoot_eq_ok hread
      split at h
      · cases h
      · rename_i components hresolved
        cases h
        exact ⟨members, components?, hcomponents, hfragment, hread ▸ hresolved⟩

/-- The components of a description that has been reached are in the order of their ids, and the statics of each are its
own. -/
theorem Reached.resolved (h : r.Reached) : Keyed.Sorted r.components ∧ r.components.Resolved := by
  induction h with
  | ofText h =>
    obtain ⟨members, components?, hcomponents, _, hresolved⟩ := ofText_eq_ok h
    have hsorted : Keyed.Sorted (components?.getD []) :=
      (sortedOf_readMember (p := fun _ => True) (fun _ _ _ => trivial) hcomponents).1
    exact Components.resolveAll_resolved (fun entry hentry => absurd hentry List.not_mem_nil) hsorted hresolved
  | merge _ hnext ih =>
    obtain ⟨components, _, hcomponents, hresolved⟩ := merge_eq_ok hnext
    exact Components.resolveAll_resolved ih.2 (Components.sorted_merge ih.1 hcomponents) hresolved

/-- In every description that has been reached each component has statics of its own, and rendering meets no reference to
statics. Resolving components always has an outcome. It succeeds only if no references form a cycle and each of them names a
component, which the smallest number of 32 bits never does; and if it fails, where the components of before are resolved, then
because references form a cycle, or one of them names no component, or a dynamic does not fit. -/
theorem statics_resolved :
    (∀ r : Root, r.Reached → r.components.Resolved ∧ ∀ id, r.render ≠ .error (.unresolvedStatics id)) ∧
    ∀ old components : Components,
      match Components.resolveAll old components with
      | .ok _ => (∀ id, ¬ components.OnCycle id) ∧
          ∀ id c source, Keyed.find? id components = some c → c.statics = .shared source →
            Components.Leads old components source ∧ ((∀ entry ∈ old, fitsId entry.1) → source ≠ -0x80000000)
      | .error e => old.Resolved → Components.Fault old components e := by
  refine ⟨?_, ?_⟩
  · intro r h
    obtain ⟨_, hresolved⟩ := h.resolved
    refine ⟨hresolved, ?_⟩
    intro id hrender
    rcases Fragment.arises_of_render r.fragment hrender with hlocal | ⟨k, hk⟩
    · exact hlocal
    · exact Components.render_ne_unresolved hresolved k id hk
  · intro old components
    split
    · rename_i resolved hresolved
      obtain ⟨hcycle, hleads⟩ := Components.resolveAll_settles hresolved
      refine ⟨hcycle, ?_⟩
      intro id c source hc hs
      have hsource := hleads id c source hc hs
      refine ⟨hsource, ?_⟩
      rintro hfits rfl
      obtain ⟨previous, hprevious⟩ := hsource
      have hfit : fitsId (- -0x80000000) := hfits _ (Keyed.mem_of_find? hprevious)
      exact absurd hfit (by decide)
    · rename_i e he
      exact fun hold => Components.fault_of_resolveAll hold he

/-! ### Three items -/

/-- The JSON of a description with two components, of which one has the statics of the other. -/
def twoItemsSource : Json :=
  .object [("0", .number (.integer 2)),
    ("c", .object [
      ("1", .object [("0", .string "a"), ("s", .array [.string "<i>", .string "</i>"])]),
      ("2", .object [("0", .string "b"), ("s", .number (.integer 1))])]),
    ("s", .array [.string "", .string ""])]

/-- The description, resolved. -/
def twoItems : Root :=
  ⟨.regular (some (.inline ["", ""])) [(0, .component 2)],
    [(1, ⟨.inline ["<i>", "</i>"], [(0, .text "a")]⟩), (2, ⟨.inline ["<i>", "</i>"], [(0, .text "b")]⟩)]⟩

/-- An update with a third component, which has the statics that the first one had before. -/
def thirdItem : RootDiff :=
  ⟨.regular none [(0, .component 3)], [(3, .replace ⟨.shared (-1), [(0, .text "c")]⟩)]⟩

/-- Two components that share their statics with each other. -/
def circularItems : Components :=
  [(1, ⟨.shared 2, []⟩), (2, ⟨.shared 1, []⟩)]

theorem ofText_twoItems : ofText twoItemsSource.compact = .ok twoItems := by
  have hplain : twoItemsSource.Plain Json.depthLimit :=
    ⟨126, rfl, ⟨2, rfl, by decide⟩,
      ⟨125, rfl, ⟨124, rfl, trivial, ⟨123, rfl, trivial, trivial, trivial⟩, trivial⟩,
        ⟨124, rfl, trivial, ⟨1, rfl, by decide⟩, trivial⟩, trivial⟩,
      ⟨125, rfl, trivial, trivial, trivial⟩, trivial⟩
  rw [ofText, membersOfText_compact hplain]
  cbv

/-- The component that the update brings in takes over the statics of before; components that share theirs in a circle are
refused. -/
theorem third_item_is_resolved : ∃ next, twoItems.Reached ∧ twoItems.merge thirdItem = .ok next ∧
    next.components.Resolved ∧ (∀ id, next.render ≠ .error (.unresolvedStatics id)) ∧
    Components.Leads twoItems.components (twoItems.components ++ [(3, ⟨.shared (-1), [(0, .text "c")]⟩)]) (-1) ∧
    Components.resolveAll twoItems.components circularItems = .error (.sharedCycle 1) ∧
    Components.Fault twoItems.components circularItems (.sharedCycle 1) := by
  obtain ⟨hreaching, hresolving⟩ := statics_resolved
  have hreached : twoItems.Reached := .ofText ofText_twoItems
  have hthree : Components.resolveAll twoItems.components
      (twoItems.components ++ [(3, ⟨.shared (-1), [(0, .text "c")]⟩)]) =
      .ok (twoItems.components ++ [(3, ⟨.inline ["<i>", "</i>"], [(0, .text "c")]⟩)]) := by cbv
  have hmerge : twoItems.merge thirdItem = .ok ⟨.regular (some (.inline ["", ""])) [(0, .component 3)],
      twoItems.components ++ [(3, ⟨.inline ["<i>", "</i>"], [(0, .text "c")]⟩)]⟩ := by cbv
  obtain ⟨hresolved, hrender⟩ := hreaching _ (.merge hreached hmerge)
  have hsucceeds := hresolving twoItems.components (twoItems.components ++ [(3, ⟨.shared (-1), [(0, .text "c")]⟩)])
  rw [hthree] at hsucceeds
  obtain ⟨hleads, _⟩ := hsucceeds.2 3 ⟨.shared (-1), [(0, .text "c")]⟩ (-1) rfl rfl
  have hcircular : Components.resolveAll twoItems.components circularItems = .error (.sharedCycle 1) := by cbv
  have hfault := hresolving twoItems.components circularItems
  rw [hcircular] at hfault
  exact ⟨_, hreached, hmerge, hresolved, hrender, hleads, hcircular, hfault (hreaching _ hreached).1⟩

end Root

end LiveMarkup.Rendered
