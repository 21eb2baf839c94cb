import Mathlib
import LiveMarkup.Proofs.Descriptions

/-!
# Updates of components only

An object in which no key but that of the components is used says nothing about the fragment. It is read as an update of a
regular fragment in which no dynamic is given (`readFragment_of_forall`), so a description with a regular fragment is updated
in its components alone (`Root.merge_componentsOnly`). One whose fragment is a comprehension refuses all such updates, even
the empty one (`Root.comprehension_refuses_empty_update`).
-/

namespace LiveMarkup.Rendered

/-! ## Reading -/

variable {members : Members}

/-- A member that is put in order has the key of one that was there. -/
theorem mem_sortedMembers {member : String × Json} (h : member ∈ Json.sortedMembers members) :
    ∃ source ∈ members, source.1 = member.1 := by
  induction members with
  | nil => cases h
  | cons source rest ih =>
    rw [Json.sortedMembers] at h
    rcases List.mem_cons.mp h with rfl | h
    · exact ⟨source, List.mem_cons_self, rfl⟩
    · obtain ⟨source, hsource, hkey⟩ := ih h
      exact ⟨source, List.mem_cons_of_mem _ hsource, hkey⟩

/-- Components alone are no rows. -/
theorem readRows?_of_forall (h : ∀ member ∈ members, member.1 = "c") : readRows? members = none := by
  induction members with
  | nil => rfl
  | cons member rest ih =>
    obtain ⟨key, v⟩ := member
    obtain rfl : key = "c" := h _ List.mem_cons_self
    rw [readRows?, if_neg (by decide), ih fun member hmember => h member (List.mem_cons_of_mem _ hmember)]

/-- Components alone are no dynamics. -/
theorem readChildren_of_forall (children : Children) (h : ∀ member ∈ members, member.1 = "c") :
    readChildren children members = .ok children := by
  induction members with
  | nil => rfl
  | cons member rest ih =>
    obtain ⟨key, v⟩ := member
    obtain rfl : key = "c" := h _ List.mem_cons_self
    have hgap : gapOfKey? "c" = none := by decide
    rw [readChildren, hgap]
    exact ih fun member hmember => h member (List.mem_cons_of_mem _ hmember)

/-- Components alone are nothing under another key. -/
theorem readMember_of_forall {α : Type} {read : Json → Except DecodeError α} {key : String} (hkey : key ≠ "c")
    (h : ∀ member ∈ members, member.1 = "c") : readMember read key members = .ok none := by
  have hmissing : Keyed.find? key members = none := by
    refine Keyed.find?_eq_none_iff.mpr ?_
    rintro member hmember rfl
    exact hkey (h member hmember)
  rw [readMember, hmissing]

/-- Members under the key of the components are no part of a fragment. -/
theorem readFragment_of_forall (h : ∀ member ∈ members, member.1 = "c") :
    readFragment members = .ok (.regular none []) := by
  rw [readFragment, readRows?_of_forall h, readParts, readMember_of_forall (by decide) h,
    readMember_of_forall (by decide) h]
  simp only [readChildren_of_forall [] h]
  rfl

/-- A text that holds nothing but components is read as an update of these. -/
theorem RootDiff.ofText_of_forall {text : String} (hparse : Json.parse? text = some (.object members))
    (hkeys : ∀ member ∈ members, member.1 = "c") : RootDiff.ofText text =
      match readMember (readById readComponentDiff) "c" (Keyed.insertAll [] (Json.sortedMembers members)) with
      | .ok components => .ok ⟨.regular none [], components.getD []⟩
      | .error e => .error (.decode e) := by
  have hsorted : ∀ member ∈ Keyed.insertAll [] (Json.sortedMembers members), member.1 = "c" := by
    intro member hmember
    obtain ⟨source, hsource, hkey⟩ := mem_sortedMembers ((Keyed.mem_insertAll hmember).resolve_right List.not_mem_nil)
    rw [← hkey]
    exact hkeys source hsource
  have hmembers : membersOfText .rootDiff text = .ok (Keyed.insertAll [] (Json.sortedMembers members)) := by
    rw [membersOfText, hparse]
    rfl
  rw [ofText, hmembers]
  simp only [readRootDiff, readFragment_of_forall hsorted]
  cases readMember (readById readComponentDiff) "c" (Keyed.insertAll [] (Json.sortedMembers members)) with
  | ok components => rfl
  | error e => rfl

/-! ## Updating -/

/-- The components after updates of some of them, resolved. -/
def Components.updated (components : Components) (updates : List (Int × ComponentDiff)) :
    Except MergeError Components :=
  match Components.merge components updates with
  | .error e => .error e
  | .ok merged => Components.resolveAll components merged

/-- Where no component has the statics of another, none has to be resolved. -/
theorem Components.updated_nil {components : Components} (h : components.Resolved) : components.updated [] = .ok components := by
  have hpending : components.filter (fun entry => entry.2.isShared) = [] := by
    refine List.filter_eq_nil_iff.mpr ?_
    intro entry hentry
    obtain ⟨texts, htexts⟩ := h entry hentry
    rw [Component.isShared, htexts]
    exact Bool.false_ne_true
  rw [Components.updated, Components.merge]
  simp only [Components.resolveAll, hpending, List.map_nil, Components.resolveEach]

namespace Root

/-- Components are all that is left to be updated once the fragment has been. -/
theorem merge_of_fragment {r : Root} {update : RootDiff} {fragment : Fragment}
    (h : r.fragment.merge update.fragment = .ok fragment) : r.merge update =
      match Components.updated r.components update.components with
      | .error e => .error e
      | .ok components => .ok ⟨fragment, components⟩ := by
  rw [merge, h, Components.updated]
  cases Components.merge r.components update.components with
  | error e => rfl
  | ok merged => rfl

/-- An update of a regular fragment in which no dynamic is given is an update of components, and a comprehension refuses it. -/
theorem merge_silent (r : Root) (updates : List (Int × ComponentDiff)) : r.merge ⟨.regular none [], updates⟩ =
    match r.fragment with
    | .comprehension _ _ _ _ => .error .typeMismatch
    | .regular _ _ =>
      match Components.updated r.components updates with
      | .error e => .error e
      | .ok components => .ok ⟨r.fragment, components⟩ := by
  cases hfragment : r.fragment with
  | comprehension statics rows templates stream =>
    rw [merge, hfragment]
    rfl
  | regular statics children =>
    refine merge_of_fragment ?_
    rw [hfragment]
    rfl

/-- An update that is read from an object without other keys than that of the components leaves a regular fragment as it is
and fails only if the components cannot be updated; the update of an empty object changes nothing. A comprehension refuses
such an update. -/
theorem merge_componentsOnly {r : Root} (h : r.Reached) {text : String} {members : Members}
    (hparse : Json.parse? text = some (.object members)) (hkeys : ∀ member ∈ members, member.1 = "c") :
    (∀ update, RootDiff.ofText text = .ok update → r.merge update =
      match r.fragment with
      | .comprehension _ _ _ _ => .error .typeMismatch
      | .regular _ _ =>
        match Components.updated r.components update.components with
        | .error e => .error e
        | .ok components => .ok ⟨r.fragment, components⟩) ∧
    (members = [] → ∃ update, RootDiff.ofText text = .ok update ∧
      r.merge update =
        match r.fragment with
        | .comprehension _ _ _ _ => .error .typeMismatch
        | .regular _ _ => .ok r) := by
  have hread := RootDiff.ofText_of_forall hparse hkeys
  refine ⟨?_, ?_⟩
  · intro update hupdate
    rw [hread] at hupdate
    split at hupdate
    · cases hupdate
      exact merge_silent r _
    · cases hupdate
  · rintro rfl
    refine ⟨⟨.regular none [], []⟩, hread, ?_⟩
    rw [merge_silent, Components.updated_nil h.resolved.2]

/-! ### Two items and a list -/

/-- The JSON of an update of one component. -/
def itemUpdateSource : Json :=
  .object [("c", .object [("1", .object [("0", .string "z")])])]

theorem parse?_emptyObject : Json.parse? "\x7b\x7d" = some (.object []) :=
  Json.parse?_compact (v := .object []) ⟨126, rfl, trivial⟩

/-- The component is updated and the fragment stays; an empty update changes nothing. -/
theorem item_update_keeps_fragment : twoItems.Reached ∧
    Json.parse? itemUpdateSource.compact = some itemUpdateSource ∧
    (∃ update, RootDiff.ofText itemUpdateSource.compact = .ok update ∧
      twoItems.merge update = .ok ⟨twoItems.fragment,
        [(1, ⟨.inline ["<i>", "</i>"], [(0, .text "z")]⟩), (2, ⟨.inline ["<i>", "</i>"], [(0, .text "b")]⟩)]⟩) ∧
    ∃ update, RootDiff.ofText "\x7b\x7d" = .ok update ∧ twoItems.merge update = .ok twoItems := by
  have hreached : twoItems.Reached := .ofText ofText_twoItems
  have hplain : itemUpdateSource.Plain Json.depthLimit :=
    ⟨126, rfl, ⟨125, rfl, ⟨124, rfl, trivial, trivial⟩, trivial⟩, trivial⟩
  have hparse := Json.parse?_compact hplain
  have hkeys : ∀ member ∈ [("c", Json.object [("1", .object [("0", .string "z")])])], member.1 = "c" := by simp
  have hread : RootDiff.ofText itemUpdateSource.compact =
      .ok ⟨.regular none [], [(1, .update [(0, .text "z")])]⟩ := by
    rw [RootDiff.ofText, membersOfText_compact hplain]
    cbv
  refine ⟨hreached, hparse, ⟨_, hread, ?_⟩, (merge_componentsOnly hreached parse?_emptyObject (by simp)).2 rfl⟩
  rw [(merge_componentsOnly hreached hparse hkeys).1 _ hread]
  cbv

/-- The JSON of a streamed list with one row. -/
def songListSource : Json :=
  .object [("d", .array [.array [.string " id=\"a\"", .string "One"]]),
    ("s", .array [.string "<li", .string ">", .string "</li>"]),
    ("stream", .array [.string "songs", .array [.array [.string "a", .number (.integer 0), .null]], .array []])]

/-- The list. -/
def songList : Root :=
  ⟨.comprehension (some (.inline ["<li", ">", "</li>"])) [[.text " id=\"a\"", .text "One"]] []
    (some ⟨"songs", [⟨"a", 0, none⟩], [], false⟩), []⟩

/-- Even the update of an empty object is not one of a comprehension. -/
theorem comprehension_refuses_empty_update : ofText songListSource.compact = .ok songList ∧
    ∃ update, RootDiff.ofText "\x7b\x7d" = .ok update ∧ songList.merge update = .error .typeMismatch := by
  have hplain : songListSource.Plain Json.depthLimit :=
    ⟨126, rfl, ⟨125, rfl, ⟨124, rfl, trivial, trivial, trivial⟩, trivial⟩,
      ⟨125, rfl, trivial, trivial, trivial, trivial⟩,
      ⟨125, rfl, trivial, ⟨124, rfl, ⟨123, rfl, trivial, ⟨0, rfl, by decide⟩, trivial, trivial⟩, trivial⟩,
        ⟨124, rfl, trivial⟩, trivial⟩, trivial⟩
  have hread : ofText songListSource.compact = .ok songList := by
    rw [ofText, membersOfText_compact hplain]
    cbv
  refine ⟨hread, _, RootDiff.ofText_of_forall parse?_emptyObject (by simp), ?_⟩
  cbv

end Root

end LiveMarkup.Rendered
