import Mathlib
import LiveMarkup.Proofs.Exchanges
import LiveMarkup.Proofs.Lasting

/-!
# Mirrors follow merges

The edits of a difference exchange trees, from the first spot to the last. None of them touches again what one before it has
made, so all that they leave behind lasts as long as the trees stay that they have put there (`Store.Exchange.lasting`). So a
mirror of a document follows every merge, with nothing but the document after the merge to look at
(`Document.merge_mirrored`).
-/

namespace LiveMarkup

namespace Store

variable {s s₁ s' : Store} {d : DocumentId} {o : Outline} {g : Spot} {last : Document}

/-- The trees of two lists are carried. -/
theorem Carries.of_append {p : NodeRef} {l m : List OutlineTree} (h : s.Carries p (.ofList (l ++ m))) :
    s.Carries p (.ofList l) ∧ s.Carries p (.ofList m) := by
  constructor
  · refine h.mono ?_ ?_
    · rw [Outline.entries_ofList_append]
      exact Multiset.le_add_right _ _
    · rw [Outline.attributeEntries_ofList_append]
      exact Multiset.le_add_right _ _
  · refine h.mono ?_ ?_
    · rw [Outline.entries_ofList_append]
      exact Multiset.le_add_left _ _
    · rw [Outline.attributeEntries_ofList_append]
      exact Multiset.le_add_left _ _

/-- The first tree is carried, and so are those after it. -/
theorem Carries.of_cons {p : NodeRef} {t : OutlineTree} {l : List OutlineTree} (h : s.Carries p (.ofList (t :: l))) :
    s.Carries p (.ofList [t]) ∧ s.Carries p (.ofList l) :=
  of_append (l := [t]) h

/-- What setting attributes leaves behind lasts as long as they stay so. -/
theorem Reset.lasting {n : NodeRef} {name : QName} {old new : List (AttributeRef × Attribute)} {below : Outline}
    {rest : List OutlineTree} {edits : List Edit} {changes : List Change} (h : Reset s g.address n old edits changes new s₁)
    (hs : s.Shows d o) (place : g.Holds d o (.element n name old below :: rest))
    (h₁ : s₁.Shows d (g.fill o (.element n name new below :: rest))) (hface : last.face n = .ok (.element name new)) :
    LastingAll last d s o changes s₁ (g.fill o (.element n name new below :: rest)) := by
  cases h with
  | same =>
    rw [place.fill_self]
    exact .nil hs
  | set kept applied =>
    exact .cons hs (turns_applyEdit applied) (.updated (.element n name new below) place rfl rfl hface) (.nil h₁)

/-- What an exchange leaves behind lasts as long as the new trees do. -/
theorem Exchange.lasting {old made : List OutlineTree} {edits : List Edit} {changes : List Change}
    (h : Exchange d g s o old edits changes made s') (hparent : last.Has g.parent)
    (hcarries : last.store.Carries g.parent (.ofList made)) : LastingAll last d s o changes s' (g.fill o made) := by
  induction h with
  | done shows place =>
    rw [place.fill_self]
    exact .nil shows
  | @add g s s₁ s' o t edits changes made shows place applied rest ih =>
    obtain ⟨hfirst, hmore⟩ := hcarries.of_cons
    have hadded := Outline.Lasting.added t place (Document.has_iff.mp hparent) hfirst
    rw [Outline.toList_ofList, List.append_nil] at hadded
    have hlast := ih hparent hmore
    rw [Spot.fill_next, place.fill_fill] at hlast
    exact .cons shows (turns_applyEdit applied) hadded hlast
  | remove shows place applied rest ih =>
    have hlast := ih hparent hcarries
    rw [place.fill_fill] at hlast
    exact .cons shows (turns_applyEdit applied) (.removed place (Document.has_iff.mp hparent)) hlast
  | keep place rest ih =>
    have hlast := ih hparent hcarries.of_cons.2
    rw [Spot.fill_next] at hlast
    exact hlast
  | @setText g s s₁ s' o n text new old edits changes made shows place applied rest ih =>
    obtain ⟨hfirst, hmore⟩ := hcarries.of_cons
    have hlast := ih hparent hmore
    rw [Spot.fill_next, place.fill_fill] at hlast
    exact .cons shows (turns_applyEdit applied) (.updated (.leaf n new) place rfl rfl (Document.face_of_carries hfirst)) hlast
  | @replace g s emptied s₁ s' o t t' old edits changes made shows place other node clears between fills applied rest ih =>
    obtain ⟨hfirst, hmore⟩ := hcarries.of_cons
    have hlast := ih hparent hmore
    rw [Spot.fill_next, place.fill_fill] at hlast
    exact .cons shows (turns_applyEdit applied) (.replaced t' place node (Document.has_iff.mp hparent) hfirst) hlast
  | @element g s s₁ s₂ s' o n name attributes attributes' below old first within edits change changes changes' inner made
      shows place reset inside rest ihInside ihRest =>
    obtain ⟨hfirst, hmore⟩ := hcarries.of_cons
    have hreset := reset.lasting shows place inside.shows (Document.face_of_carries hfirst)
    have hhas : last.Has n :=
      Document.has_iff.mpr (Option.isSome_of_eq_some (hfirst.node? (t := .element n name attributes' (.ofList inner))))
    have hwithin := ihInside hhas (hfirst.below (t := .element n name attributes' (.ofList inner)))
    have hfilled := place.fill (.element n name attributes' below :: old)
    rw [hfilled.fill_inside, place.fill_fill] at hwithin
    have hlast := ihRest hparent hmore
    rw [Spot.fill_next, place.fill_fill] at hlast
    exact hreset.append (hwithin.append hlast)

end Store

namespace Document

/-- A mirror of a document follows every merge: it goes through the changes in order, reads nothing but the document after
the merge, never finds a slot taken that it copies a node into, and is a mirror of that document in the end. The nodes that
the changes name are there in the end, but for one that was removed, whose handle is stale. -/
theorem merge_mirrored {d incoming : Document} (h : d.Reachable) (h' : incoming.Reachable) :
    ∃ d' changes, d.merge incoming = .ok (d', changes) ∧ d.mirror.followAll d' changes = .ok d'.mirror ∧
      ∀ c ∈ changes, c.Fits d' := by
  have hshows := h.shows
  obtain ⟨edits, changes, made, s', hexchange, hs', _, hmerge⟩ := exists_exchange h h'
  have hroot : Has { d with store := s' } (Store.rootOf d.id) :=
    has_iff.mpr (Option.isSome_of_eq_some hs'.root_eq)
  have hlasting := hexchange.lasting hroot (.of_shows hs')
  obtain ⟨m, hfollow, hm⟩ := hlasting.followAll (mirror_holds hshows)
  have hmirror : m = mirror { d with store := s' } := hm.unique (mirror_holds hs')
  exact ⟨{ d with store := s' }, changes, hmerge, hmirror ▸ hfollow, hlasting.fits rfl⟩

/-- An element with a text in it. -/
def withInnerText : Document :=
  (Document.empty ⟨1⟩).after (.applyEdits [.append [] (.element ⟨"", "a"⟩ [] (.leaf "b" .nil))])

/-- An element with nothing in it, and a text after it. -/
def withOuterText : Document :=
  (Document.empty ⟨2⟩).after
    (.applyEdits [.append [] (.element ⟨"", "a"⟩ [] .nil), .append [] (.leaf "c")])

/-- The inner text goes, and the outer text comes into its slot; the handle of the one is stale all the same. -/
theorem mirrored_text_in_slot_of_other : ∃ d' changes, withInnerText.merge withOuterText = .ok (d', changes) ∧
    changes = [.removed ⟨⟨1⟩, ⟨2, 0⟩⟩ ⟨⟨1⟩, ⟨1, 0⟩⟩, .added ⟨⟨1⟩, ⟨2, 1⟩⟩ (Store.rootOf ⟨1⟩)] ∧
    withInnerText.mirror.followAll d' changes = .ok d'.mirror ∧
    d'.node ⟨⟨1⟩, ⟨2, 0⟩⟩ = .error (.invalidHandle ⟨⟨1⟩, ⟨2, 0⟩⟩) := by
  have hinner : withInnerText.Reachable := .applyEdits (.empty ⟨1⟩) _
  have houter : withOuterText.Reachable := .applyEdits (.empty ⟨2⟩) _
  obtain ⟨d', changes, hmerge, hfollow, hfits⟩ := merge_mirrored hinner houter
  have hchanges : (withInnerText.merge withOuterText).map Prod.snd =
      .ok [.removed ⟨⟨1⟩, ⟨2, 0⟩⟩ ⟨⟨1⟩, ⟨1, 0⟩⟩, .added ⟨⟨1⟩, ⟨2, 1⟩⟩ (Store.rootOf ⟨1⟩)] := by
    cbv
  rw [hmerge] at hchanges
  obtain rfl : changes = _ := Except.ok.inj hchanges
  exact ⟨d', _, hmerge, rfl, hfollow, (hfits _ List.mem_cons_self).1⟩

end Document

end LiveMarkup
