import Mathlib.Logic.Relation
import LiveMarkup.Proofs.Consistency
import LiveMarkup.Proofs.Refinement
import LiveMarkup.Proofs.StoreHistory

/-!
# Sessions

A session makes documents, each with the next identity, and calls them in any order (`Session.Step`). With every document
goes what has happened in its slots and which changes it has delivered (`Life`). What a call that fails has done to a copy of
the document is no part of that.

In every session that comes about what has happened is what led to the stores, and only handles that were issued have been
told (`Session.Reachable.sound`); and what has happened stays so as the session goes on (`Session.grown_of_leads`).
-/

namespace LiveMarkup

/-! ## What has happened -/

/-- What has happened in the slots for the nodes of a document, and in those for its attributes. -/
structure Events where
  nodes : List SlotEvent
  attributes : List SlotEvent
deriving DecidableEq, Repr

namespace Events

/-- Nothing has happened. -/
def none : Events := ⟨[], []⟩

/-- First one thing has happened, and then another. -/
def append (first more : Events) : Events :=
  ⟨first.nodes ++ more.nodes, first.attributes ++ more.attributes⟩

instance : Append Events := ⟨append⟩

theorem append_none (e : Events) : e ++ none = e := by
  show Events.mk (e.nodes ++ []) (e.attributes ++ []) = e
  rw [List.append_nil, List.append_nil]

theorem append_assoc (e f g : Events) : e ++ f ++ g = e ++ (f ++ g) := by
  show Events.mk (e.nodes ++ f.nodes ++ g.nodes) (e.attributes ++ f.attributes ++ g.attributes) = _
  rw [List.append_assoc, List.append_assoc]
  rfl

end Events

/-- The handles that a change tells of. -/
def Change.handles (c : Change) : List NodeRef :=
  c.node :: c.parent?.toList

namespace Store

/-- The store of a document that has no root yet. -/
def blank (id : DocumentId) : Store := ⟨id, .empty, .empty⟩

/-- The events lead from one store to another. -/
structure Steps (s : Store) (events : Events) (s' : Store) : Prop where
  document : s'.document = s.document
  nodes : s.nodes.Steps events.nodes s'.nodes
  attributes : s.attributes.Steps events.attributes s'.attributes

/-- Edits are carried out one after the other, with these events and these changes. -/
inductive Carried : Store → Events → List Change → Store → Prop
  | nil (s : Store) : Carried s .none [] s
  | cons {s s' s'' : Store} {e : Edit} {c : Change} {first more : Events} {changes : List Change}
      (edit : s.applyEdit e = .ok (s', c)) (steps : Steps s first s') (rest : Carried s' more changes s'') :
      Carried s (first ++ more) (c :: changes) s''

/-- What has happened to a store that began without a root. -/
structure Traced (s : Store) (events : Events) : Prop where
  nodes : s.nodes.Traced events.nodes
  attributes : s.attributes.Traced events.attributes

variable {s s' : Store} {events more : Events}

/-- Whatever is taken out and added, it has been some events. -/
theorem Turns.steps (h : Turns s s') : ∃ events, Steps s events s' := by
  obtain ⟨nodes, hnodes⟩ := h.nodes.steps
  obtain ⟨attributes, hattributes⟩ := h.attributes.steps
  exact ⟨⟨nodes, attributes⟩, h.document, hnodes, hattributes⟩

theorem Traced.blank (id : DocumentId) : (blank id).Traced .none :=
  ⟨.empty, .empty⟩

/-- What happens after what has happened has happened with it. -/
theorem Traced.steps (h : s.Traced events) (hsteps : Steps s more s') : s'.Traced (events ++ more) :=
  ⟨h.nodes.steps hsteps.nodes, h.attributes.steps hsteps.attributes⟩

/-- A store that is made for a forest is filled from nothing. -/
theorem steps_graft (id : DocumentId) (f : Forest) :
    ∃ events, Steps (blank id) events ((Store.new id).graft (rootOf id) f) := by
  have hnew : Fills (blank id) (Store.new id) := ⟨rfl, .insert _ _, .refl _⟩
  exact (hnew.trans (fills_graft _ _ f)).turns.steps

/-- Whatever edits do, it has been some events. -/
theorem carried_of_applyAll {number : Nat} {edits : List Edit} {changes : List Change}
    (h : s.applyAll number edits = .ok (s', changes)) : ∃ events, Carried s events changes s' := by
  induction edits generalizing s number changes with
  | nil =>
    cases h
    exact ⟨.none, .nil _⟩
  | cons e rest ih =>
    rw [applyAll] at h
    split at h
    · cases h
    · rename_i s₁ c hedit
      split at h
      · cases h
      · rename_i hrest
        cases h
        obtain ⟨first, hfirst⟩ := (turns_applyEdit hedit).steps
        obtain ⟨more, hmore⟩ := ih hrest
        exact ⟨first ++ more, .cons hedit hfirst hmore⟩

/-! ## Handles that are told -/

namespace Shows

variable {d : DocumentId} {o o' : Outline} {n p : NodeRef}

/-- A node that a path leads to is there. -/
theorem isSome_of_nodeAt? (h : s.Shows d o) {path : Path} (hn : s.nodeAt? path = some n) : (s.node? n).isSome := by
  refine h.mem_nodes_iff.mp ?_
  rw [h.nodeAt?_eq] at hn
  rcases Outline.place?_of_find? hn with ⟨_, rfl⟩ | ⟨q, c, before, t, after, _, place, rfl⟩
  · exact List.mem_cons_self
  · refine List.mem_cons_of_mem _ (Outline.nodes_subset_of_place? place ?_)
    refine (Outline.tops_sublist_nodes _).subset ?_
    rw [Outline.tops_ofList, List.map_append, List.map_cons]
    exact List.mem_append_right _ List.mem_cons_self

/-- The parent of a node is there. -/
theorem isSome_of_parentOf? (h : s.Shows d o) (hp : s.parentOf? n = some p) : (s.node? p).isSome := by
  rw [parentOf?, Option.bind_eq_some_iff] at hp
  obtain ⟨node, hnode, hparent⟩ := hp
  have hne : n ≠ rootOf d := by
    rintro rfl
    have hroot : s.node? (rootOf d) = some ⟨.root, none, o.tops⟩ := h.node?_eq.mpr (Multiset.mem_cons_self _ _)
    rw [hroot] at hnode
    cases hnode
    cases hparent
  obtain ⟨p', above, hparent', habove, _⟩ := h.listed_once hnode hne
  rw [hparent] at hparent'
  cases hparent'
  exact Option.isSome_of_eq_some habove

/-- A child that a node lists is there. -/
theorem isSome_of_mem_childrenOf (h : s.Shows d o) (hn : n ∈ s.childrenOf p) : (s.node? n).isSome := by
  rw [childrenOf] at hn
  split at hn
  · rename_i node hnode
    rcases Multiset.mem_cons.mp (h.node?_eq.mp hnode) with he | hbelow
    · cases he
      obtain ⟨child, hchild, _⟩ := Outline.exists_mem_entries_of_mem_tops hn (rootOf d)
      exact Option.isSome_of_eq_some (h.node?_eq.mpr (Multiset.mem_cons_of_mem hchild))
    · obtain ⟨_, child, hchild, _⟩ := Outline.exists_mem_entries_of_mem_children hbelow hn
      exact Option.isSome_of_eq_some (h.node?_eq.mpr (Multiset.mem_cons_of_mem hchild))
  · cases hn

/-- What is told of an edit is alive before it or after it. -/
theorem isSome_of_reported (h : s.Shows d o) (h' : s'.Shows d o') {e : Edit} {c : Change} (hreported : s.Reported s' e c) :
    ∀ n ∈ c.handles, (s.node? n).isSome ∨ (s'.node? n).isSome := by
  cases hreported with
  | setAttributes attributes leads =>
    exact List.forall_mem_singleton.mpr (Or.inl (h.isSome_of_nodeAt? leads))
  | setText text leads => exact List.forall_mem_singleton.mpr (Or.inl (h.isSome_of_nodeAt? leads))
  | append tree leads fresh last =>
    rename_i path n child
    have hchild : child ∈ s'.childrenOf n := last ▸ List.mem_append_right _ List.mem_cons_self
    exact List.forall_mem_cons.mpr
      ⟨Or.inr (h'.isSome_of_mem_childrenOf hchild), List.forall_mem_singleton.mpr (Or.inl (h.isSome_of_nodeAt? leads))⟩
  | remove leads parent =>
    exact List.forall_mem_cons.mpr
      ⟨Or.inl (h.isSome_of_nodeAt? leads), List.forall_mem_singleton.mpr (Or.inl (h.isSome_of_parentOf? parent))⟩
  | replace tree leads parent =>
    exact List.forall_mem_cons.mpr
      ⟨Or.inl (h.isSome_of_nodeAt? leads), List.forall_mem_singleton.mpr (Or.inl (h.isSome_of_parentOf? parent))⟩

end Shows

/-- What is alive in a store that is traced was issued. -/
theorem Traced.issued_mem (h : s.Traced events) {n : NodeRef} (hn : (s.node? n).isSome) :
    n.document = s.document ∧ .issued n.key ∈ events.nodes := by
  rw [node?] at hn
  split at hn
  · rename_i hdocument
    exact ⟨hdocument, h.nodes.issued_mem hn⟩
  · cases hn

/-- What changes tell of was issued before or in the course of the edits, since it is alive before one of them or after it. -/
theorem Carried.issued_mem {d : DocumentId} {o : Outline} {changes : List Change} (h : Carried s more changes s')
    (hshows : s.Shows d o) (htraced : s.Traced events) :
    s'.Traced (events ++ more) ∧
      ∀ c ∈ changes, ∀ n ∈ c.handles, n.document = d ∧ .issued n.key ∈ (events ++ more).nodes := by
  induction h generalizing events o with
  | nil s =>
    refine ⟨?_, List.forall_mem_nil _⟩
    rw [Events.append_none]
    exact htraced
  | @cons s s₁ s₂ e c first more changes edit steps rest ih =>
    rcases hshows.carriesOut e with ⟨s₁', o₁, c', hedit, h₁, hedited⟩ | ⟨_, reason, hfault⟩ | ⟨_, hfault⟩
    · rw [edit] at hedit
      cases hedit
      have htraced₁ := htraced.steps steps
      obtain ⟨htraced₂, hrest⟩ := ih h₁ htraced₁
      rw [← Events.append_assoc]
      refine ⟨htraced₂, List.forall_mem_cons.mpr ⟨?_, hrest⟩⟩
      intro n hn
      rcases hshows.isSome_of_reported h₁ (hshows.reported_of_edited h₁ hedited) n hn with hbefore | hafter
      · obtain ⟨hdocument, hissued⟩ := htraced.issued_mem hbefore
        exact ⟨hdocument.trans hshows.document, List.mem_append_left _ (List.mem_append_left _ hissued)⟩
      · obtain ⟨hdocument, hissued⟩ := htraced₁.issued_mem hafter
        exact ⟨hdocument.trans h₁.document, List.mem_append_left _ hissued⟩
    · rw [edit] at hfault
      cases hfault
    · rw [edit] at hfault
      cases hfault

end Store

/-! ## Sessions -/

/-- What a document can be made of. -/
inductive Source
  | nothing
  | markup (text : String) (spacing : Spacing)
  | rendered (text : String)

/-- The document that is made, if there is one. -/
def Source.document (id : DocumentId) : Source → Option Document
  | nothing => some (.empty id)
  | markup text spacing => (Document.parse id text spacing).toOption
  | rendered text => (Document.ofRendered id text).toOption

/-- A document and all that has become of it. -/
structure Life where
  /-- How many identities were taken before its own. -/
  number : Nat
  document : Document
  events : Events
  /-- The changes that its calls have delivered. -/
  delivered : List Change

/-- What the next call works on. -/
def Life.stage (l : Life) : Stage :=
  ⟨l.document, l.delivered⟩

/-- The documents that were made, in order, and the number of identities that were taken for them and others. -/
structure Session where
  taken : Nat
  lives : List Life

namespace Session

/-- Nothing has been made. -/
def start : Session := ⟨0, []⟩

/-- The identity that is taken after a number of others; they are counted in 32 bits, beginning with one. -/
def identity (number : Nat) : DocumentId :=
  ⟨(1 + number) % 2 ^ 32⟩

/-- What may happen next. -/
inductive Step : Session → Session → Prop
  /-- An identity is taken for a document that nobody gets to see. -/
  | pass (s : Session) : Step s { s with taken := s.taken + 1 }
  /-- A document is made. -/
  | make {s : Session} {source : Source} {d : Document} {events : Events}
      (made : source.document (identity s.taken) = some d)
      (steps : Store.Steps (.blank (identity s.taken)) events d.store) :
      Step s ⟨s.taken + 1, s.lives ++ [⟨s.taken, d, events, []⟩]⟩
  /-- A call is made. Whether it fails or not, this is the document that it leaves, and what it delivers comes last. -/
  | call {s : Session} {before after : List Life} {l : Life} {c : Call} {result : Except RenderedError Unit} {d : Document}
      {events : Events} {changes : List Change} (lives : s.lives = before ++ l :: after)
      (run : c.update.perform l.stage = (result, ⟨d, l.delivered ++ changes⟩))
      (carried : Store.Carried l.document.store events changes d.store) :
      Step s ⟨s.taken, before ++ ⟨l.number, d, l.events ++ events, l.delivered ++ changes⟩ :: after⟩

/-- One session leads to another. -/
def Leads : Session → Session → Prop :=
  Relation.ReflTransGen Step

/-- A session that can come about. -/
def Reachable (s : Session) : Prop :=
  start.Leads s

end Session

/-! ## What holds of every life -/

namespace Life

/-- The document has issued the handle of a node. -/
def HasIssued (l : Life) (n : NodeRef) : Prop :=
  n.document = l.document.id ∧ .issued n.key ∈ l.events.nodes

/-- The node that a handle was issued for has been removed. -/
def HasFreed (l : Life) (n : NodeRef) : Prop :=
  n.document = l.document.id ∧ .freed n.key ∈ l.events.nodes

/-- The document has issued the handle of an attribute. -/
def HasIssuedAttribute (l : Life) (a : AttributeRef) : Prop :=
  a.document = l.document.id ∧ .issued a.key ∈ l.events.attributes

/-- The attribute that a handle was issued for has been removed. -/
def HasFreedAttribute (l : Life) (a : AttributeRef) : Prop :=
  a.document = l.document.id ∧ .freed a.key ∈ l.events.attributes

/-- The document has the identity that was its turn, what has happened led to its store, and it has told only of handles
that it had issued. -/
structure Sound (l : Life) : Prop where
  id : l.document.id = Session.identity l.number
  sound : l.document.Sound
  traced : l.document.store.Traced l.events
  told : ∀ c ∈ l.delivered, ∀ n ∈ c.handles, l.HasIssued n

/-- A life has gone on. -/
structure Grown (l l' : Life) : Prop where
  number : l'.number = l.number
  nodes : l.events.nodes <+: l'.events.nodes
  attributes : l.events.attributes <+: l'.events.attributes
  delivered : l.delivered <+: l'.delivered

theorem Grown.refl (l : Life) : Grown l l :=
  ⟨rfl, List.prefix_refl _, List.prefix_refl _, List.prefix_refl _⟩

theorem Grown.trans {l l' l'' : Life} (h : Grown l l') (h' : Grown l' l'') : Grown l l'' :=
  ⟨h'.number.trans h.number, h.nodes.trans h'.nodes, h.attributes.trans h'.attributes, h.delivered.trans h'.delivered⟩

end Life

/-- What is given where faults are left out was given without a fault. -/
theorem eq_ok_of_toOption {ε α : Type} {x : Except ε α} {a : α} (h : x.toOption = some a) : x = .ok a := by
  cases x with
  | error e => cases h
  | ok b =>
    cases h
    rfl

/-- What is given where faults have other names was given without a fault. -/
theorem eq_ok_of_mapError {ε ε' α : Type} {x : Except ε α} {rename : ε → ε'} {a : α} (h : x.mapError rename = .ok a) :
    x = .ok a := by
  cases x with
  | error e => cases h
  | ok b =>
    cases h
    rfl

/-- The document of a source is made for a forest. -/
theorem Source.document_eq_some {source : Source} {id : DocumentId} {d : Document} (h : source.document id = some d) :
    ∃ f, d.store = (Store.new id).graft (Store.rootOf id) f := by
  have hparsed : ∀ {text : String} {spacing : Spacing} {parsed : Document}, Document.parse id text spacing = .ok parsed →
      ∃ f, parsed.store = (Store.new id).graft (Store.rootOf id) f := by
    intro text spacing parsed hparse
    obtain ⟨f, _, rfl⟩ := Document.parse_eq_ok hparse
    exact ⟨f, rfl⟩
  cases source with
  | nothing =>
    cases h
    exact ⟨.nil, rfl⟩
  | markup text spacing => exact hparsed (eq_ok_of_toOption h)
  | rendered text =>
    obtain ⟨r, hdocument⟩ := Document.ofRendered_eq_ok (eq_ok_of_toOption h)
    obtain ⟨markup, parsed, hparse, hstore⟩ := Document.document_eq_ok hdocument
    rw [hstore]
    exact hparsed hparse

/-- A call that succeeds carries out edits and delivers their changes. -/
theorem Call.outcome_eq_ok {c : Call} {d d' : Document} {changes : List Change} (h : c.update.outcome d = .ok (d', changes)) :
    ∃ edits, d.store.applyAll 0 edits = .ok (d'.store, changes) := by
  have hcommit : ∀ {edits : List Edit} {d' : Document}, d.commit edits = .ok (d', changes) →
      ∃ edits, d.store.applyAll 0 edits = .ok (d'.store, changes) := by
    intro edits d' hcommit
    obtain ⟨store, happly, rfl⟩ := Document.commit_eq_ok hcommit
    exact ⟨edits, happly⟩
  rw [c.outcome_eq] at h
  cases c with
  | merge incoming =>
    obtain ⟨diff, _, hdone⟩ := Document.merge_eq_ok (eq_ok_of_mapError h)
    exact hcommit hdone
  | applyText text =>
    obtain ⟨edits, _, hdone⟩ := Document.applyText_eq_ok (eq_ok_of_mapError h)
    exact hcommit hdone
  | applyEdits edits => exact hcommit (Document.applyEdits_eq_ok (eq_ok_of_mapError h)).2
  | mergeRendered text =>
    obtain ⟨next, incoming, merged, _, hmerge, hstore⟩ := Document.mergeRendered_eq_ok h
    obtain ⟨diff, _, hdone⟩ := Document.merge_eq_ok hmerge
    obtain ⟨edits, happly⟩ := hcommit hdone
    exact ⟨edits, hstore ▸ happly⟩

/-- Whether a call fails or not, what it does are edits, and it delivers their changes; there are none if it fails. -/
theorem Call.perform_eq (c : Call) (stage : Stage) : ∃ result d edits changes,
    c.update.perform stage = (result, ⟨d, stage.handled ++ changes⟩) ∧
    stage.document.store.applyAll 0 edits = .ok (d.store, changes) := by
  have hperform := c.allOrNothing stage
  cases houtcome : c.update.outcome stage.document with
  | error e =>
    refine ⟨.error e, stage.document, [], [], ?_, rfl⟩
    rw [hperform, houtcome, List.append_nil]
    rfl
  | ok done =>
    obtain ⟨edits, happly⟩ := Call.outcome_eq_ok houtcome
    refine ⟨.ok (), done.1, edits, done.2, ?_, happly⟩
    rw [hperform, houtcome]
    rfl

namespace Session

/-- Every life is sound, and the documents have taken their identities one after the other. -/
structure Sound (s : Session) : Prop where
  lives : ∀ l ∈ s.lives, l.Sound
  numbers : (s.lives.map Life.number).Pairwise (· < ·)
  taken : ∀ l ∈ s.lives, l.number < s.taken

/-- A session has gone on: each life has, and others may have begun. -/
structure Grown (s s' : Session) : Prop where
  taken : s.taken ≤ s'.taken
  lives : ∀ (i : Nat) (l : Life), s.lives[i]? = some l → ∃ l', s'.lives[i]? = some l' ∧ l.Grown l'

variable {s s' s'' : Session}

theorem Grown.refl (s : Session) : Grown s s :=
  ⟨Nat.le_refl _, fun _ l h => ⟨l, h, .refl l⟩⟩

theorem Grown.trans (h : Grown s s') (h' : Grown s' s'') : Grown s s'' := by
  refine ⟨h.taken.trans h'.taken, ?_⟩
  intro i l hl
  obtain ⟨l', hl', hgrown⟩ := h.lives i l hl
  obtain ⟨l'', hl'', hgrown'⟩ := h'.lives i l' hl'
  exact ⟨l'', hl'', hgrown.trans hgrown'⟩

theorem Sound.start : start.Sound :=
  ⟨List.forall_mem_nil _, List.Pairwise.nil, List.forall_mem_nil _⟩

/-- A document that is made begins a sound life. -/
theorem sound_made {source : Source} {d : Document} {events : Events} {number : Nat}
    (made : source.document (identity number) = some d) (steps : Store.Steps (.blank (identity number)) events d.store) :
    Life.Sound ⟨number, d, events, []⟩ := by
  obtain ⟨f, hstore⟩ := source.document_eq_some made
  have hsound : d.Sound := (Document.Sound.ofForest (identity number) f).congr hstore
  exact ⟨steps.document, hsound, (Store.Traced.blank _).steps steps, List.forall_mem_nil _⟩

/-- A call continues a sound life. -/
theorem sound_called {l : Life} {c : Call} {result : Except RenderedError Unit} {d : Document} {events : Events}
    {changes : List Change} (h : l.Sound) (run : c.update.perform l.stage = (result, ⟨d, l.delivered ++ changes⟩))
    (carried : Store.Carried l.document.store events changes d.store) :
    Life.Sound ⟨l.number, d, l.events ++ events, l.delivered ++ changes⟩ := by
  obtain ⟨_, _, edits, _, hperform, happly⟩ := c.perform_eq l.stage
  rw [run, Prod.mk.injEq, Stage.mk.injEq] at hperform
  obtain ⟨rfl, rfl, happend⟩ := hperform
  cases List.append_cancel_left happend
  obtain ⟨o, ho⟩ := h.sound
  obtain ⟨o', ho', _⟩ := ho.applyAll_eq_ok happly
  have hid : d.id = l.document.id := ho'.document
  obtain ⟨htraced, htold⟩ := carried.issued_mem ho h.traced
  refine ⟨hid.trans h.id, ⟨o', hid ▸ ho'⟩, htraced, List.forall_mem_append.mpr ⟨?_, ?_⟩⟩
  · intro change hchange n hn
    obtain ⟨hdocument, hissued⟩ := h.told change hchange n hn
    exact ⟨hdocument.trans hid.symm, List.mem_append_left _ hissued⟩
  · intro change hchange n hn
    obtain ⟨hdocument, hissued⟩ := htold change hchange n hn
    exact ⟨hdocument.trans hid.symm, hissued⟩

/-- What may happen next keeps a session sound. -/
theorem Sound.step (h : s.Sound) (hstep : Step s s') : s'.Sound := by
  cases hstep with
  | pass =>
    exact ⟨h.lives, h.numbers, fun l hl => Nat.lt_succ_of_lt (h.taken l hl)⟩
  | @make source d events made steps =>
    refine ⟨?_, ?_, ?_⟩
    · rw [List.forall_mem_append, List.forall_mem_singleton]
      exact ⟨h.lives, sound_made made steps⟩
    · rw [List.map_append, List.pairwise_append]
      refine ⟨h.numbers, List.pairwise_singleton _ _, ?_⟩
      intro m hm k hk
      obtain ⟨l, hl, rfl⟩ := List.mem_map.mp hm
      rw [List.map_singleton, List.mem_singleton] at hk
      rw [hk]
      exact h.taken l hl
    · rw [List.forall_mem_append, List.forall_mem_singleton]
      exact ⟨fun l hl => Nat.lt_succ_of_lt (h.taken l hl), Nat.lt_succ_self _⟩
  | @call before after l c result d events changes lives run carried =>
    have hlives := h.lives
    have hnumbers := h.numbers
    have htaken := h.taken
    rw [lives, List.forall_mem_append, List.forall_mem_cons] at hlives htaken
    rw [lives, List.map_append, List.map_cons] at hnumbers
    refine ⟨?_, ?_, ?_⟩
    · rw [List.forall_mem_append, List.forall_mem_cons]
      exact ⟨hlives.1, sound_called hlives.2.1 run carried, hlives.2.2⟩
    · rw [List.map_append, List.map_cons]
      exact hnumbers
    · rw [List.forall_mem_append, List.forall_mem_cons]
      exact htaken

/-- What may happen next leaves behind what has happened. -/
theorem grown_of_step (hstep : Step s s') : s.Grown s' := by
  cases hstep with
  | pass => exact ⟨Nat.le_succ _, fun i l hl => ⟨l, hl, .refl l⟩⟩
  | make made steps =>
    refine ⟨Nat.le_succ _, ?_⟩
    intro i l hl
    refine ⟨l, ?_, .refl l⟩
    rw [List.getElem?_append_left (List.getElem?_eq_some_iff.mp hl).1]
    exact hl
  | @call before after l c result d events changes lives run carried =>
    refine ⟨Nat.le_refl _, ?_⟩
    intro i m hm
    rw [lives] at hm
    by_cases hi : i = before.length
    · subst hi
      rw [getElem?_append_cons] at hm ⊢
      cases hm
      exact ⟨_, rfl, rfl, List.prefix_append _ _, List.prefix_append _ _, List.prefix_append _ _⟩
    · refine ⟨m, ?_, .refl m⟩
      rw [← hm]
      rcases Nat.lt_or_gt_of_ne hi with hlt | hgt
      · rw [List.getElem?_append_left hlt, List.getElem?_append_left hlt]
      · obtain ⟨j, hj⟩ : ∃ j, i - before.length = j + 1 := ⟨i - before.length - 1, by omega⟩
        rw [List.getElem?_append_right hgt.le, List.getElem?_append_right hgt.le, hj, List.getElem?_cons_succ,
          List.getElem?_cons_succ]

/-- Whatever happens keeps a session sound. -/
theorem Sound.leads (h : s.Sound) (hleads : s.Leads s') : s'.Sound := by
  induction hleads with
  | refl => exact h
  | tail _ hstep ih => exact ih.step hstep

/-- Whatever happens leaves behind what has happened. -/
theorem grown_of_leads (hleads : s.Leads s') : s.Grown s' := by
  induction hleads with
  | refl => exact .refl s
  | tail _ hstep ih => exact ih.trans (grown_of_step hstep)

/-- Every session that comes about is sound. -/
theorem Reachable.sound (h : s.Reachable) : s.Sound :=
  Sound.start.leads h

end Session

end LiveMarkup
