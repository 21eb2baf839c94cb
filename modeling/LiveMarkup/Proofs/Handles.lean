import LiveMarkup.Proofs.Sessions

/-!
# Handles

A handle that a document has issued is accepted by this document only, and only as long as what it was issued for has not
been removed (`Session.handles_safe`). This holds in every session with fewer documents than there are identities, in which
no slot is vacated as often as there are generations.
-/

namespace LiveMarkup

namespace Life

variable {l : Life}

/-- A document accepts the handles of nodes that it has issued and whose nodes have not been removed, and no others. -/
theorem Sound.node_eq_ok_iff (h : l.Sound) {n : NodeRef} (hfrees : SlotEvent.frees l.events.nodes n.key.index < 2 ^ 32) :
    (∃ node, l.document.node n = .ok node) ↔ l.HasIssued n ∧ ¬l.HasFreed n := by
  have hresolves : (∃ node, l.document.node n = .ok node) ↔ (l.document.store.node? n).isSome := by
    rw [Document.node]
    cases l.document.store.node? n <;> simp
  rw [hresolves, Store.node?, HasIssued, HasFreed]
  by_cases hdocument : n.document = l.document.id
  · have hstore : n.document = l.document.store.document := hdocument
    rw [if_pos hstore, h.traced.nodes.isSome_get?_iff hfrees]
    simp only [hdocument, true_and]
  · have hstore : ¬n.document = l.document.store.document := hdocument
    rw [if_neg hstore]
    simp only [Option.isSome_none, Bool.false_eq_true, hdocument, false_and]

/-- A document accepts the handles of attributes that it has issued and whose attributes have not been removed, and no
others. -/
theorem Sound.attributeOf_eq_ok_iff (h : l.Sound) {a : AttributeRef}
    (hfrees : SlotEvent.frees l.events.attributes a.key.index < 2 ^ 32) :
    (∃ found, l.document.attributeOf a = .ok found) ↔ l.HasIssuedAttribute a ∧ ¬l.HasFreedAttribute a := by
  have hresolves : (∃ found, l.document.attributeOf a = .ok found) ↔ (l.document.store.attribute? a).isSome := by
    rw [Document.attributeOf]
    cases l.document.store.attribute? a <;> simp
  rw [hresolves, Store.attribute?, HasIssuedAttribute, HasFreedAttribute]
  by_cases hdocument : a.document = l.document.id
  · have hstore : a.document = l.document.store.document := hdocument
    rw [if_pos hstore, h.traced.attributes.isSome_get?_iff hfrees]
    simp only [hdocument, true_and]
  · have hstore : ¬a.document = l.document.store.document := hdocument
    rw [if_neg hstore]
    simp only [Option.isSome_none, Bool.false_eq_true, hdocument, false_and]

end Life

namespace Session

variable {s s' : Session} {i j : Nat} {l m : Life}

/-- There are fewer documents than identities, and no slot has been vacated as often as there are generations. -/
structure Bounded (s : Session) : Prop where
  taken : s.taken < 2 ^ 32
  nodes : ∀ l ∈ s.lives, ∀ i, SlotEvent.frees l.events.nodes i < 2 ^ 32
  attributes : ∀ l ∈ s.lives, ∀ i, SlotEvent.frees l.events.attributes i < 2 ^ 32

/-- A document accepts exactly the handles that it has issued and whose nodes or attributes have not been removed. It has
issued none twice, and it has told of no others. -/
structure SafeHandles (s : Session) : Prop where
  node_iff : ∀ (i j : Nat) (l m : Life), s.lives[i]? = some l → s.lives[j]? = some m → ∀ n, l.HasIssued n →
    ((∃ node, m.document.node n = .ok node) ↔ i = j ∧ ¬l.HasFreed n)
  attribute_iff : ∀ (i j : Nat) (l m : Life), s.lives[i]? = some l → s.lives[j]? = some m →
    ∀ a, l.HasIssuedAttribute a → ((∃ found, m.document.attributeOf a = .ok found) ↔ i = j ∧ ¬l.HasFreedAttribute a)
  nodes_once : ∀ l ∈ s.lives, l.events.nodes.Nodup
  attributes_once : ∀ l ∈ s.lives, l.events.attributes.Nodup
  told : ∀ l ∈ s.lives, ∀ c ∈ l.delivered, ∀ n ∈ c.handles, l.HasIssued n

/-- As long as there are identities left, no two documents share one. -/
theorem identity_injective {k n : Nat} (hk : k < 2 ^ 32) (hn : n < 2 ^ 32) (h : identity k = identity n) : k = n := by
  have hmod : (1 + k) % 2 ^ 32 = (1 + n) % 2 ^ 32 := congrArg DocumentId.number h
  omega

/-- Documents at different positions have different identities. -/
theorem Sound.eq_of_id (h : s.Sound) (htaken : s.taken < 2 ^ 32) (hl : s.lives[i]? = some l) (hm : s.lives[j]? = some m)
    (hid : l.document.id = m.document.id) : i = j := by
  have hl' := List.mem_of_getElem? hl
  have hm' := List.mem_of_getElem? hm
  rw [(h.lives l hl').id, (h.lives m hm').id] at hid
  have hnumber := identity_injective ((h.taken l hl').trans htaken) ((h.taken m hm').trans htaken) hid
  have hnodup : (s.lives.map Life.number).Nodup := h.numbers.imp Nat.ne_of_lt
  have hi : (s.lives.map Life.number)[i]? = some l.number := by rw [List.getElem?_map, hl]; rfl
  have hj : (s.lives.map Life.number)[j]? = some l.number := by rw [List.getElem?_map, hm, hnumber]; rfl
  obtain ⟨hlt, _⟩ := List.getElem?_eq_some_iff.mp hi
  exact (List.getElem?_inj hlt hnodup).mp (hi.trans hj.symm)

/-- Where what is issued names the document, no document has issued what another one has. -/
theorem Sound.issued_and_not_freed_iff (h : s.Sound) (htaken : s.taken < 2 ^ 32) (hl : s.lives[i]? = some l)
    (hm : s.lives[j]? = some m) (issued freed : Life → Prop) (hissued : issued l)
    (hid : issued m → l.document.id = m.document.id) : issued m ∧ ¬freed m ↔ i = j ∧ ¬freed l := by
  constructor
  · rintro ⟨hissued', hfreed⟩
    obtain rfl := h.eq_of_id htaken hl hm (hid hissued')
    rw [hl] at hm
    cases hm
    exact ⟨rfl, hfreed⟩
  · rintro ⟨rfl, hfreed⟩
    rw [hl] at hm
    cases hm
    exact ⟨hissued, hfreed⟩

theorem Sound.safeHandles (h : s.Sound) (hbounded : s.Bounded) : s.SafeHandles := by
  refine ⟨?_, ?_, ?_, ?_, fun l hl => (h.lives l hl).told⟩
  · intro i j l m hl hm n hissued
    have hm' := List.mem_of_getElem? hm
    rw [(h.lives m hm').node_eq_ok_iff (hbounded.nodes m hm' _)]
    exact h.issued_and_not_freed_iff hbounded.taken hl hm (Life.HasIssued · n) (Life.HasFreed · n) hissued
      fun hissued' => hissued.1.symm.trans hissued'.1
  · intro i j l m hl hm a hissued
    have hm' := List.mem_of_getElem? hm
    rw [(h.lives m hm').attributeOf_eq_ok_iff (hbounded.attributes m hm' _)]
    exact h.issued_and_not_freed_iff hbounded.taken hl hm (Life.HasIssuedAttribute · a)
      (Life.HasFreedAttribute · a) hissued fun hissued' => hissued.1.symm.trans hissued'.1
  · intro l hl
    exact (h.lives l hl).traced.nodes.nodup (hbounded.nodes l hl)
  · intro l hl
    exact (h.lives l hl).traced.attributes.nodup (hbounded.attributes l hl)

/-- Every document that can be made may be made next. -/
theorem exists_step_of_source (s : Session) {source : Source} {d : Document}
    (made : source.document (identity s.taken) = some d) :
    ∃ s', Step s s' ∧ ∃ l ∈ s'.lives, l.document = d := by
  obtain ⟨f, hstore⟩ := source.document_eq_some made
  obtain ⟨events, hsteps⟩ := Store.steps_graft (identity s.taken) f
  rw [← hstore] at hsteps
  exact ⟨_, .make made hsteps, _, List.mem_append_right _ List.mem_cons_self, rfl⟩

/-- Every call may come next. It leaves its document, and one that fails leaves the session. -/
theorem exists_step_of_call (hl : s.lives[i]? = some l) (c : Call) :
    ∃ s' l', Step s s' ∧ s'.lives[i]? = some l' ∧ (c.update.perform l.stage).2 = l'.stage ∧
      ∀ e, (c.update.perform l.stage).1 = .error e → s' = s := by
  obtain ⟨before, after, hlives, rfl⟩ := exists_split_of_getElem? hl
  have hperform := c.allOrNothing l.stage
  cases houtcome : c.update.outcome l.document with
  | error e =>
    have hfailed : c.update.perform l.stage = (.error e, ⟨l.document, l.delivered ++ []⟩) := by
      rw [hperform, Life.stage, houtcome, List.append_nil]
      rfl
    have hsame : Session.mk s.taken (before ++ ⟨l.number, l.document, l.events ++ .none, l.delivered ++ []⟩ :: after) = s := by
      rw [Events.append_none, List.append_nil, ← hlives]
    have hstep := Step.call hlives hfailed (.nil _)
    rw [hsame] at hstep
    refine ⟨s, l, hstep, hl, ?_, fun _ _ => rfl⟩
    rw [hfailed, List.append_nil]
    rfl
  | ok done =>
    obtain ⟨edits, happly⟩ := Call.outcome_eq_ok houtcome
    obtain ⟨events, hcarried⟩ := Store.carried_of_applyAll happly
    have hdone : c.update.perform l.stage = (.ok (), ⟨done.1, l.delivered ++ done.2⟩) := by
      rw [hperform, Life.stage, houtcome]
      rfl
    refine ⟨_, _, .call hlives hdone hcarried, getElem?_append_cons before after _, ?_, ?_⟩
    · rw [hdone]
      rfl
    · intro e hfailed
      rw [hdone] at hfailed
      cases hfailed

/-- In every session that comes about, a handle is accepted exactly by the document that issued it, until what it was issued
for is removed, and then never again; and a document never issues a handle twice, nor tells of one that it has not issued.
Such a session is left open to every document and every call. A call that fails leaves it as it is: whatever the call has
done by then, nothing has been issued, removed or told. -/
theorem handles_safe (h : s.Reachable) (hbounded : s.Bounded) :
    s.SafeHandles ∧
    (∀ s', s.Leads s' → s'.Bounded → ∀ (i j : Nat) (l m m' : Life), s.lives[i]? = some l → s.lives[j]? = some m →
      s'.lives[j]? = some m' →
      (∀ n, l.HasIssued n → (¬∃ node, m.document.node n = .ok node) → ¬∃ node, m'.document.node n = .ok node) ∧
      ∀ a, l.HasIssuedAttribute a → (¬∃ found, m.document.attributeOf a = .ok found) →
        ¬∃ found, m'.document.attributeOf a = .ok found) ∧
    (∀ (source : Source) (d : Document), source.document (identity s.taken) = some d →
      ∃ s', Step s s' ∧ ∃ l ∈ s'.lives, l.document = d) ∧
    ∀ (i : Nat) (l : Life) (c : Call), s.lives[i]? = some l →
      ∃ s' l', Step s s' ∧ s'.lives[i]? = some l' ∧ (c.update.perform l.stage).2 = l'.stage ∧
        ∀ e, (c.update.perform l.stage).1 = .error e → s' = s := by
  have hsafe := h.sound.safeHandles hbounded
  refine ⟨hsafe, ?_, fun source d made => s.exists_step_of_source made,
    fun i l c hl => exists_step_of_call hl c⟩
  intro s' hleads hbounded' i j l m m' hl hm hm'
  have hsound' := h.sound.leads hleads
  have hsafe' := hsound'.safeHandles hbounded'
  obtain ⟨l', hl', hgrown⟩ := (grown_of_leads hleads).lives i l hl
  have hid : l'.document.id = l.document.id := by
    rw [(hsound'.lives l' (List.mem_of_getElem? hl')).id, (h.sound.lives l (List.mem_of_getElem? hl)).id, hgrown.number]
  constructor
  · intro n hissued hstale
    rw [hsafe.node_iff i j l m hl hm n hissued] at hstale
    rw [hsafe'.node_iff i j l' m' hl' hm' n ⟨hissued.1.trans hid.symm, hgrown.nodes.subset hissued.2⟩]
    rintro ⟨hij, hfreed⟩
    exact hstale ⟨hij, fun h => hfreed ⟨h.1.trans hid.symm, hgrown.nodes.subset h.2⟩⟩
  · intro a hissued hstale
    rw [hsafe.attribute_iff i j l m hl hm a hissued] at hstale
    rw [hsafe'.attribute_iff i j l' m' hl' hm' a ⟨hissued.1.trans hid.symm, hgrown.attributes.subset hissued.2⟩]
    rintro ⟨hij, hfreed⟩
    exact hstale ⟨hij, fun h => hfreed ⟨h.1.trans hid.symm, hgrown.attributes.subset h.2⟩⟩

/-! A session in which a text comes and goes, and a paragraph takes its slot. -/

/-- The handle of the text. -/
def passingText : NodeRef := ⟨⟨1⟩, ⟨1, 0⟩⟩

/-- The handle of the paragraph. -/
def laterParagraph : NodeRef := ⟨⟨1⟩, ⟨1, 1⟩⟩

/-- The document is new. -/
def unchanged : Life :=
  ⟨0, .empty ⟨1⟩, ⟨[.issued ⟨0, 0⟩], []⟩, []⟩

/-- The edits that bring about what follows. -/
def passingEdits : List Edit :=
  [.append [] (.leaf "a"), .remove [0], .append [] (.element ⟨"", "p"⟩ [⟨⟨"", "class"⟩, "x"⟩] (.leaf "b" .nil))]

/-- The text is there. -/
def withText : Store :=
  ⟨⟨1⟩, ⟨#[⟨0, some ⟨.root, none, [passingText]⟩⟩, ⟨0, some ⟨.leaf "a", some (Store.rootOf ⟨1⟩), []⟩⟩], [], 2⟩, .empty⟩

/-- The text is gone, and its slot is in its next generation. -/
def withoutText : Store :=
  ⟨⟨1⟩, ⟨#[⟨0, some ⟨.root, none, []⟩⟩, ⟨1, none⟩], [1], 1⟩, .empty⟩

/-- The slot of the text is that of a paragraph with an attribute and a text in it. -/
def withParagraph : Store :=
  ⟨⟨1⟩,
    ⟨#[⟨0, some ⟨.root, none, [laterParagraph]⟩⟩,
      ⟨1, some ⟨.element ⟨"", "p"⟩ [⟨⟨1⟩, ⟨0, 0⟩⟩], some (Store.rootOf ⟨1⟩), [⟨⟨1⟩, ⟨2, 0⟩⟩]⟩⟩,
      ⟨0, some ⟨.leaf "b", some laterParagraph, []⟩⟩], [], 3⟩,
    ⟨#[⟨0, some ⟨⟨"", "class"⟩, "x"⟩⟩], [], 1⟩⟩

/-- The document after a call that has added the text, removed it, and added the paragraph. -/
def changed : Life :=
  ⟨0, ⟨withParagraph, none⟩,
    ⟨[.issued ⟨0, 0⟩, .issued ⟨1, 0⟩, .freed ⟨1, 0⟩, .issued ⟨1, 1⟩, .issued ⟨2, 0⟩], [.issued ⟨0, 0⟩]⟩,
    [.added passingText (Store.rootOf ⟨1⟩), .removed passingText (Store.rootOf ⟨1⟩),
      .added laterParagraph (Store.rootOf ⟨1⟩)]⟩

/-- The session comes about: a document is made, and then called once. -/
theorem reachable_changed : Reachable ⟨1, [changed]⟩ := by
  have hmade : Step start ⟨1, [unchanged]⟩ := by
    have hdocument : Source.nothing.document (identity start.taken) = some (.empty ⟨1⟩) := rfl
    exact .make hdocument ⟨rfl, (Slots.Steps.refl _).insert _, .refl _⟩
  have hadd : (Store.new ⟨1⟩).applyEdit (.append [] (.leaf "a")) =
      .ok (withText, .added passingText (Store.rootOf ⟨1⟩)) := by
    cbv
  have hremove : withText.applyEdit (.remove [0]) = .ok (withoutText, .removed passingText (Store.rootOf ⟨1⟩)) := by
    cbv
  have hfill : withoutText.applyEdit (.append [] (.element ⟨"", "p"⟩ [⟨⟨"", "class"⟩, "x"⟩] (.leaf "b" .nil))) =
      .ok (withParagraph, .added laterParagraph (Store.rootOf ⟨1⟩)) := by
    cbv
  have hadded : Store.Steps (Store.new ⟨1⟩) ⟨[.issued ⟨1, 0⟩], []⟩ withText :=
    ⟨rfl, ((Slots.Steps.refl _).insert (⟨.leaf "a", some (Store.rootOf ⟨1⟩), []⟩ : Node)).modify ⟨0, 0⟩
      (fun node : Node => { node with children := [passingText] }), .refl _⟩
  have hremoved : Store.Steps withText ⟨[.freed ⟨1, 0⟩], []⟩ withoutText :=
    ⟨rfl, ((Slots.Steps.refl withText.nodes).modify ⟨0, 0⟩
      (fun node : Node => { node with children := [] })).remove rfl, .refl _⟩
  have hfilled : Store.Steps withoutText ⟨[.issued ⟨1, 1⟩, .issued ⟨2, 0⟩], [.issued ⟨0, 0⟩]⟩ withParagraph :=
    ⟨rfl, (((Slots.Steps.refl withoutText.nodes).insert
        (⟨.element ⟨"", "p"⟩ [⟨⟨1⟩, ⟨0, 0⟩⟩], some (Store.rootOf ⟨1⟩), [⟨⟨1⟩, ⟨2, 0⟩⟩]⟩ : Node)).insert
        (⟨.leaf "b", some laterParagraph, []⟩ : Node)).modify ⟨0, 0⟩
      (fun node : Node => { node with children := [laterParagraph] }), (Slots.Steps.refl _).insert _⟩
  have hrun : (Call.applyEdits passingEdits).update.perform unchanged.stage = (.ok (), changed.stage) := by
    cbv
  have hlives : (Session.mk 1 [unchanged]).lives = [] ++ unchanged :: [] := rfl
  have hcarried : Store.Carried (Store.new ⟨1⟩)
      ⟨[.issued ⟨1, 0⟩, .freed ⟨1, 0⟩, .issued ⟨1, 1⟩, .issued ⟨2, 0⟩], [.issued ⟨0, 0⟩]⟩ changed.delivered withParagraph :=
    .cons hadd hadded (.cons hremove hremoved (.cons hfill hfilled (.nil _)))
  have hcalled : Step ⟨1, [unchanged]⟩ ⟨1, [changed]⟩ := .call hlives hrun hcarried
  exact (Relation.ReflTransGen.single hmade).tail hcalled

/-- One slot has been vacated, and only once. -/
theorem bounded_changed : Bounded ⟨1, [changed]⟩ := by
  have hnodes : ∀ i, SlotEvent.frees changed.events.nodes i ≤ changed.events.nodes.length := fun i => List.countP_le_length
  have hattributes : ∀ i, SlotEvent.frees changed.events.attributes i ≤ changed.events.attributes.length :=
    fun i => List.countP_le_length
  refine ⟨by decide, ?_, ?_⟩
  · exact List.forall_mem_singleton.mpr fun i => (hnodes i).trans_lt (by decide)
  · exact List.forall_mem_singleton.mpr fun i => (hattributes i).trans_lt (by decide)

/-- The text that has come and gone is no longer accepted, neither now nor later, although its slot is used again. -/
theorem passing_text_stays_stale : Reachable ⟨1, [changed]⟩ ∧ Bounded ⟨1, [changed]⟩ ∧ changed.HasIssued passingText ∧
    (∃ node, changed.document.node laterParagraph = .ok node) ∧
    ∀ s', (Session.mk 1 [changed]).Leads s' → s'.Bounded → ∀ l', s'.lives[0]? = some l' →
      ¬∃ node, l'.document.node passingText = .ok node := by
  have hissued : changed.HasIssued passingText := ⟨rfl, by decide⟩
  have hfreed : changed.HasFreed passingText := ⟨rfl, by decide⟩
  have hissued' : changed.HasIssued laterParagraph := ⟨rfl, by decide⟩
  have hfreed' : ¬changed.HasFreed laterParagraph := fun h => absurd h.2 (by decide)
  obtain ⟨hsafe, hstale, _, _⟩ := handles_safe reachable_changed bounded_changed
  refine ⟨reachable_changed, bounded_changed, hissued, ?_, ?_⟩
  · exact (hsafe.node_iff 0 0 changed changed rfl rfl laterParagraph hissued').mpr ⟨rfl, hfreed'⟩
  intro s' hleads hbounded' l' hl'
  refine (hstale s' hleads hbounded' 0 0 changed changed l' rfl rfl hl').1 passingText hissued ?_
  rw [hsafe.node_iff 0 0 changed changed rfl rfl passingText hissued]
  exact fun h => h.2 hfreed

end Session

end LiveMarkup
