import Mathlib
import LiveMarkup.Proofs.Canonical
import LiveMarkup.Proofs.Convergence
import LiveMarkup.Proofs.JsonText
import LiveMarkup.Proofs.Sessions

/-!
# Documents in step with a description

A document that is made from a description keeps it, whatever calls come after: only an update of the description changes
it, and whether the update succeeds, and how it fails, is a matter of the description alone (`mergeRendered_spec`). An update
that succeeds leaves the tree that is read from the new description, also where other calls have changed the tree in between
(`ofRendered_in_step`).
-/

namespace LiveMarkup

/-! ## What becomes of a description -/

namespace Rendered.Root

/-- The forest that is read from what a description renders to. -/
def forest (r : Root) : Except RenderedError Forest :=
  match r.render with
  | .error e => .error (.render e)
  | .ok markup =>
    match Forest.parse markup .trimmed with
    | .error e => .error (.parse e)
    | .ok f => .ok f

/-- The description after an update, unless there is no such description or nothing can be read from it. -/
def updated (r : Root) (text : String) : Except RenderedError Root :=
  match RootDiff.ofText text with
  | .error e => .error (.source e)
  | .ok update =>
    match r.merge update with
    | .error e => .error (.merge e)
    | .ok next =>
      match next.forest with
      | .error e => .error e
      | .ok _ => .ok next

/-- The description after a call: only an update of it can change it, and one that fails does not. -/
def after (r : Root) : Call → Root
  | .mergeRendered text => (r.updated text).toOption.getD r
  | .merge _ | .applyText _ | .applyEdits _ => r

/-- The description after calls, one after the other. -/
def afterAll (r : Root) (calls : List Call) : Root :=
  calls.foldl after r

/-- The document of a description has the forest that is read from it. -/
theorem document_eq (r : Root) (id : DocumentId) :
    r.document id = match r.forest with
      | .error e => .error e
      | .ok f => .ok { Document.ofForest id f with rendered := some r } := by
  unfold document forest Document.parse
  cases r.render with
  | error e => rfl
  | ok markup =>
    cases hparse : Forest.parse markup .trimmed with
    | error e => simp only [hparse]
    | ok f => simp only [hparse]

/-- An update that succeeds has been read and merged, and what comes of it is rendered to markup. -/
theorem updated_eq_ok {r next : Root} {text : String} (h : r.updated text = .ok next) :
    ∃ update f, RootDiff.ofText text = .ok update ∧ r.merge update = .ok next ∧ next.forest = .ok f := by
  unfold updated at h
  split at h
  · cases h
  · rename_i update hupdate
    split at h
    · cases h
    · rename_i merged hmerge
      split at h
      · cases h
      · rename_i f hf
        cases h
        exact ⟨update, f, hupdate, hmerge, hf⟩

end Rendered.Root

namespace Document

/-- The document after calls, one after the other. -/
def afterAll (d : Document) (calls : List Call) : Document :=
  calls.foldl (fun d c => d.after c.update) d

/-- The document keeps the description, and its tree is what is read from the markup that the description renders to. -/
def InStep (d : Document) (r : Rendered.Root) : Prop :=
  d.rendered = some r ∧ ∃ markup, r.render = .ok markup ∧
    ∀ id, ∃ parsed, Document.parse id markup .trimmed = .ok parsed ∧ d.forest = parsed.forest

/-- A document that shows what its description renders to is in step with it. -/
theorem inStep_of_forest {d : Document} {r : Rendered.Root} (hr : d.rendered = some r) (hf : r.forest = .ok d.forest) :
    d.InStep r := by
  unfold Rendered.Root.forest at hf
  split at hf
  · cases hf
  · rename_i markup hmarkup
    refine ⟨hr, markup, hmarkup, ?_⟩
    intro id
    split at hf
    · cases hf
    · rename_i f hparse
      cases hf
      refine ⟨ofForest id d.forest, ?_, (forest_ofForest id _).symm⟩
      rw [Document.parse, hparse]

/-- A document that is made from a description is in step with it. -/
theorem ofRendered_inStep {id : DocumentId} {text : String} {d : Document} (h : ofRendered id text = .ok d) :
    ∃ r, Rendered.Root.ofText text = .ok r ∧ d.InStep r := by
  unfold ofRendered at h
  split at h
  · cases h
  · rename_i r hr
    rw [r.document_eq] at h
    split at h
    · cases h
    · rename_i f hf
      cases h
      refine ⟨r, hr, inStep_of_forest rfl ?_⟩
      rw [hf]
      exact congrArg Except.ok (forest_ofForest id f).symm

/-- Merging keeps the description. -/
theorem Sound.merge_rendered {d incoming : Document} (h : d.Sound) (h' : incoming.Sound) :
    ∃ d' changes, d.merge incoming = .ok (d', changes) ∧ d'.forest = incoming.forest ∧ d'.rendered = d.rendered := by
  obtain ⟨s', o', changes, happly, hs', hforest⟩ := h.applyAll_diff incoming
  refine ⟨{ d with store := s' }, changes, ?_, (forest_of_shows hs').trans hforest, rfl⟩
  simp only [merge_eq, h.compare_eq h', Document.commit, happly]

/-- An update of the description fails exactly if the description alone makes it fail, at one of the first four stages; the
tree can always be brought up to date. -/
theorem mergeRendered_spec {d : Document} {r : Rendered.Root} (h : d.Sound) (hr : d.rendered = some r) (text : String) :
    match r.updated text with
    | .ok next => ∃ d' changes, d.mergeRendered text = .ok (d', changes) ∧ d'.rendered = some next ∧
        next.forest = .ok d'.forest
    | .error e => d.mergeRendered text = .error e := by
  cases hupdate : Rendered.RootDiff.ofText text with
  | error e => simp only [mergeRendered_eq, Rendered.Root.updated, hr, hupdate]
  | ok update =>
    cases hnext : r.merge update with
    | error e => simp only [mergeRendered_eq, Rendered.Root.updated, hr, hupdate, hnext]
    | ok next =>
      have hdocument := next.document_eq d.id
      cases hf : next.forest with
      | error e =>
        rw [hf] at hdocument
        simp only [mergeRendered_eq, Rendered.Root.updated, hr, hupdate, hnext, hf, hdocument]
      | ok f =>
        rw [hf] at hdocument
        obtain ⟨merged, changes, hmerge, hforest, _⟩ := h.merge_rendered (.ofDescription hdocument)
        simp only [mergeRendered_eq, Rendered.Root.updated, hr, hupdate, hnext, hf, hdocument, hmerge]
        refine ⟨{ merged with rendered := some next }, changes, rfl, rfl, ?_⟩
        have hmerged : Document.forest { merged with rendered := some next } = f :=
          hforest.trans (forest_ofForest d.id f)
        rw [hmerged]

/-- Edits that are carried out keep the description. -/
theorem commit_rendered {d d' : Document} {edits : List Edit} {changes : List Change}
    (h : d.commit edits = .ok (d', changes)) : d'.rendered = d.rendered := by
  obtain ⟨store, _, rfl⟩ := commit_eq_ok h
  rfl

/-- A call other than an update of the description carries out edits. -/
theorem commit_of_outcome {d d' : Document} {changes : List Change} {c : Call} (h : c.update.outcome d = .ok (d', changes)) :
    (∃ edits, d.commit edits = .ok (d', changes)) ∨ ∃ text, c = .mergeRendered text := by
  rw [c.outcome_eq] at h
  cases c with
  | merge incoming =>
    obtain ⟨diff, _, hcommit⟩ := merge_eq_ok (eq_ok_of_mapError h)
    exact Or.inl ⟨diff.edits, hcommit⟩
  | applyText text =>
    obtain ⟨edits, _, hcommit⟩ := applyText_eq_ok (eq_ok_of_mapError h)
    exact Or.inl ⟨edits, hcommit⟩
  | applyEdits edits => exact Or.inl ⟨edits, (applyEdits_eq_ok (eq_ok_of_mapError h)).2⟩
  | mergeRendered text => exact Or.inr ⟨text, rfl⟩

/-- A call on a sound document leaves a sound document, with the description that it has to leave. -/
theorem Sound.call {d : Document} {r : Rendered.Root} (h : d.Sound) (hr : d.rendered = some r) (c : Call) :
    (d.after c.update).Sound ∧ (d.after c.update).rendered = some (r.after c) := by
  have hcommits : (∀ text, c ≠ .mergeRendered text) →
      (d.after c.update).Sound ∧ (d.after c.update).rendered = some r := by
    intro hc
    refine c.allOrNothing.after_induction (P := fun d => d.Sound ∧ d.rendered = some r) ⟨h, hr⟩ ?_
    intro d' changes hdone
    rcases commit_of_outcome hdone with ⟨edits, hcommit⟩ | ⟨text, rfl⟩
    · exact ⟨(h.commit hcommit).1, (commit_rendered hcommit).trans hr⟩
    · exact absurd rfl (hc text)
  cases c with
  | merge incoming => exact hcommits (by rintro text ⟨⟩)
  | applyText text => exact hcommits (by rintro text ⟨⟩)
  | applyEdits edits => exact hcommits (by rintro text ⟨⟩)
  | mergeRendered text =>
    have hspec := mergeRendered_spec h hr text
    rw [Rendered.Root.after]
    split at hspec
    · rename_i next hnext
      obtain ⟨d', changes, hmerged, hrendered, _⟩ := hspec
      obtain ⟨_, _, merged, _, hmerge, hstore⟩ := mergeRendered_eq_ok hmerged
      have hafter : d.after (Call.mergeRendered text).update = d' :=
        (Update.mergeRendered_allOrNothing text).after_of_ok hmerged
      rw [hafter, hnext]
      exact ⟨(h.merge hmerge).congr hstore, hrendered⟩
    · rename_i e he
      have hafter : d.after (Call.mergeRendered text).update = d :=
        (Update.mergeRendered_allOrNothing text).after_of_error hspec
      rw [hafter, he]
      exact ⟨h, hr⟩

/-- Calls one after the other leave a sound document, with the description that the updates among them lead to. -/
theorem Sound.calls {d : Document} {r : Rendered.Root} (h : d.Sound) (hr : d.rendered = some r) (calls : List Call) :
    (d.afterAll calls).Sound ∧ (d.afterAll calls).rendered = some (r.afterAll calls) := by
  induction calls generalizing d r with
  | nil => exact ⟨h, hr⟩
  | cons c calls ih =>
    obtain ⟨hsound, hrendered⟩ := h.call hr c
    exact ih hsound hrendered

/-- A document that is made from a description is in step with it, and stays so. After any calls, failed or not, it keeps
the description that the updates among them have led to. The next update leaves a document in step with this description
merged with the update, or else it fails for a reason that lies in the update and this description; then the document is as
it was, and no change is reported. -/
theorem ofRendered_in_step {id : DocumentId} {text : String} {d : Document} (h : ofRendered id text = .ok d) :
    ∃ r, Rendered.Root.ofText text = .ok r ∧ d.InStep r ∧
      ∀ calls, (d.afterAll calls).rendered = some (r.afterAll calls) ∧
        ∀ sent, match (d.afterAll calls).mergeRendered sent with
          | .ok (d', changes) =>
              (∃ update next, Rendered.RootDiff.ofText sent = .ok update ∧ (r.afterAll calls).merge update = .ok next ∧
                (r.afterAll calls).updated sent = .ok next ∧ d'.InStep next) ∧
              ∀ handled, (Update.mergeRendered sent).perform ⟨d.afterAll calls, handled⟩ =
                (.ok (), ⟨d', handled ++ changes⟩)
          | .error e => (r.afterAll calls).updated sent = .error e ∧
              ∀ handled, (Update.mergeRendered sent).perform ⟨d.afterAll calls, handled⟩ =
                (.error e, ⟨d.afterAll calls, handled⟩) := by
  obtain ⟨r, hr, hstep⟩ := ofRendered_inStep h
  obtain ⟨_, hdocument⟩ := ofRendered_eq_ok h
  refine ⟨r, hr, hstep, ?_⟩
  intro calls
  obtain ⟨hsound, hrendered⟩ := (Sound.ofDescription hdocument).calls hstep.1 calls
  refine ⟨hrendered, ?_⟩
  intro sent
  have hspec := mergeRendered_spec hsound hrendered sent
  have hperform := fun handled => Update.mergeRendered_allOrNothing sent ⟨d.afterAll calls, handled⟩
  split at hspec
  · rename_i next hnext
    obtain ⟨d', changes, hmerged, hnow, hforest⟩ := hspec
    obtain ⟨update, _, hupdate, hmerge, _⟩ := Rendered.Root.updated_eq_ok hnext
    rw [hmerged]
    refine ⟨⟨update, next, hupdate, hmerge, hnext, inStep_of_forest hnow hforest⟩, ?_⟩
    intro handled
    rw [hperform]
    exact congrArg (Stage.after ⟨d.afterAll calls, handled⟩) hmerged
  · rename_i e he
    rw [hspec]
    refine ⟨he, ?_⟩
    intro handled
    rw [hperform]
    exact congrArg (Stage.after ⟨d.afterAll calls, handled⟩) hspec

/-! ### A paragraph -/

/-- A description of a paragraph with a text in it. -/
def paragraph (text : String) : Rendered.Root :=
  ⟨.regular (some (.inline ["<p id=\"x\">", "</p>"])) [(0, .text text)], []⟩

/-- The forest of such a paragraph. -/
def paragraphForest (text : String) : Forest :=
  .element ⟨"", "p"⟩ [⟨⟨"", "id"⟩, "x"⟩] (.leaf text .nil) .nil

/-- The JSON of such a description. -/
def paragraphSource : String :=
  (Json.object [("0", .string "a"), ("s", .array [.string "<p id=\"x\">", .string "</p>"])]).compact

/-- The JSON of an update of it. -/
def paragraphUpdate : String :=
  (Json.object [("0", .string "b")]).compact

/-- The JSON of the description is read. -/
theorem ofText_paragraph : Rendered.Root.ofText paragraphSource = .ok (paragraph "a") := by
  have hplain : (Json.object [("0", .string "a"), ("s", .array [.string "<p id=\"x\">", .string "</p>"])]).Plain
      Json.depthLimit :=
    ⟨126, rfl, trivial, ⟨125, rfl, trivial, trivial, trivial⟩, trivial⟩
  have hmembers : Rendered.membersOfText .root paragraphSource =
      .ok [("0", .string "a"), ("s", .array [.string "<p id=\"x\">", .string "</p>"])] := by
    rw [Rendered.membersOfText, paragraphSource, Json.parse?_compact hplain]
    cbv
  rw [Rendered.Root.ofText, hmembers]
  rfl

/-- Where the description renders to the print of the paragraph, the paragraph is what it stands for. -/
theorem forest_paragraph {text : String} (hrender : (paragraph text).render = .ok ((paragraphForest text).print .minified))
    (htrimmed : Text.Trimmed text.toList) : (paragraph text).forest = .ok (paragraphForest text) := by
  have hattribute : Attribute.AllLegal [⟨⟨"", "id"⟩, "x"⟩] := List.forall_mem_singleton.mpr (by decide)
  have hlegal : (paragraphForest text).Legal :=
    Forest.legal_element.mpr ⟨by decide, hattribute, Forest.legal_nil, Forest.legal_nil⟩
  have hcanonical : (paragraphForest text).Canonical := ⟨hlegal, Forest.tidy_leaf htrimmed, trivial⟩
  rw [Rendered.Root.forest, hrender]
  simp only [Forest.parse_print_of_canonical hcanonical .minified]

/-- The update gives the paragraph another text. -/
theorem updated_paragraph : (paragraph "a").updated paragraphUpdate = .ok (paragraph "b") := by
  have hplain : (Json.object [("0", .string "b")]).Plain Json.depthLimit := ⟨126, rfl, trivial, trivial⟩
  have hmembers : Rendered.membersOfText .rootDiff paragraphUpdate = .ok [("0", .string "b")] := by
    rw [Rendered.membersOfText, paragraphUpdate, Json.parse?_compact hplain]
    cbv
  have hupdate : Rendered.RootDiff.ofText paragraphUpdate = .ok ⟨.regular none [(0, .text "b")], []⟩ := by
    rw [Rendered.RootDiff.ofText, hmembers]
    rfl
  have hmerge : (paragraph "a").merge ⟨.regular none [(0, .text "b")], []⟩ = .ok (paragraph "b") := by cbv
  have htrimmed : Text.Trimmed (Text.trim "b".toList) := Text.trimmed_trim (by decide)
  have hforest : (paragraph "b").forest = .ok (paragraphForest "b") := forest_paragraph (by cbv) htrimmed
  simp only [Rendered.Root.updated, hupdate, hmerge, hforest]

/-- The text is updated although edits have removed it in between, and have put an element where it was. -/
theorem text_updated_after_removal : ∃ d d' changes, ofRendered ⟨1⟩ paragraphSource = .ok d ∧
    (d.after (.applyEdits [.remove [0, 0], .append [0] (.element ⟨"", "b"⟩ [⟨⟨"", "class"⟩, "y"⟩] .nil)])).mergeRendered
      paragraphUpdate = .ok (d', changes) ∧
    d'.InStep (paragraph "b") := by
  have htrimmed : Text.Trimmed (Text.trim "a".toList) := Text.trimmed_trim (by decide)
  have hforest : (paragraph "a").forest = .ok (paragraphForest "a") := forest_paragraph (by cbv) htrimmed
  have hread : ofRendered ⟨1⟩ paragraphSource =
      .ok { ofForest ⟨1⟩ (paragraphForest "a") with rendered := some (paragraph "a") } := by
    simp only [ofRendered, ofText_paragraph, Rendered.Root.document_eq, hforest]
  obtain ⟨r, hr, _, hcalls⟩ := ofRendered_in_step hread
  cases ofText_paragraph.symm.trans hr
  obtain ⟨_, hsent⟩ :=
    hcalls [.applyEdits [.remove [0, 0], .append [0] (.element ⟨"", "b"⟩ [⟨⟨"", "class"⟩, "y"⟩] .nil)]]
  have hstep := hsent paragraphUpdate
  split at hstep
  · rename_i d' changes hmerged
    obtain ⟨⟨_, next, _, _, hnext, hin⟩, _⟩ := hstep
    cases updated_paragraph.symm.trans hnext
    exact ⟨_, d', changes, hread, hmerged, hin⟩
  · obtain ⟨hfailed, _⟩ := hstep
    cases updated_paragraph.symm.trans hfailed

end Document

end LiveMarkup
