import LiveMarkup.Document.Rendered

/-!
# Updates are all or nothing

An update that fails leaves its stage as it was: the document stays, and the handler is given nothing. An update that does not
fail gives its changes to the handler after those that it was given before (`Update.AllOrNothing`). For the edits that are
carried out before one fails are carried out on a copy of the tree, of which nothing is left then (`Update.run_commit`). So all
that is to know of an update is what comes of it on its own (`Update.outcome`), and the document it leaves follows from
that (`Update.AllOrNothing.after_induction`).
-/

namespace LiveMarkup

/-! ## Steps one after the other -/

section Steps

variable {ε σ α β : Type}

/-- After a step that succeeds the next one runs on what it has left. -/
theorem run_bind_ok {x : ExceptT ε (StateM σ) α} {s s' : σ} {a : α} (h : x.run.run s = (.ok a, s'))
    (f : α → ExceptT ε (StateM σ) β) : (x >>= f).run.run s = (f a).run.run s' := by
  rw [ExceptT.run_bind, StateT.run_bind, h]
  rfl

/-- After a step that fails there is no other. -/
theorem run_bind_error {x : ExceptT ε (StateM σ) α} {s s' : σ} {e : ε} (h : x.run.run s = (.error e, s'))
    (f : α → ExceptT ε (StateM σ) β) : (x >>= f).run.run s = (.error e, s') := by
  rw [ExceptT.run_bind, StateT.run_bind, h]
  rfl

/-- A look at the state is a step that leaves it. -/
theorem run_get_bind (f : σ → ExceptT ε (StateM σ) β) (s : σ) : (get >>= f).run.run s = (f s).run.run s :=
  rfl

/-- A new state is what the next step runs on. -/
theorem run_set_bind (s s' : σ) (f : PUnit → ExceptT ε (StateM σ) β) : (set s' >>= f).run.run s = (f ⟨⟩).run.run s' :=
  rfl

end Steps

/-- Edits that are carried out in place come to the same end as others. If one of them fails, something is left in place. -/
theorem Store.run_applyInPlace (s : Store) (number : Nat) (edits : List Edit) :
    match s.applyAll number edits with
    | .ok (s', changes) => (applyInPlace number edits).run.run s = (.ok changes, s')
    | .error e => ∃ staged, (applyInPlace number edits).run.run s = (.error e, staged) := by
  induction edits generalizing s number with
  | nil => rfl
  | cons e rest ih =>
    rw [applyAll]
    simp only [applyInPlace, run_get_bind]
    cases s.applyEdit e with
    | error fault => exact ⟨s, rfl⟩
    | ok done =>
      obtain ⟨s₁, change⟩ := done
      have hrest := ih s₁ (number + 1)
      simp only [run_set_bind]
      split at hrest
      · rename_i s₂ changes h
        rw [h, run_bind_ok hrest]
        rfl
      · rename_i e h
        obtain ⟨staged, h'⟩ := hrest
        rw [h, run_bind_error h']
        exact ⟨staged, rfl⟩

/-- The document with edits carried out. -/
def Document.commit (d : Document) (edits : List Edit) : Except EditError (Document × List Change) :=
  match d.store.applyAll 0 edits with
  | .ok (store, changes) => .ok ({ d with store }, changes)
  | .error e => .error e

/-- The end of an update on a stage, and the stage it leaves, by what comes of the update on its own. -/
def Stage.after {ε : Type} (stage : Stage) : Except ε (Document × List Change) → Except ε Unit × Stage
  | .ok (d, changes) => (.ok (), ⟨d, stage.handled ++ changes⟩)
  | .error e => (.error e, stage)

namespace Update

variable {ε ε' : Type} {u : Update ε Unit}

/-- The update succeeds on a stage or fails as a function of the document says, and leaves the stage as it is if it fails. -/
def Gives (u : Update ε Unit) (f : Document → Except ε (Document × List Change)) : Prop :=
  ∀ stage : Stage, u.perform stage = stage.after (f stage.document)

/-- The update does what it does on its own, or else it leaves the stage as it is. -/
def AllOrNothing (u : Update ε Unit) : Prop :=
  u.Gives u.outcome

namespace Gives

variable {f : Document → Except ε (Document × List Change)}

/-- What comes of an update is what it gives. -/
theorem outcome_eq (h : u.Gives f) : u.outcome = f := by
  funext d
  rw [outcome, h]
  cases f d with
  | error e => rfl
  | ok done => rfl

/-- An update that does what a function says does it, or leaves the stage as it is. -/
theorem allOrNothing (h : u.Gives f) : u.AllOrNothing := by
  rw [AllOrNothing, h.outcome_eq]
  exact h

/-- An update gives the same if its errors are given other names. -/
theorem adapt (h : u.Gives f) (rename : ε → ε') : Gives (u.adapt rename) fun d => (f d).mapError rename := by
  intro stage
  have hrun : Update.perform (u.adapt rename) stage = match u.perform stage with
      | (result, stage') => (result.mapError rename, stage') := rfl
  rw [hrun, h]
  dsimp only
  cases f stage.document with
  | error e => rfl
  | ok done => rfl

end Gives

/-! ## The parts of updates -/

/-- Edits take effect together, or not at all. -/
theorem run_commit (edits : List Edit) (stage : Stage) :
    (commit edits).run.run stage = match stage.document.commit edits with
      | .ok (d, changes) => (.ok changes, { stage with document := d })
      | .error e => (.error e, stage) := by
  rw [commit]
  split
  · rename_i hempty
    rw [List.isEmpty_iff.mp hempty]
    rfl
  · have hrun := Store.run_applyInPlace stage.document.store 0 edits
    rw [run_get_bind, Document.commit]
    split at hrun
    · rw [hrun]
      rfl
    · obtain ⟨staged, hrun⟩ := hrun
      rw [hrun]
      rfl

/-- Changes are given to the handler one after the other. -/
theorem run_forM_handle (changes : List Change) (stage : Stage) :
    (changes.forM handle : Update ε Unit).run.run stage =
      (.ok (), { stage with handled := stage.handled ++ changes }) := by
  induction changes generalizing stage with
  | nil =>
    rw [List.append_nil]
    rfl
  | cons c changes ih =>
    have hfirst : (handle c : Update ε Unit).run.run stage = (.ok (), { stage with handled := stage.handled ++ [c] }) := rfl
    rw [List.append_cons]
    exact (run_bind_ok hfirst _).trans (ih _)

/-- The changes of edits are given to the handler if the edits have taken effect. -/
theorem run_commit_handle (edits : List Edit) (stage : Stage) :
    (commit edits >>= fun changes => changes.forM handle).run.run stage =
      stage.after (stage.document.commit edits) := by
  have hcommit := run_commit edits stage
  cases hdone : stage.document.commit edits with
  | error e =>
    rw [hdone] at hcommit
    exact run_bind_error hcommit _
  | ok done =>
    rw [hdone] at hcommit
    exact (run_bind_ok hcommit _).trans (run_forM_handle _ _)

/-! ## The updates -/

/-- A merge carries out the difference of the documents. -/
theorem merge_gives (incoming : Document) : (merge incoming).Gives fun d =>
    match d.compare incoming with
    | .error e => .error (.rejected 0 e)
    | .ok diff => d.commit diff.edits := by
  intro stage
  rw [perform, merge, run_get_bind]
  dsimp only
  cases stage.document.compare incoming with
  | error e => rfl
  | ok diff => exact run_commit_handle diff.edits stage

/-- Edits with legal names are carried out. -/
theorem applyEdits_gives (edits : List Edit) : (applyEdits edits).Gives fun d =>
    match Edit.checkNames 0 edits with
    | .error e => .error (.unreadable e)
    | .ok () => d.commit edits := by
  intro stage
  rw [perform, applyEdits]
  cases Edit.checkNames 0 edits with
  | error e => rfl
  | ok _ => exact run_commit_handle edits stage

/-- Edits that are read are carried out. -/
theorem applyText_gives (text : List Char) : (applyText text).Gives fun d =>
    match Edit.decode text with
    | .error e => .error (.unreadable e)
    | .ok edits => d.commit edits := by
  intro stage
  rw [perform, applyText]
  cases Edit.decode text with
  | error e => rfl
  | ok edits => exact run_commit_handle edits stage

/-- An update of the description is merged into it, and the document that it then stands for into the document. -/
theorem mergeRendered_gives (text : String) : (mergeRendered text).Gives fun d =>
    match d.rendered with
    | none => .error .noDescription
    | some current =>
      match Rendered.RootDiff.ofText text with
      | .error e => .error (.source e)
      | .ok update =>
        match current.merge update with
        | .error e => .error (.merge e)
        | .ok next =>
          match next.document d.id with
          | .error e => .error e
          | .ok incoming =>
            match d.merge incoming with
            | .error e => .error (.update e)
            | .ok (d, changes) => .ok ({ d with rendered := some next }, changes) := by
  intro stage
  rw [perform, mergeRendered, run_get_bind]
  dsimp only
  cases stage.document.rendered with
  | none => rfl
  | some current =>
    dsimp only
    cases Rendered.RootDiff.ofText text with
    | error e => rfl
    | ok update =>
      dsimp only
      cases current.merge update with
      | error e => rfl
      | ok next =>
        dsimp only
        cases next.document stage.document.id with
        | error e => rfl
        | ok incoming =>
          have hmerge : ((merge incoming).adapt RenderedError.update).run.run stage =
              stage.after (((merge incoming).outcome stage.document).mapError .update) :=
            (merge_gives incoming).allOrNothing.adapt RenderedError.update stage
          dsimp only [Document.merge]
          cases hdone : (merge incoming).outcome stage.document with
          | error e =>
            rw [hdone] at hmerge
            exact run_bind_error hmerge _
          | ok done =>
            rw [hdone] at hmerge
            exact run_bind_ok hmerge _

theorem merge_allOrNothing (incoming : Document) : (merge incoming).AllOrNothing :=
  (merge_gives incoming).allOrNothing

theorem applyEdits_allOrNothing (edits : List Edit) : (applyEdits edits).AllOrNothing :=
  (applyEdits_gives edits).allOrNothing

theorem applyText_allOrNothing (text : List Char) : (applyText text).AllOrNothing :=
  (applyText_gives text).allOrNothing

theorem mergeRendered_allOrNothing (text : String) : (mergeRendered text).AllOrNothing :=
  (mergeRendered_gives text).allOrNothing

end Update

namespace Document

variable (d : Document)

/-! ## What comes of updates -/

/-- A merge carries out the difference of the documents. -/
theorem merge_eq (incoming : Document) : d.merge incoming =
    match d.compare incoming with
    | .error e => .error (.rejected 0 e)
    | .ok diff => d.commit diff.edits :=
  congrFun (Update.merge_gives incoming).outcome_eq d

/-- Edits with legal names are carried out. -/
theorem applyEdits_eq (edits : List Edit) : d.applyEdits edits =
    match Edit.checkNames 0 edits with
    | .error e => .error (.unreadable e)
    | .ok () => d.commit edits :=
  congrFun (Update.applyEdits_gives edits).outcome_eq d

/-- Edits that are read are carried out. -/
theorem applyText_eq (text : List Char) : d.applyText text =
    match Edit.decode text with
    | .error e => .error (.unreadable e)
    | .ok edits => d.commit edits :=
  congrFun (Update.applyText_gives text).outcome_eq d

/-- An update of the description is merged into it, and the document that it then stands for into the document. -/
theorem mergeRendered_eq (text : String) : d.mergeRendered text =
    match d.rendered with
    | none => .error .noDescription
    | some current =>
      match Rendered.RootDiff.ofText text with
      | .error e => .error (.source e)
      | .ok update =>
        match current.merge update with
        | .error e => .error (.merge e)
        | .ok next =>
          match next.document d.id with
          | .error e => .error e
          | .ok incoming =>
            match d.merge incoming with
            | .error e => .error (.update e)
            | .ok (d, changes) => .ok ({ d with rendered := some next }, changes) :=
  congrFun (Update.mergeRendered_gives text).outcome_eq d

/-! ## Documents after updates -/

/-- The document that an update leaves, whether it fails or not. -/
def after {ε : Type} (d : Document) (u : Update ε Unit) : Document :=
  (u.perform ⟨d, []⟩).2.document

end Document

namespace Update.AllOrNothing

variable {ε : Type} {u : Update ε Unit} {d d' : Document} {changes : List Change} {e : ε}

/-- An update that succeeds leaves what comes of it. -/
theorem after_of_ok (h : u.AllOrNothing) (hdone : u.outcome d = .ok (d', changes)) : d.after u = d' := by
  rw [Document.after, h, hdone]
  rfl

/-- An update that fails leaves the document as it is. -/
theorem after_of_error (h : u.AllOrNothing) (hfailed : u.outcome d = .error e) : d.after u = d := by
  rw [Document.after, h, hfailed]
  rfl

/-- What holds of a document holds after an update, if it does so of what comes of the update. -/
theorem after_induction {P : Document → Prop} (h : u.AllOrNothing) (hd : P d)
    (hdone : ∀ d' changes, u.outcome d = .ok (d', changes) → P d') : P (d.after u) := by
  cases houtcome : u.outcome d with
  | error e => rwa [h.after_of_error houtcome]
  | ok done =>
    rw [h.after_of_ok houtcome]
    exact hdone _ _ houtcome

end Update.AllOrNothing

/-! ## Calls -/

/-- A call that updates a document. -/
inductive Call
  | merge (incoming : Document)
  | applyText (text : List Char)
  | applyEdits (edits : List Edit)
  | mergeRendered (text : String)

/-- The update that a call makes. -/
def Call.update : Call → Update RenderedError Unit
  | merge incoming => (Update.merge incoming).adapt .update
  | applyText text => (Update.applyText text).adapt .update
  | applyEdits edits => (Update.applyEdits edits).adapt .update
  | mergeRendered text => Update.mergeRendered text

/-- What comes of a call is what comes of the update, where all errors are those of a description. -/
theorem Call.outcome_eq (c : Call) (d : Document) : c.update.outcome d = match c with
    | merge incoming => (d.merge incoming).mapError .update
    | applyText text => (d.applyText text).mapError .update
    | applyEdits edits => (d.applyEdits edits).mapError .update
    | mergeRendered text => d.mergeRendered text := by
  cases c with
  | merge incoming => exact congrFun ((Update.merge_allOrNothing incoming).adapt RenderedError.update).outcome_eq d
  | applyText text => exact congrFun ((Update.applyText_allOrNothing text).adapt RenderedError.update).outcome_eq d
  | applyEdits edits => exact congrFun ((Update.applyEdits_allOrNothing edits).adapt RenderedError.update).outcome_eq d
  | mergeRendered text => rfl

/-- Every call is all or nothing. -/
theorem Call.allOrNothing (c : Call) : c.update.AllOrNothing := by
  cases c with
  | merge incoming => exact ((Update.merge_allOrNothing incoming).adapt RenderedError.update).allOrNothing
  | applyText text => exact ((Update.applyText_allOrNothing text).adapt RenderedError.update).allOrNothing
  | applyEdits edits => exact ((Update.applyEdits_allOrNothing edits).adapt RenderedError.update).allOrNothing
  | mergeRendered text => exact Update.mergeRendered_allOrNothing text

end LiveMarkup
