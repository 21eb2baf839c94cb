import LiveMarkup.Rendered.Render
import LiveMarkup.Proofs.SharedStatics

/-!
# What goes wrong in rendering

An error in rendering a fragment is found in the fragment itself, or it is the error of a component in it
(`Fragment.arises_of_render`). So components whose statics are all their own never give rise to the error that statics are not
resolved (`Components.render_ne_unresolved`).
-/

namespace LiveMarkup.Rendered

namespace RenderError

/-- The error is not one of a component. -/
def IsLocal : RenderError → Prop
  | missingStatics | templateNotFound _ | missingChild _ => True
  | componentNotFound _ | componentCycle _ | unresolvedStatics _ => False

/-- The error is found in a fragment itself, or it is what has become of a component in it. -/
def Arises (component : Int → Rendering) (e : RenderError) : Prop :=
  e.IsLocal ∨ ∃ id, component id = .error e

end RenderError

section

variable {component : Int → Rendering} {templates : Templates} {filling : Nat → Rendering} {e : RenderError}

/-- If statics have no texts, the fault is one of the place itself. -/
theorem Statics.error_of_texts {statics : Statics} (h : statics.texts templates = .error e) : e.IsLocal := by
  unfold Statics.texts at h
  split at h
  · cases h
  · split at h
    · cases h
    · cases h
      trivial

/-- If gaps cannot be filled, one of them cannot. -/
theorem error_of_fillGaps {start : Nat} {texts : List String} (h : fillGaps filling start texts = .error e) :
    ∃ gap < texts.length, filling (start + gap) = .error e := by
  induction texts generalizing start with
  | nil => cases h
  | cons text rest ih =>
    rw [fillGaps] at h
    split at h
    · rename_i hfilling
      cases h
      exact ⟨0, Nat.zero_lt_succ _, hfilling⟩
    · split at h
      · rename_i hrest
        cases h
        obtain ⟨gap, hlt, hgap⟩ := ih hrest
        exact ⟨gap + 1, Nat.succ_lt_succ hlt, by rwa [← Nat.add_assoc, Nat.add_right_comm]⟩
      · cases h

/-- If gaps between texts cannot be filled, one of them cannot. -/
theorem error_of_interleave {texts : List String} (h : interleave filling texts = .error e) :
    ∃ gap, gap + 1 < texts.length ∧ filling gap = .error e := by
  unfold interleave at h
  split at h
  · cases h
  · split at h
    · rename_i hrest
      cases h
      obtain ⟨gap, hlt, hgap⟩ := error_of_fillGaps hrest
      exact ⟨gap, Nat.succ_lt_succ hlt, by rwa [Nat.zero_add] at hgap⟩
    · cases h

mutual

/-- A fault of a fragment arises in it or in a component. -/
theorem Fragment.arises_of_render : ∀ {templates : Templates} (f : Fragment), f.render component templates = .error e →
    e.Arises component
  | _, .regular none _, h => by
    cases h
    exact .inl trivial
  | templates, .regular (some statics) children, h => by
    rw [Fragment.render] at h
    split at h
    · rename_i htexts
      cases h
      exact .inl (Statics.error_of_texts htexts)
    · obtain ⟨gap, -, hgap⟩ := error_of_interleave h
      exact arises_of_renderGap children hgap
  | templates, .comprehension (some statics) rows own _, h => by
    rw [Fragment.render] at h
    split at h
    · rename_i htexts
      cases h
      exact .inl (Statics.error_of_texts htexts)
    · exact arises_of_renderRows rows h
  | templates, .comprehension none rows own _, h => by
    rw [Fragment.render] at h
    exact arises_of_renderEachRow rows h

/-- A fault of a dynamic arises in it or in a component. -/
theorem Child.arises_of_render : ∀ {templates : Templates} (c : Child), c.render component templates = .error e →
    e.Arises component
  | templates, .fragment f, h => Fragment.arises_of_render f (by rwa [Child.render] at h)
  | _, .component id, h => .inr ⟨id, by rwa [Child.render] at h⟩
  | _, .text s, h => by cases h

/-- A fault of a gap arises in its dynamic or in a component. -/
theorem arises_of_renderGap : ∀ {templates : Templates} {gap : Nat} (children : List (Nat × Child)),
    renderGap component templates children gap = .error e → e.Arises component
  | _, _, [], h => by
    cases h
    exact .inl trivial
  | templates, gap, (i, c) :: rest, h => by
    rw [renderGap] at h
    split at h
    · exact Child.arises_of_render c h
    · exact arises_of_renderGap rest h

/-- A fault of a gap of a row arises in its dynamic or in a component. -/
theorem arises_of_renderCell : ∀ {templates : Templates} {passed gap : Nat} (row : List Child),
    renderCell component templates row passed gap = .error e → e.Arises component
  | _, _, _, [], h => by
    cases h
    exact .inl trivial
  | templates, passed, gap, c :: rest, h => by
    rw [renderCell] at h
    split at h
    · exact Child.arises_of_render c h
    · exact arises_of_renderCell rest h

/-- A fault of rows arises in one of them or in a component. -/
theorem arises_of_renderRows : ∀ {templates : Templates} {texts : List String} (rows : List (List Child)),
    renderRows component templates texts rows = .error e → e.Arises component
  | _, _, [], h => by cases h
  | templates, texts, row :: rest, h => by
    rw [renderRows] at h
    split at h
    · rename_i hrow
      cases h
      obtain ⟨gap, -, hgap⟩ := error_of_interleave hrow
      exact arises_of_renderCell row hgap
    · split at h
      · rename_i hrest
        cases h
        exact arises_of_renderRows rest hrest
      · cases h

/-- A fault of rows without texts arises in one of them or in a component. -/
theorem arises_of_renderEachRow : ∀ {templates : Templates} (rows : List (List Child)),
    renderEachRow component templates rows = .error e → e.Arises component
  | _, [], h => by cases h
  | templates, row :: rest, h => by
    rw [renderEachRow] at h
    split at h
    · rename_i hrow
      cases h
      exact arises_of_renderCells row hrow
    · split at h
      · rename_i hrest
        cases h
        exact arises_of_renderEachRow rest hrest
      · cases h

/-- A fault of the dynamics of a row arises in one of them or in a component. -/
theorem arises_of_renderCells : ∀ {templates : Templates} (row : List Child),
    renderCells component templates row = .error e → e.Arises component
  | _, [], h => by cases h
  | templates, c :: rest, h => by
    rw [renderCells] at h
    split at h
    · rename_i hc
      cases h
      exact Child.arises_of_render c hc
    · split at h
      · rename_i hrest
        cases h
        exact arises_of_renderCells rest hrest
      · cases h

end

end

/-- Components that have been resolved are rendered without meeting statics that have not. -/
theorem Components.render_ne_unresolved {components left : Components} (hresolved : components.Resolved) (id k : Int) :
    components.render left id ≠ .error (.unresolvedStatics k) := by
  intro h
  fun_induction Components.render components left id with
  | case1 => cases h
  | case2 => cases h
  | case3 left id c hc _ hfree source hs =>
    obtain ⟨texts, htexts⟩ := hresolved _ (Keyed.mem_of_find? hc)
    cases hs.symm.trans htexts
  | case4 left id c hc _ hfree texts hs ih =>
    obtain ⟨gap, -, hgap⟩ := error_of_interleave h
    rcases arises_of_renderGap _ hgap with hlocal | ⟨inner, hinner⟩
    · exact hlocal
    · exact ih inner hinner

end LiveMarkup.Rendered
