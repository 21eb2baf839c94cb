import Mathlib.Logic.Relation
import LiveMarkup.Proofs.RenderErrors

/-!
# What is rendered within what

What is rendered stands in a place: it is a dynamic, with the templates that the comprehensions around it declare. A place
unfolds into the places that are rendered within it (`Components.Unfolds`), and all that it needs for this of its own can be
told before (`Components.Supplied`). A place is rendered if and only if it has what it needs, it is not a component that is
rendered around it already, and all the places that it unfolds into are rendered (`Components.supplied_of_renderAt`,
`Components.fails_of_renderAt`).
-/

namespace LiveMarkup.Rendered

/-! ## Places -/

/-- The templates that comprehensions around a place declare, those of the nearest comprehension first. -/
abbrev Scopes := List Templates

/-- The texts of the nearest declaration of a template. -/
def Scopes.nearest? (scopes : Scopes) (id : Int) : Option (List String) :=
  scopes.findSome? (Keyed.find? id)

/-- The texts that statics stand for. -/
def Statics.textsIn? (scopes : Scopes) : Statics → Option (List String)
  | inline texts => some texts
  | template id => scopes.nearest? id

/-- A dynamic among templates. -/
structure Place where
  scopes : Scopes
  content : Child

/-- One place is rendered within the other, and next to it. -/
inductive Components.Unfolds (components : Components) : Place → Place → Prop
  /-- What fills a gap between the texts of a fragment. -/
  | gap {scopes : Scopes} {statics : Statics} {texts : List String} {children : Children} {gap : Nat} {c : Child}
      (hs : statics.textsIn? scopes = some texts) (hgap : gap + 1 < texts.length)
      (hc : Keyed.find? gap children = some c) :
      Unfolds components ⟨scopes, .fragment (.regular (some statics) children)⟩ ⟨scopes, c⟩
  /-- A cell that fills a gap between the texts of a comprehension. -/
  | cell {scopes : Scopes} {statics : Statics} {texts : List String} {rows : List Row} {own : Templates}
      {stream : Option Stream} {row : Row} {gap : Nat} {c : Child} (hs : statics.textsIn? (own :: scopes) = some texts)
      (hrow : row ∈ rows) (hgap : gap + 1 < texts.length) (hc : row[gap]? = some c) :
      Unfolds components ⟨scopes, .fragment (.comprehension (some statics) rows own stream)⟩ ⟨own :: scopes, c⟩
  /-- Any cell of a comprehension without texts. -/
  | bareCell {scopes : Scopes} {rows : List Row} {own : Templates} {stream : Option Stream} {row : Row} {c : Child}
      (hrow : row ∈ rows) (hc : c ∈ row) :
      Unfolds components ⟨scopes, .fragment (.comprehension none rows own stream)⟩ ⟨own :: scopes, c⟩
  /-- What fills a gap between the texts of a component; no templates around the component are around it. -/
  | component {scopes : Scopes} {id : Int} {c : Component} {texts : List String} {gap : Nat} {d : Child}
      (hc : Keyed.find? id components = some c) (hs : c.statics = .inline texts) (hgap : gap + 1 < texts.length)
      (hd : Keyed.find? gap c.children = some d) : Unfolds components ⟨scopes, .component id⟩ ⟨[], d⟩

/-- What is to be written at a place is there, but for what becomes of the places that it unfolds into. -/
inductive Components.Supplied (components : Components) : Place → Prop
  | text {scopes : Scopes} {s : String} : Supplied components ⟨scopes, .text s⟩
  /-- The fragment has statics that stand for texts, and each gap between these is filled. -/
  | regular {scopes : Scopes} {statics : Statics} {texts : List String} {children : Children}
      (hs : statics.textsIn? scopes = some texts)
      (hgaps : ∀ gap, gap + 1 < texts.length → ∃ c, Keyed.find? gap children = some c) :
      Supplied components ⟨scopes, .fragment (.regular (some statics) children)⟩
  /-- The statics of the comprehension stand for texts, and in each row there is a cell for each gap between these. -/
  | rows {scopes : Scopes} {statics : Statics} {texts : List String} {rows : List Row} {own : Templates}
      {stream : Option Stream} (hs : statics.textsIn? (own :: scopes) = some texts)
      (hgaps : ∀ row ∈ rows, ∀ gap, gap + 1 < texts.length → ∃ c : Child, row[gap]? = some c) :
      Supplied components ⟨scopes, .fragment (.comprehension (some statics) rows own stream)⟩
  | bareRows {scopes : Scopes} {rows : List Row} {own : Templates} {stream : Option Stream} :
      Supplied components ⟨scopes, .fragment (.comprehension none rows own stream)⟩
  /-- There is a component, its statics are its own, and each gap between the texts is filled. -/
  | component {scopes : Scopes} {id : Int} {c : Component} {texts : List String}
      (hc : Keyed.find? id components = some c) (hs : c.statics = .inline texts)
      (hgaps : ∀ gap, gap + 1 < texts.length → ∃ d, Keyed.find? gap c.children = some d) :
      Supplied components ⟨scopes, .component id⟩

/-- The markup of a place. `left` are the components that are not being rendered around it. -/
def Components.renderAt (components left : Components) (p : Place) : Rendering :=
  p.content.render (components.render left) p.scopes.flatten

/-- The place is not a component that is being rendered around it. -/
def Place.Free (left : Components) (p : Place) : Prop :=
  ∀ id, p.content = .component id → ∃ c, Keyed.find? id left = some c

/-- The components that are not being rendered around what a place unfolds into. -/
def Place.within (left : Components) (p : Place) : Components :=
  match p.content with
  | .component id => Keyed.erase id left
  | .fragment _ => left
  | .text _ => left

/-- What is found in all templates together is the nearest declaration. -/
theorem find?_flatten (id : Int) (scopes : Scopes) : Keyed.find? id scopes.flatten = scopes.nearest? id := by
  induction scopes with
  | nil => rfl
  | cons own rest ih =>
    rw [List.flatten_cons, Keyed.find?_append, ih, Scopes.nearest?, Scopes.nearest?, List.findSome?_cons]
    cases Keyed.find? id own <;> rfl

/-- Statics have texts exactly if they stand for some among the templates. -/
theorem Statics.texts_eq_ok_iff {scopes : Scopes} {statics : Statics} {texts : List String} :
    statics.texts scopes.flatten = .ok texts ↔ statics.textsIn? scopes = some texts := by
  cases statics with
  | inline own => simp [Statics.texts, textsIn?]
  | template id =>
    rw [Statics.texts, find?_flatten, textsIn?]
    cases scopes.nearest? id <;> simp

/-! ## Texts with fillings -/

section

variable {filling : Nat → Rendering} {texts : List String} {markup : String} {gap : Nat}

/-- If gaps can be filled, each of them can. -/
theorem exists_of_fillGaps {start : Nat} (h : fillGaps filling start texts = .ok markup) (hgap : gap < texts.length) :
    ∃ filled, filling (start + gap) = .ok filled := by
  induction texts generalizing start gap markup with
  | nil => cases hgap
  | cons text rest ih =>
    rw [fillGaps] at h
    split at h
    · cases h
    · rename_i filled hfilled
      split at h
      · cases h
      · rename_i more hmore
        cases gap with
        | zero => exact ⟨filled, hfilled⟩
        | succ gap =>
          obtain ⟨filled, hfilled⟩ := ih hmore (Nat.lt_of_succ_lt_succ hgap)
          exact ⟨filled, by rwa [← Nat.add_assoc, Nat.add_right_comm]⟩

/-- If gaps between texts can be filled, each of them can. -/
theorem exists_of_interleave (h : interleave filling texts = .ok markup) (hgap : gap + 1 < texts.length) :
    ∃ filled, filling gap = .ok filled := by
  unfold interleave at h
  split at h
  · cases hgap
  · split at h
    · cases h
    · rename_i hmore
      obtain ⟨filled, hfilled⟩ := exists_of_fillGaps hmore (Nat.lt_of_succ_lt_succ hgap)
      exact ⟨filled, by rwa [Nat.zero_add] at hfilled⟩

end

/-- What is written for each entry of a list, one after the other. -/
def inTurn {α : Type} (write : α → Rendering) : List α → Rendering
  | [] => .ok ""
  | a :: rest =>
    match write a with
    | .error e => .error e
    | .ok markup =>
      match inTurn write rest with
      | .error e => .error e
      | .ok more => .ok (markup ++ more)

section

variable {α : Type} {write : α → Rendering} {entries : List α} {a : α} {markup : String} {e : RenderError}

/-- If entries can be written in turn, each of them can. -/
theorem exists_of_inTurn (h : inTurn write entries = .ok markup) (ha : a ∈ entries) : ∃ markup, write a = .ok markup := by
  induction entries generalizing markup with
  | nil => cases ha
  | cons first rest ih =>
    rw [inTurn] at h
    split at h
    · cases h
    · rename_i own hown
      split at h
      · cases h
      · rename_i more hmore
        rcases List.mem_cons.mp ha with rfl | ha
        · exact ⟨own, hown⟩
        · exact ih hmore ha

/-- If entries cannot be written in turn, one of them cannot. -/
theorem error_of_inTurn (h : inTurn write entries = .error e) : ∃ a ∈ entries, write a = .error e := by
  induction entries with
  | nil => cases h
  | cons first rest ih =>
    rw [inTurn] at h
    split at h
    · rename_i hfirst
      cases h
      exact ⟨first, List.mem_cons_self, hfirst⟩
    · split at h
      · rename_i hrest
        cases h
        obtain ⟨a, ha, herror⟩ := ih hrest
        exact ⟨a, List.mem_cons_of_mem _ ha, herror⟩
      · cases h

end

/-! ## Parts of a fragment -/

section

variable {component : Int → Rendering} {templates : Templates}

/-- The markup of the dynamic that fills a gap. -/
def fillFrom (component : Int → Rendering) (templates : Templates) (dynamic? : Nat → Option Child) (gap : Nat) :
    Rendering :=
  match dynamic? gap with
  | some c => c.render component templates
  | none => .error (.missingChild gap)

/-- The dynamic of a gap is the one with its key. -/
theorem renderGap_eq (component : Int → Rendering) (templates : Templates) (children : Children) :
    renderGap component templates children = fillFrom component templates fun gap => Keyed.find? gap children := by
  funext gap
  induction children with
  | nil => rw [renderGap, fillFrom, Keyed.find?]
  | cons entry rest ih =>
    rw [renderGap, fillFrom, Keyed.find?]
    split
    · rfl
    · exact ih

/-- The dynamic of a gap in a row is the one at its position. -/
theorem renderCell_add (component : Int → Rendering) (templates : Templates) (row : Row) (passed gap : Nat) :
    renderCell component templates row passed (passed + gap) =
      match row[gap]? with
      | some c => c.render component templates
      | none => .error (.missingChild (passed + gap)) := by
  induction row generalizing passed gap with
  | nil => rw [renderCell, List.getElem?_nil]
  | cons c rest ih =>
    rw [renderCell]
    cases gap with
    | zero => rw [Nat.add_zero, if_pos rfl, List.getElem?_cons_zero]
    | succ gap =>
      rw [if_neg (by omega), ← Nat.add_assoc, Nat.add_right_comm, ih, List.getElem?_cons_succ]

/-- The dynamics of a row fill its gaps by their positions. -/
theorem renderCell_eq (component : Int → Rendering) (templates : Templates) (row : Row) :
    renderCell component templates row 0 = fillFrom component templates fun gap => row[gap]? := by
  funext gap
  simpa [fillFrom] using renderCell_add component templates row 0 gap

/-- Rows are written in turn, each with its dynamics between the texts. -/
theorem renderRows_eq (component : Int → Rendering) (templates : Templates) (texts : List String) (rows : List Row) :
    renderRows component templates texts rows =
      inTurn (fun row => interleave (fillFrom component templates fun gap => row[gap]?) texts) rows := by
  induction rows with
  | nil => rw [renderRows, inTurn]
  | cons row rest ih =>
    rw [renderRows, ih, renderCell_eq]
    rfl

/-- The dynamics of a row without texts are written in turn. -/
theorem renderCells_eq (component : Int → Rendering) (templates : Templates) (row : Row) :
    renderCells component templates row = inTurn (Child.render component templates) row := by
  induction row with
  | nil => rw [renderCells, inTurn]
  | cons c rest ih =>
    rw [renderCells, ih]
    rfl

/-- Rows without texts are written in turn. -/
theorem renderEachRow_eq (component : Int → Rendering) (templates : Templates) (rows : List Row) :
    renderEachRow component templates rows = inTurn (inTurn (Child.render component templates)) rows := by
  induction rows with
  | nil => rw [renderEachRow, inTurn]
  | cons row rest ih =>
    rw [renderEachRow, ih, renderCells_eq]
    rfl

variable {dynamic? : Nat → Option Child} {texts : List String} {markup : String} {e : RenderError}

/-- If dynamics can be written between texts, each gap has one that can be rendered. -/
theorem exists_of_interleave_fillFrom (h : interleave (fillFrom component templates dynamic?) texts = .ok markup) {gap : Nat}
    (hgap : gap + 1 < texts.length) : ∃ c, dynamic? gap = some c ∧ ∃ filled, c.render component templates = .ok filled := by
  obtain ⟨filled, hfilled⟩ := exists_of_interleave h hgap
  rw [fillFrom] at hfilled
  split at hfilled
  · rename_i c hc
    exact ⟨c, hc, filled, hfilled⟩
  · cases hfilled

/-- If dynamics cannot be written between texts, some gap lacks one, or has one that cannot be rendered. -/
theorem error_of_interleave_fillFrom (h : interleave (fillFrom component templates dynamic?) texts = .error e) :
    ∃ gap, gap + 1 < texts.length ∧ (dynamic? gap = none ∧ e = .missingChild gap ∨
      ∃ c, dynamic? gap = some c ∧ c.render component templates = .error e) := by
  obtain ⟨gap, hgap, herror⟩ := error_of_interleave h
  rw [fillFrom] at herror
  split at herror
  · rename_i c hc
    exact ⟨gap, hgap, .inr ⟨c, hc, herror⟩⟩
  · rename_i hnone
    cases herror
    exact ⟨gap, hgap, .inl ⟨hnone, rfl⟩⟩

end

/-! ## One step -/

namespace Components

variable {components left : Components} {p q : Place} {scopes : Scopes} {markup : String} {e : RenderError}

/-- All places that a place unfolds into are rendered. -/
def InnerRendered (components left : Components) (p : Place) : Prop :=
  ∀ q, components.Unfolds p q → ∃ markup, components.renderAt (p.within left) q = .ok markup

/-- Why a place is not rendered: something is missing there, or the place is a component that is being rendered around it, or
a place that it unfolds into is not rendered. -/
inductive Fails (components left : Components) (p : Place) (e : RenderError) : Prop
  | missing (h : ¬ components.Supplied p) (he : ∀ id, e ≠ .componentCycle id)
  | cycle {id : Int} {c : Component} (hp : p.content = .component id) (hc : Keyed.find? id components = some c)
      (hleft : Keyed.find? id left = none) (he : e = .componentCycle id)
  | inner {q : Place} (hfree : p.Free left) (hq : components.Unfolds p q)
      (h : components.renderAt (p.within left) q = .error e)

/-- If a component is rendered, it is there, not being rendered already, and what is within it is rendered. -/
theorem supplied_of_component {id : Int} (h : components.render left id = .ok markup) :
    components.Supplied ⟨scopes, .component id⟩ ∧ Place.Free left ⟨scopes, .component id⟩ ∧
      components.InnerRendered left ⟨scopes, .component id⟩ := by
  rw [render] at h
  split at h
  · cases h
  · rename_i c hc
    split at h
    · cases h
    · rename_i free hfree
      split at h
      · cases h
      · rename_i texts hs
        rw [renderGap_eq] at h
        refine ⟨.component hc hs ?_, ?_, ?_⟩
        · intro gap hgap
          obtain ⟨d, hd, -⟩ := exists_of_interleave_fillFrom h hgap
          exact ⟨d, hd⟩
        · rintro k ⟨⟩
          exact ⟨free, hfree⟩
        · intro q hq
          cases hq with
          | component hc' hs' hgap hd =>
            cases hc.symm.trans hc'
            cases hs.symm.trans hs'
            obtain ⟨d, hd', hfilled⟩ := exists_of_interleave_fillFrom h hgap
            cases hd.symm.trans hd'
            exact hfilled

/-- If a regular fragment is rendered, it has all that it needs, and what is within it is rendered. -/
theorem supplied_of_regular {statics : Option Statics} {children : Children}
    (h : (Fragment.regular statics children).render (components.render left) scopes.flatten = .ok markup) :
    components.Supplied ⟨scopes, .fragment (.regular statics children)⟩ ∧
      components.InnerRendered left ⟨scopes, .fragment (.regular statics children)⟩ := by
  cases statics with
  | none => cases h
  | some statics =>
    rw [Fragment.render] at h
    split at h
    · cases h
    · rename_i texts htexts
      have hs := Statics.texts_eq_ok_iff.mp htexts
      rw [renderGap_eq] at h
      refine ⟨.regular hs ?_, ?_⟩
      · intro gap hgap
        obtain ⟨c, hc, -⟩ := exists_of_interleave_fillFrom h hgap
        exact ⟨c, hc⟩
      · intro q hq
        cases hq with
        | gap hs' hgap hc =>
          cases hs.symm.trans hs'
          obtain ⟨c, hc', hfilled⟩ := exists_of_interleave_fillFrom h hgap
          cases hc.symm.trans hc'
          exact hfilled

/-- If a comprehension is rendered, it has all that it needs, and what is within it is rendered. -/
theorem supplied_of_comprehension {statics : Option Statics} {rows : List Row} {own : Templates} {stream : Option Stream}
    (h : (Fragment.comprehension statics rows own stream).render (components.render left) scopes.flatten = .ok markup) :
    components.Supplied ⟨scopes, .fragment (.comprehension statics rows own stream)⟩ ∧
      components.InnerRendered left ⟨scopes, .fragment (.comprehension statics rows own stream)⟩ := by
  cases statics with
  | none =>
    rw [Fragment.render, renderEachRow_eq] at h
    refine ⟨.bareRows, ?_⟩
    intro q hq
    cases hq with
    | bareCell hrow hc =>
      obtain ⟨written, hwritten⟩ := exists_of_inTurn h hrow
      obtain ⟨filled, hfilled⟩ := exists_of_inTurn hwritten hc
      exact ⟨filled, hfilled⟩
  | some statics =>
    rw [Fragment.render] at h
    split at h
    · cases h
    · rename_i texts htexts
      have hs : statics.textsIn? (own :: scopes) = some texts := Statics.texts_eq_ok_iff.mp htexts
      rw [renderRows_eq] at h
      refine ⟨.rows hs ?_, ?_⟩
      · intro row hrow gap hgap
        obtain ⟨written, hwritten⟩ := exists_of_inTurn h hrow
        obtain ⟨c, hc, -⟩ := exists_of_interleave_fillFrom hwritten hgap
        exact ⟨c, hc⟩
      · intro q hq
        cases hq with
        | cell hs' hrow hgap hc =>
          cases hs.symm.trans hs'
          obtain ⟨written, hwritten⟩ := exists_of_inTurn h hrow
          obtain ⟨c, hc', hfilled⟩ := exists_of_interleave_fillFrom hwritten hgap
          cases hc.symm.trans hc'
          exact hfilled

/-- Of a place that is rendered nothing is missing, and the places that it unfolds into are rendered. -/
theorem supplied_of_renderAt (h : components.renderAt left p = .ok markup) :
    components.Supplied p ∧ p.Free left ∧ components.InnerRendered left p := by
  obtain ⟨scopes, content⟩ := p
  rw [renderAt] at h
  cases content with
  | text s =>
    refine ⟨.text, nofun, ?_⟩
    intro q hq
    cases hq
  | component id => exact supplied_of_component (by rwa [Child.render] at h)
  | fragment f =>
    rw [Child.render] at h
    cases f with
    | regular statics children =>
      obtain ⟨hsupplied, hinner⟩ := supplied_of_regular h
      exact ⟨hsupplied, nofun, hinner⟩
    | comprehension statics rows own stream =>
      obtain ⟨hsupplied, hinner⟩ := supplied_of_comprehension h
      exact ⟨hsupplied, nofun, hinner⟩

/-- If a component is not rendered, it lacks something, is being rendered already, or something within it fails. -/
theorem fails_of_component {id : Int} (h : components.render left id = .error e) :
    components.Fails left ⟨scopes, .component id⟩ e := by
  rw [render] at h
  split at h
  · rename_i hc
    cases h
    refine .missing ?_ (by rintro k ⟨⟩)
    intro hsupplied
    cases hsupplied with
    | component hc' _ _ => cases hc.symm.trans hc'
  · rename_i c hc
    split at h
    · rename_i hleft
      cases h
      exact .cycle rfl hc hleft rfl
    · rename_i free hfree
      split at h
      · rename_i source hs
        cases h
        refine .missing ?_ (by rintro k ⟨⟩)
        intro hsupplied
        cases hsupplied with
        | component hc' hs' _ =>
          cases hc.symm.trans hc'
          cases hs.symm.trans hs'
      · rename_i texts hs
        rw [renderGap_eq] at h
        obtain ⟨gap, hgap, ⟨hnone, rfl⟩ | ⟨d, hd, herror⟩⟩ := error_of_interleave_fillFrom h
        · refine .missing ?_ (by rintro k ⟨⟩)
          intro hsupplied
          cases hsupplied with
          | component hc' hs' hgaps =>
            cases hc.symm.trans hc'
            cases hs.symm.trans hs'
            obtain ⟨d, hd⟩ := hgaps gap hgap
            cases hnone.symm.trans hd
        · refine .inner ?_ (.component hc hs hgap hd) herror
          rintro k ⟨⟩
          exact ⟨free, hfree⟩

/-- If a regular fragment is not rendered, it lacks something or something within it fails. -/
theorem fails_of_regular {statics : Option Statics} {children : Children}
    (h : (Fragment.regular statics children).render (components.render left) scopes.flatten = .error e) :
    components.Fails left ⟨scopes, .fragment (.regular statics children)⟩ e := by
  cases statics with
  | none =>
    cases h
    refine .missing ?_ (by rintro k ⟨⟩)
    intro hsupplied
    cases hsupplied
  | some statics =>
    rw [Fragment.render] at h
    split at h
    · rename_i htexts
      cases h
      refine .missing ?_ ?_
      · intro hsupplied
        cases hsupplied with
        | regular hs _ => cases htexts.symm.trans (Statics.texts_eq_ok_iff.mpr hs)
      · rintro id rfl
        exact Statics.error_of_texts htexts
    · rename_i texts htexts
      have hs := Statics.texts_eq_ok_iff.mp htexts
      rw [renderGap_eq] at h
      obtain ⟨gap, hgap, ⟨hnone, rfl⟩ | ⟨c, hc, herror⟩⟩ := error_of_interleave_fillFrom h
      · refine .missing ?_ (by rintro k ⟨⟩)
        intro hsupplied
        cases hsupplied with
        | regular hs' hgaps =>
          cases hs.symm.trans hs'
          obtain ⟨c, hc⟩ := hgaps gap hgap
          cases hnone.symm.trans hc
      · exact .inner (by rintro k ⟨⟩) (.gap hs hgap hc) herror

/-- If a comprehension is not rendered, it lacks something or something within it fails. -/
theorem fails_of_comprehension {statics : Option Statics} {rows : List Row} {own : Templates} {stream : Option Stream}
    (h : (Fragment.comprehension statics rows own stream).render (components.render left) scopes.flatten = .error e) :
    components.Fails left ⟨scopes, .fragment (.comprehension statics rows own stream)⟩ e := by
  cases statics with
  | none =>
    rw [Fragment.render, renderEachRow_eq] at h
    obtain ⟨row, hrow, hwriting⟩ := error_of_inTurn h
    obtain ⟨c, hc, herror⟩ := error_of_inTurn hwriting
    exact .inner (by rintro k ⟨⟩) (.bareCell hrow hc) herror
  | some statics =>
    rw [Fragment.render] at h
    split at h
    · rename_i htexts
      cases h
      refine .missing ?_ ?_
      · intro hsupplied
        cases hsupplied with
        | rows hs _ => cases htexts.symm.trans (Statics.texts_eq_ok_iff.mpr hs)
      · rintro id rfl
        exact Statics.error_of_texts htexts
    · rename_i texts htexts
      have hs : statics.textsIn? (own :: scopes) = some texts := Statics.texts_eq_ok_iff.mp htexts
      rw [renderRows_eq] at h
      obtain ⟨row, hrow, hwriting⟩ := error_of_inTurn h
      obtain ⟨gap, hgap, ⟨hnone, rfl⟩ | ⟨c, hc, herror⟩⟩ := error_of_interleave_fillFrom hwriting
      · refine .missing ?_ (by rintro k ⟨⟩)
        intro hsupplied
        cases hsupplied with
        | rows hs' hgaps =>
          cases hs.symm.trans hs'
          obtain ⟨c, hc⟩ := hgaps row hrow gap hgap
          cases hnone.symm.trans hc
      · exact .inner (by rintro k ⟨⟩) (.cell hs hrow hgap hc) herror

/-- If a place is not rendered, it lacks something, or something within it fails. -/
theorem fails_of_renderAt (h : components.renderAt left p = .error e) : components.Fails left p e := by
  obtain ⟨scopes, content⟩ := p
  rw [renderAt] at h
  cases content with
  | text s => cases h
  | component id => exact fails_of_component (by rwa [Child.render] at h)
  | fragment f =>
    rw [Child.render] at h
    cases f with
    | regular statics children => exact fails_of_regular h
    | comprehension statics rows own stream => exact fails_of_comprehension h

end Components

end LiveMarkup.Rendered
