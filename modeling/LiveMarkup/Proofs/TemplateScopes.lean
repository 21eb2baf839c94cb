import LiveMarkup.Proofs.RenderOutcomes

/-!
# Templates by their places

What a reference to a template means is told by where it stands: it means the declaration of the nearest comprehension around
it, the one that refers included, as long as this is within the same component. So references may be replaced by the texts
that are declared for them (`Root.inlined`) without a change to what the description renders to, and in a description in which
each of them has a declaration none is left. A reference without a declaration that is reached lets rendering fail
(`Root.templates_by_place`).
-/

namespace LiveMarkup.Rendered

/-! ## Dynamics in dynamics -/

/-- What holds of texts and components, and of a fragment if it holds of all the dynamics in it, holds of all dynamics. -/
@[elab_as_elim]
theorem Child.inductionOnPlaces {p : Child → Prop} (text : ∀ s, p (.text s)) (component : ∀ id, p (.component id))
    (regular : ∀ statics children, (∀ gap c, (gap, c) ∈ children → p c) → p (.fragment (.regular statics children)))
    (comprehension : ∀ statics rows own stream, (∀ row ∈ rows, ∀ c ∈ row, p c) →
      p (.fragment (.comprehension statics rows own stream))) :
    ∀ c : Child, p c
  | .text s => text s
  | .component id => component id
  | .fragment (.regular statics children) =>
    regular statics children fun _ c _hmem => Child.inductionOnPlaces text component regular comprehension c
  | .fragment (.comprehension statics rows own stream) =>
    comprehension statics rows own stream fun _ _hrow c _hmem =>
      Child.inductionOnPlaces text component regular comprehension c
termination_by c => sizeOf c
decreasing_by
  · have := List.sizeOf_lt_of_mem _hmem
    simp only [Prod.mk.sizeOf_spec] at this
    simp only [Child.fragment.sizeOf_spec, Fragment.regular.sizeOf_spec]
    omega
  · have := List.sizeOf_lt_of_mem _hrow
    have := List.sizeOf_lt_of_mem _hmem
    simp only [Child.fragment.sizeOf_spec, Fragment.comprehension.sizeOf_spec]
    omega

/-! ## References and declarations -/

/-- Each reference in a dynamic has a declaration, be it in the dynamic or around it. -/
inductive Child.ScopedIn : Scopes → Child → Prop
  | text {scopes : Scopes} {s : String} : ScopedIn scopes (.text s)
  | component {scopes : Scopes} {id : Int} : ScopedIn scopes (.component id)
  | regular {scopes : Scopes} {statics : Option Statics} {children : Children}
      (hs : ∀ id, statics = some (.template id) → ∃ texts, scopes.nearest? id = some texts)
      (h : ∀ gap c, (gap, c) ∈ children → ScopedIn scopes c) : ScopedIn scopes (.fragment (.regular statics children))
  | comprehension {scopes : Scopes} {statics : Option Statics} {rows : List Row} {own : Templates} {stream : Option Stream}
      (hs : ∀ id, statics = some (.template id) → ∃ texts, Scopes.nearest? (own :: scopes) id = some texts)
      (h : ∀ row ∈ rows, ∀ c ∈ row, ScopedIn (own :: scopes) c) :
      ScopedIn scopes (.fragment (.comprehension statics rows own stream))

/-- There is no reference in a dynamic. -/
inductive Child.Inline : Child → Prop
  | text {s : String} : Inline (.text s)
  | component {id : Int} : Inline (.component id)
  | regular {statics : Option Statics} {children : Children} (hs : ∀ id, statics ≠ some (.template id))
      (h : ∀ gap c, (gap, c) ∈ children → Inline c) : Inline (.fragment (.regular statics children))
  | comprehension {statics : Option Statics} {rows : List Row} {own : Templates} {stream : Option Stream}
      (hs : ∀ id, statics ≠ some (.template id)) (h : ∀ row ∈ rows, ∀ c ∈ row, Inline c) :
      Inline (.fragment (.comprehension statics rows own stream))

/-- Each reference in a description has a declaration in the same component, or in the fragment. -/
def Root.Scoped (r : Root) : Prop :=
  (Child.fragment r.fragment).ScopedIn [] ∧
    ∀ entry ∈ r.components, ∀ gap c, (gap, c) ∈ entry.2.children → c.ScopedIn []

/-- There is no reference in a description. -/
def Root.Inline (r : Root) : Prop :=
  (Child.fragment r.fragment).Inline ∧ ∀ entry ∈ r.components, ∀ gap c, (gap, c) ∈ entry.2.children → c.Inline

/-- What declarations there are around the statics of a fragment. -/
def Fragment.scopesIn (scopes : Scopes) : Fragment → Scopes
  | .regular _ _ => scopes
  | .comprehension _ _ own _ => own :: scopes

/-! ## Replacing references -/

/-- The texts of the nearest declaration in place of a reference. -/
def Statics.inlined (scopes : Scopes) (statics : Statics) : Statics :=
  match statics.textsIn? scopes with
  | some texts => .inline texts
  | none => statics

mutual

/-- A fragment with declared texts in place of references. -/
def Fragment.inlined (scopes : Scopes) : Fragment → Fragment
  | .regular statics children => .regular (statics.map (Statics.inlined scopes)) (inlinedChildren scopes children)
  | .comprehension statics rows own stream =>
    .comprehension (statics.map (Statics.inlined (own :: scopes))) (inlinedRows (own :: scopes) rows) own stream

/-- A dynamic with declared texts in place of references. -/
def Child.inlined (scopes : Scopes) : Child → Child
  | .fragment f => .fragment (f.inlined scopes)
  | .component id => .component id
  | .text s => .text s

/-- The dynamics of a fragment with declared texts in place of references. -/
def inlinedChildren (scopes : Scopes) : List (Nat × Child) → List (Nat × Child)
  | [] => []
  | (gap, c) :: rest => (gap, c.inlined scopes) :: inlinedChildren scopes rest

/-- The cells of a row with declared texts in place of references. -/
def inlinedRow (scopes : Scopes) : List Child → List Child
  | [] => []
  | c :: rest => c.inlined scopes :: inlinedRow scopes rest

/-- Rows with declared texts in place of references. -/
def inlinedRows (scopes : Scopes) : List (List Child) → List (List Child)
  | [] => []
  | row :: rest => inlinedRow scopes row :: inlinedRows scopes rest

end

/-- A component with declared texts in place of references. What is declared around it does not count. -/
def Component.inlined (c : Component) : Component :=
  { c with children := inlinedChildren [] c.children }

/-- Components with declared texts in place of references. -/
def Components.inlined (components : Components) : Components :=
  components.map fun entry => (entry.1, entry.2.inlined)

/-- A description with declared texts in place of references. -/
def Root.inlined (r : Root) : Root :=
  ⟨r.fragment.inlined [], r.components.inlined⟩

section

variable {scopes : Scopes} {statics : Statics} {id : Int}

/-- Children are written out each for itself. -/
theorem inlinedChildren_eq_map (scopes : Scopes) (children : Children) :
    inlinedChildren scopes children = children.map fun entry => (entry.1, entry.2.inlined scopes) := by
  induction children with
  | nil => rw [inlinedChildren, List.map_nil]
  | cons entry rest ih => rw [inlinedChildren, ih, List.map_cons]

/-- The dynamics of a row are written out each for itself. -/
theorem inlinedRow_eq_map (scopes : Scopes) (row : Row) : inlinedRow scopes row = row.map (Child.inlined scopes) := by
  induction row with
  | nil => rw [inlinedRow, List.map_nil]
  | cons c rest ih => rw [inlinedRow, ih, List.map_cons]

/-- The dynamics of rows are written out each for itself. -/
theorem inlinedRows_eq_map (scopes : Scopes) (rows : List Row) :
    inlinedRows scopes rows = rows.map fun row => row.map (Child.inlined scopes) := by
  induction rows with
  | nil => rw [inlinedRows, List.map_nil]
  | cons row rest ih => rw [inlinedRows, ih, inlinedRow_eq_map, List.map_cons]

/-- Where references have declarations, none is left. -/
theorem Statics.inlined_ne_template (h : ∀ id, statics = .template id → ∃ texts, scopes.nearest? id = some texts) :
    statics.inlined scopes ≠ .template id := by
  cases statics with
  | inline texts => rintro ⟨⟩
  | template k =>
    obtain ⟨texts, htexts⟩ := h k rfl
    rw [Statics.inlined, Statics.textsIn?, htexts]
    rintro ⟨⟩

/-- Statics that are written out have the texts that they had. -/
theorem Statics.texts_inlined (scopes : Scopes) (statics : Statics) :
    (statics.inlined scopes).texts scopes.flatten = statics.texts scopes.flatten := by
  rw [Statics.inlined]
  split
  · rename_i texts htexts
    rw [Statics.texts_eq_ok_iff.mpr htexts]
    rfl
  · rfl

end

/-- A dynamic whose templates are all declared refers to none when it is written out. -/
theorem Child.inline_inlined {scopes : Scopes} (c : Child) (h : c.ScopedIn scopes) : (c.inlined scopes).Inline := by
  induction c using Child.inductionOnPlaces generalizing scopes with
  | text s => exact .text
  | component id => exact .component
  | regular statics children ih =>
    cases h with
    | regular hs h =>
      refine .regular ?_ ?_
      · rintro id hid
        obtain ⟨own, rfl, hown⟩ := Option.map_eq_some_iff.mp hid
        exact Statics.inlined_ne_template (fun k hk => hs k (congrArg some hk)) hown
      · intro gap c hmem
        rw [inlinedChildren_eq_map, List.mem_map] at hmem
        obtain ⟨entry, hentry, heq⟩ := hmem
        cases heq
        exact ih entry.1 entry.2 hentry (h entry.1 entry.2 hentry)
  | comprehension statics rows own stream ih =>
    cases h with
    | comprehension hs h =>
      refine .comprehension ?_ ?_
      · rintro id hid
        obtain ⟨own, rfl, hown⟩ := Option.map_eq_some_iff.mp hid
        exact Statics.inlined_ne_template (fun k hk => hs k (congrArg some hk)) hown
      · intro row hrow c hc
        rw [inlinedRows_eq_map, List.mem_map] at hrow
        obtain ⟨before, hbefore, rfl⟩ := hrow
        obtain ⟨cell, hcell, rfl⟩ := List.mem_map.mp hc
        exact ih before hbefore cell hcell (h before hbefore cell hcell)

/-! ## Rendering -/

section

variable {component : Int → Rendering} {templates : Templates}

/-- Dynamics that are rendered alike fill gaps alike. -/
theorem fillFrom_map {dynamic? : Nat → Option Child} (f : Child → Child)
    (h : ∀ gap c, dynamic? gap = some c → (f c).render component templates = c.render component templates) :
    fillFrom component templates (fun gap => (dynamic? gap).map f) = fillFrom component templates dynamic? := by
  funext gap
  rw [fillFrom, fillFrom]
  cases hc : dynamic? gap with
  | none => rfl
  | some c => exact h gap c hc

/-- Entries that are written alike are written alike in turn. -/
theorem inTurn_map {α : Type} {write : α → Rendering} {entries : List α} (f : α → α)
    (h : ∀ a ∈ entries, write (f a) = write a) : inTurn write (entries.map f) = inTurn write entries := by
  induction entries with
  | nil => rfl
  | cons a rest ih =>
    rw [List.map_cons, inTurn, inTurn, h a List.mem_cons_self, ih fun b hb => h b (List.mem_cons_of_mem _ hb)]

/-- Gaps are filled alike when the dynamics are written out, if these are rendered alike. -/
theorem renderGap_inlined {scopes : Scopes} {children : Children}
    (h : ∀ gap c, (gap, c) ∈ children → (c.inlined scopes).render component templates = c.render component templates) :
    renderGap component templates (inlinedChildren scopes children) = renderGap component templates children := by
  have hfind : (fun gap => Keyed.find? gap (inlinedChildren scopes children)) =
      fun gap => (Keyed.find? gap children).map (Child.inlined scopes) := by
    funext gap
    rw [inlinedChildren_eq_map, Keyed.find?_map]
  rw [renderGap_eq, renderGap_eq, hfind]
  exact fillFrom_map _ fun gap c hc => h gap c (Keyed.mem_of_find? hc)

/-- What a dynamic renders to stays where references are replaced by what is declared for them. -/
theorem Child.render_inlined (component : Int → Rendering) (scopes : Scopes) (c : Child) :
    (c.inlined scopes).render component scopes.flatten = c.render component scopes.flatten := by
  induction c using Child.inductionOnPlaces generalizing scopes with
  | text s => rw [Child.inlined]
  | component id => rw [Child.inlined]
  | regular statics children ih =>
    rw [Child.inlined, Fragment.inlined, Child.render, Child.render]
    cases statics with
    | none => rfl
    | some statics =>
      rw [Option.map_some, Fragment.render, Fragment.render, Statics.texts_inlined,
        renderGap_inlined fun gap c hc => ih gap c hc scopes]
  | comprehension statics rows own stream ih =>
    have hrow : ∀ row ∈ rows, ∀ c ∈ row, (c.inlined (own :: scopes)).render component (own ++ scopes.flatten) =
        c.render component (own ++ scopes.flatten) := fun row hrow c hc => ih row hrow c hc (own :: scopes)
    rw [Child.inlined, Fragment.inlined, Child.render, Child.render, inlinedRows_eq_map]
    cases statics with
    | none =>
      rw [Option.map_none, Fragment.render, Fragment.render, renderEachRow_eq, renderEachRow_eq]
      exact inTurn_map _ fun row hmem => inTurn_map _ (hrow row hmem)
    | some statics =>
      have htexts := Statics.texts_inlined (own :: scopes) statics
      rw [List.flatten_cons] at htexts
      rw [Option.map_some, Fragment.render, Fragment.render, htexts]
      cases statics.texts (own ++ scopes.flatten) with
      | error e => rfl
      | ok texts =>
        simp only [renderRows_eq]
        refine inTurn_map _ fun row hmem => ?_
        have hcells : fillFrom component (own ++ scopes.flatten)
              (fun gap => (row.map (Child.inlined (own :: scopes)))[gap]?) =
            fillFrom component (own ++ scopes.flatten) fun gap => row[gap]? := by
          simp only [List.getElem?_map]
          exact fillFrom_map _ fun gap c hc => hrow row hmem c (List.mem_of_getElem? hc)
        rw [hcells]

end

namespace Components

/-- A component is found where it was, written out. -/
theorem find?_inlined (components : Components) (id : Int) :
    Keyed.find? id components.inlined = (Keyed.find? id components).map Component.inlined :=
  Keyed.find?_map _ _ _

/-- Down to any depth a component is rendered as before when all are written out: templates that are declared around it are
not around its dynamics. -/
theorem renderTo_inlined (bottom : Rendering) (components : Components) (depth : Nat) (active : List Int) (id : Int) :
    renderTo bottom components.inlined depth active id = renderTo bottom components depth active id := by
  induction depth generalizing active id with
  | zero => rfl
  | succ depth ih =>
    have hinner : renderTo bottom components.inlined depth = renderTo bottom components depth := by
      funext active id
      exact ih active id
    rw [renderTo, renderTo, hinner, find?_inlined]
    split
    · rfl
    · cases Keyed.find? id components with
      | none => rfl
      | some c =>
        obtain ⟨statics, children⟩ := c
        cases statics with
        | shared source => rfl
        | inline texts =>
          have hgap : renderGap (renderTo bottom components depth (id :: active)) [] (inlinedChildren [] children) =
              renderGap (renderTo bottom components depth (id :: active)) [] children :=
            renderGap_inlined fun _ c _ => c.render_inlined _ []
          simp only [Option.map_some, Component.inlined, hgap]

end Components

namespace Root

/-- A description is rendered as before when it is written out. -/
theorem render_inlined (r : Root) : r.inlined.render = r.render := by
  have hlength : r.inlined.components.length = r.components.length := List.length_map _
  have hcomponents : Components.renderTo (.ok "") r.inlined.components (r.components.length + 1) [] =
      Components.renderTo (.ok "") r.components (r.components.length + 1) [] := by
    funext id
    exact Components.renderTo_inlined _ _ _ _ _
  calc r.inlined.render = r.inlined.renderTo (.ok "") (r.components.length + 1) :=
        (renderTo_eq (by rw [hlength]; exact Nat.lt_succ_self _)).symm
    _ = (r.fragment.inlined []).render (Components.renderTo (.ok "") r.components (r.components.length + 1) []) [] := by
        rw [renderTo, hcomponents]
        rfl
    _ = r.renderTo (.ok "") (r.components.length + 1) := by
        have hfragment := (Child.fragment r.fragment).render_inlined
          (Components.renderTo (.ok "") r.components (r.components.length + 1) []) []
        rwa [Child.inlined, Child.render, Child.render] at hfragment
    _ = r.render := renderTo_eq (Nat.lt_succ_self _)

/-- A description whose templates are all declared refers to none when it is written out. -/
theorem inline_inlined {r : Root} (h : r.Scoped) : r.inlined.Inline := by
  refine ⟨?_, ?_⟩
  · have := (Child.fragment r.fragment).inline_inlined h.1
    rwa [Child.inlined] at this
  · intro entry hentry gap c hc
    obtain ⟨before, hbefore, rfl⟩ := List.mem_map.mp hentry
    rw [Component.inlined, inlinedChildren_eq_map] at hc
    obtain ⟨child, hchild, heq⟩ := List.mem_map.mp hc
    cases heq
    exact child.2.inline_inlined (h.2 before hbefore child.1 child.2 hchild)

/-- A fragment that refers to a template without a declaration cannot be rendered. -/
theorem not_supplied_of_nearest? {components : Components} {p : Place} {f : Fragment} {id : Int}
    (hp : p.content = .fragment f) (hs : f.statics = some (.template id)) (hnone : (f.scopesIn p.scopes).nearest? id = none) :
    ¬ components.Supplied p := by
  intro hsupplied
  cases hsupplied with
  | text => cases hp
  | component => cases hp
  | bareRows =>
    cases hp
    cases hs
  | regular htexts _ =>
    cases hp
    cases hs
    cases hnone.symm.trans htexts
  | rows htexts _ =>
    cases hp
    cases hs
    cases hnone.symm.trans htexts

/-- Declared texts may stand in place of the references to them, and then no reference is left if all of them have
declarations. A reference without one, of those around it in the same component, is not rendered: if it is reached, rendering
fails. -/
theorem templates_by_place (r : Root) : r.inlined.render = r.render ∧ (r.Scoped → r.inlined.Inline) ∧
    ∀ p f id, r.Reaches p → p.content = .fragment f → f.statics = some (.template id) →
      (f.scopesIn p.scopes).nearest? id = none → ∃ e, r.render = .error e := by
  refine ⟨render_inlined r, inline_inlined, ?_⟩
  intro p f id hreached hp hs hnone
  cases h : r.render with
  | error e => exact ⟨e, rfl⟩
  | ok markup => exact absurd (supplied_of_render h hreached) (not_supplied_of_nearest? hp hs hnone)

/-- A comprehension in another one that declares the same template. -/
def shadowing : Root :=
  ⟨.comprehension none [[.fragment (.regular (some (.template 0)) [(0, .text "a")]),
      .fragment (.comprehension (some (.template 0)) [[.text "b"]] [(0, ["<b>", "</b>"])] none)]]
    [(0, ["<i>", "</i>"])] none, []⟩

/-- A component in a comprehension that declares a template the component refers to. -/
def enclosing : Root :=
  ⟨.comprehension none [[.component 1]] [(0, ["<i>", "</i>"])] none,
    [(1, ⟨.inline ["<p>", "</p>"], [(0, .fragment (.regular (some (.template 0)) [(0, .text "a")]))]⟩)]⟩

/-- All templates of the description are declared. -/
theorem scoped_shadowing : shadowing.Scoped := by
  refine ⟨.comprehension nofun ?_, fun _ hentry => absurd hentry List.not_mem_nil⟩
  intro row hrow c hc
  cases List.mem_singleton.mp hrow
  rcases List.mem_pair.mp hc with rfl | rfl
  · refine .regular ?_ ?_
    · rintro id ⟨⟩
      exact ⟨["<i>", "</i>"], rfl⟩
    · intro gap c hc
      cases List.mem_singleton.mp hc
      exact .text
  · refine .comprehension ?_ ?_
    · rintro id ⟨⟩
      exact ⟨["<b>", "</b>"], rfl⟩
    · intro row hrow c hc
      cases List.mem_singleton.mp hrow
      cases List.mem_singleton.mp hc
      exact .text

/-- The nearest declaration counts, and none outside of the component does. -/
theorem nearest_template_counts : shadowing.Scoped ∧ shadowing.inlined.Inline ∧
    shadowing.inlined.render = .ok "<i>a</i><b>b</b>" ∧
    enclosing.Reaches ⟨[], .fragment (.regular (some (.template 0)) [(0, .text "a")])⟩ ∧ ∃ e, enclosing.render = .error e := by
  obtain ⟨hsame, hinline, -⟩ := templates_by_place shadowing
  obtain ⟨-, -, hfails⟩ := templates_by_place enclosing
  have hreached : enclosing.Reaches ⟨[], .fragment (.regular (some (.template 0)) [(0, .text "a")])⟩ := by
    have hcell : enclosing.components.Unfolds ⟨[], .fragment enclosing.fragment⟩ ⟨[[(0, ["<i>", "</i>"])]], .component 1⟩ :=
      .bareCell (List.mem_singleton.mpr rfl) (List.mem_singleton.mpr rfl)
    have hdynamic : enclosing.components.Unfolds ⟨[[(0, ["<i>", "</i>"])]], .component 1⟩
        ⟨[], .fragment (.regular (some (.template 0)) [(0, .text "a")])⟩ :=
      .component rfl rfl (show 0 + 1 < ["<p>", "</p>"].length by decide) rfl
    exact (Relation.ReflTransGen.single hcell).tail hdynamic
  have hrender : shadowing.render = .ok "<i>a</i><b>b</b>" := by cbv
  exact ⟨scoped_shadowing, hinline scoped_shadowing, hsame.trans hrender, hreached, hfails _ _ 0 hreached rfl rfl rfl⟩

end Root

end LiveMarkup.Rendered
