import Mathlib.Data.Int.Order.Basic
import LiveMarkup.Rendered.Render
import LiveMarkup.Rendered.Merge
import LiveMarkup.Proofs.KeyedLists

/-!
# Rows that an update keeps

What a fragment renders to depends on the templates that it refers to and on no others: among templates that have the same
texts under these ids it renders to the same (`Fragment.render_of_covers`). A comprehension renders its rows one after the
other (`render_cons_row`), so what a row renders to is what the comprehension with this row alone renders to.

An update of a streamed comprehension adds templates to those that the comprehension declares, and a template that it declares
again takes the place of the one that was there, also for rows that it does not touch (`redeclared_template_changes_row`). So
rows stay as they are as long as the update gives the templates that they refer to no other texts (`merge_keeps_rows`).
-/

namespace LiveMarkup.Rendered

/-! ## The templates that a fragment refers to -/

mutual

/-- Whether a fragment refers to a template that must be declared around it. -/
def Fragment.refersTo (id : Int) : Fragment → Bool
  | .regular statics children => statics = some (.template id) || childrenReferTo id children
  | .comprehension statics rows own _ =>
    (Keyed.find? id own).isNone && (statics = some (.template id) || rowsReferTo id rows)

/-- Whether a dynamic refers to a template. A component refers to none. -/
def Child.refersTo (id : Int) : Child → Bool
  | .fragment f => f.refersTo id
  | .component _ => false
  | .text _ => false

/-- Whether one of the dynamics of a fragment refers to a template. -/
def childrenReferTo (id : Int) : List (Nat × Child) → Bool
  | [] => false
  | (_, c) :: rest => c.refersTo id || childrenReferTo id rest

/-- Whether one of the cells of a row refers to a template. -/
def rowRefersTo (id : Int) : List Child → Bool
  | [] => false
  | c :: rest => c.refersTo id || rowRefersTo id rest

/-- Whether one of the rows refers to a template. -/
def rowsReferTo (id : Int) : List (List Child) → Bool
  | [] => false
  | row :: rest => rowRefersTo id row || rowsReferTo id rest

end

/-- Templates that have the texts of others under the ids with a property, where the others have texts. -/
def Covers (p : Int → Prop) (templates templates' : Templates) : Prop :=
  ∀ id texts, p id → Keyed.find? id templates = some texts → Keyed.find? id templates' = some texts

section

variable {p q : Int → Prop} {templates templates' : Templates}

/-- Templates cover a part of what they cover. -/
theorem Covers.mono (h : Covers p templates templates') (hp : ∀ id, q id → p id) : Covers q templates templates' :=
  fun id texts hid => h id texts (hp id hid)

/-- Under the templates that a comprehension declares, those around it count for the other ids only. -/
theorem Covers.append {own : Templates} (h : Covers (fun id => Keyed.find? id own = none ∧ p id) templates templates') :
    Covers p (own ++ templates) (own ++ templates') := by
  intro id texts hid hfind
  rw [Keyed.find?_append] at hfind ⊢
  cases hown : Keyed.find? id own with
  | some found =>
    rw [hown] at hfind
    exact hfind
  | none =>
    rw [hown, Option.none_or] at hfind
    exact h id texts ⟨hown, hid⟩ hfind

/-- Statics have the texts that they had where the templates that they refer to are covered. -/
theorem Statics.texts_of_covers {statics : Statics} {texts : List String}
    (h : Covers (fun id => some statics = some (.template id)) templates templates')
    (htexts : statics.texts templates = .ok texts) : statics.texts templates' = .ok texts := by
  cases statics with
  | inline own => exact htexts
  | template id =>
    rw [Statics.texts] at htexts ⊢
    cases hfound : Keyed.find? id templates with
    | some found =>
      rw [hfound] at htexts
      rw [h id found rfl hfound]
      exact htexts
    | none =>
      rw [hfound] at htexts
      cases htexts

end

/-! ## Rendering among other templates -/

section

variable {component : Int → Rendering} {filling filling' : Nat → Rendering}

/-- Gaps are filled as before if each of them is. -/
theorem fillGaps_of_forall (h : ∀ gap markup, filling gap = .ok markup → filling' gap = .ok markup) {gap : Nat}
    {texts : List String} {markup : String} (hfill : fillGaps filling gap texts = .ok markup) :
    fillGaps filling' gap texts = .ok markup := by
  induction texts generalizing gap markup with
  | nil => exact hfill
  | cons text rest ih =>
    rw [fillGaps] at hfill ⊢
    split at hfill
    · cases hfill
    · rename_i filled hfilled
      split at hfill
      · cases hfill
      · rename_i more hmore
        rw [h gap filled hfilled, ih hmore]
        exact hfill

/-- Texts have the same between them if each of their gaps is filled as before. -/
theorem interleave_of_forall (h : ∀ gap markup, filling gap = .ok markup → filling' gap = .ok markup)
    {texts : List String} {markup : String} (hmarkup : interleave filling texts = .ok markup) :
    interleave filling' texts = .ok markup := by
  unfold interleave at hmarkup ⊢
  split at hmarkup
  · exact hmarkup
  · split at hmarkup
    · cases hmarkup
    · rename_i hmore
      simp only [fillGaps_of_forall h hmore]
      exact hmarkup

mutual

/-- A fragment renders to the same among templates that have the same texts under the ids that it refers to. -/
theorem Fragment.render_of_covers : ∀ {templates templates' : Templates} {markup : String} (f : Fragment),
    Covers (fun id => f.refersTo id) templates templates' → f.render component templates = .ok markup →
    f.render component templates' = .ok markup
  | _, _, _, .regular none _, _, h => by cases h
  | templates, templates', markup, .regular (some statics) children, hcovers, h => by
    rw [Fragment.render] at h ⊢
    split at h
    · cases h
    · rename_i texts htexts
      have hstatics := Statics.texts_of_covers (hcovers.mono fun id hid => by simp [Fragment.refersTo, hid]) htexts
      have hchildren : Covers (fun id => childrenReferTo id children) templates templates' :=
        hcovers.mono fun id hid => by simp [Fragment.refersTo, hid]
      rw [hstatics]
      exact interleave_of_forall (fun _ _ => renderGap_of_covers children hchildren) h
  | templates, templates', markup, .comprehension (some statics) rows own stream, hcovers, h => by
    rw [Fragment.render] at h ⊢
    split at h
    · cases h
    · rename_i texts htexts
      have hstatics := Statics.texts_of_covers
        (Covers.append (hcovers.mono fun id hid => by simp [Fragment.refersTo, hid.1, hid.2])) htexts
      have hrows : Covers (fun id => rowsReferTo id rows) (own ++ templates) (own ++ templates') :=
        Covers.append (hcovers.mono fun id hid => by simp [Fragment.refersTo, hid.1, hid.2])
      rw [hstatics]
      exact renderRows_of_covers rows hrows h
  | templates, templates', markup, .comprehension none rows own stream, hcovers, h => by
    rw [Fragment.render] at h ⊢
    refine renderEachRow_of_covers rows ?_ h
    exact Covers.append (hcovers.mono fun id hid => by simp [Fragment.refersTo, hid.1, hid.2])

/-- A dynamic is rendered as before where the templates that it refers to are covered. -/
theorem Child.render_of_covers : ∀ {templates templates' : Templates} {markup : String} (c : Child),
    Covers (fun id => c.refersTo id) templates templates' → c.render component templates = .ok markup →
    c.render component templates' = .ok markup
  | templates, templates', markup, .fragment f, hcovers, h => by
    rw [Child.render] at h ⊢
    exact Fragment.render_of_covers f (hcovers.mono fun id hid => by rwa [Child.refersTo]) h
  | _, _, _, .component id, _, h => by rwa [Child.render] at h ⊢
  | _, _, _, .text s, _, h => by rwa [Child.render] at h ⊢

/-- A gap is filled as before where the templates that children refer to are covered. -/
theorem renderGap_of_covers : ∀ {templates templates' : Templates} {markup : String} {gap : Nat}
    (children : List (Nat × Child)), Covers (fun id => childrenReferTo id children) templates templates' →
    renderGap component templates children gap = .ok markup → renderGap component templates' children gap = .ok markup
  | _, _, _, _, [], _, h => by cases h
  | templates, templates', markup, gap, (i, c) :: rest, hcovers, h => by
    rw [renderGap] at h ⊢
    split at h
    · rename_i hgap
      rw [if_pos hgap]
      exact Child.render_of_covers c (hcovers.mono fun id hid => by simp [childrenReferTo, hid]) h
    · rename_i hgap
      rw [if_neg hgap]
      exact renderGap_of_covers rest (hcovers.mono fun id hid => by simp [childrenReferTo, hid]) h

/-- A gap of a row is filled as before where the templates that the row refers to are covered. -/
theorem renderCell_of_covers : ∀ {templates templates' : Templates} {markup : String} {passed gap : Nat}
    (row : List Child), Covers (fun id => rowRefersTo id row) templates templates' →
    renderCell component templates row passed gap = .ok markup →
    renderCell component templates' row passed gap = .ok markup
  | _, _, _, _, _, [], _, h => by cases h
  | templates, templates', markup, passed, gap, c :: rest, hcovers, h => by
    rw [renderCell] at h ⊢
    split at h
    · rename_i hgap
      rw [if_pos hgap]
      exact Child.render_of_covers c (hcovers.mono fun id hid => by simp [rowRefersTo, hid]) h
    · rename_i hgap
      rw [if_neg hgap]
      exact renderCell_of_covers rest (hcovers.mono fun id hid => by simp [rowRefersTo, hid]) h

/-- Rows are rendered as before where the templates that they refer to are covered. -/
theorem renderRows_of_covers : ∀ {templates templates' : Templates} {texts : List String} {markup : String}
    (rows : List (List Child)), Covers (fun id => rowsReferTo id rows) templates templates' →
    renderRows component templates texts rows = .ok markup → renderRows component templates' texts rows = .ok markup
  | _, _, _, _, [], _, h => h
  | templates, templates', texts, markup, row :: rest, hcovers, h => by
    rw [renderRows] at h ⊢
    split at h
    · cases h
    · rename_i first hfirst
      split at h
      · cases h
      · rename_i more hmore
        have hrow : Covers (fun id => rowRefersTo id row) templates templates' :=
          hcovers.mono fun id hid => by simp [rowsReferTo, hid]
        have hrest : Covers (fun id => rowsReferTo id rest) templates templates' :=
          hcovers.mono fun id hid => by simp [rowsReferTo, hid]
        rw [interleave_of_forall (fun _ _ => renderCell_of_covers row hrow) hfirst, renderRows_of_covers rest hrest hmore]
        exact h

/-- Rows without texts are rendered as before where the templates that they refer to are covered. -/
theorem renderEachRow_of_covers : ∀ {templates templates' : Templates} {markup : String} (rows : List (List Child)),
    Covers (fun id => rowsReferTo id rows) templates templates' →
    renderEachRow component templates rows = .ok markup → renderEachRow component templates' rows = .ok markup
  | _, _, _, [], _, h => h
  | templates, templates', markup, row :: rest, hcovers, h => by
    rw [renderEachRow] at h ⊢
    split at h
    · cases h
    · rename_i first hfirst
      split at h
      · cases h
      · rename_i more hmore
        have hrow := renderCells_of_covers row (hcovers.mono fun id hid => by simp [rowsReferTo, hid]) hfirst
        have hrest := renderEachRow_of_covers rest (hcovers.mono fun id hid => by simp [rowsReferTo, hid]) hmore
        rw [hrow, hrest]
        exact h

/-- The dynamics of a row without texts are rendered as before where the templates that it refers to are covered. -/
theorem renderCells_of_covers : ∀ {templates templates' : Templates} {markup : String} (row : List Child),
    Covers (fun id => rowRefersTo id row) templates templates' →
    renderCells component templates row = .ok markup → renderCells component templates' row = .ok markup
  | _, _, _, [], _, h => h
  | templates, templates', markup, c :: rest, hcovers, h => by
    rw [renderCells] at h ⊢
    split at h
    · cases h
    · rename_i first hfirst
      split at h
      · cases h
      · rename_i more hmore
        have hcell := Child.render_of_covers c (hcovers.mono fun id hid => by simp [rowRefersTo, hid]) hfirst
        have hrest := renderCells_of_covers rest (hcovers.mono fun id hid => by simp [rowRefersTo, hid]) hmore
        rw [hcell, hrest]
        exact h

end

end

/-! ## Rows of comprehensions -/

/-- A comprehension with other rows. -/
def Fragment.withRows (rows : List Row) : Fragment → Fragment
  | .comprehension statics _ own stream => .comprehension statics rows own stream
  | .regular statics children => .regular statics children

/-- The rows of a comprehension are rendered one after the other, each for itself. -/
theorem render_cons_row (component : Int → Rendering) (templates : Templates) (statics : Option Statics) (row : Row)
    (rest : List Row) (own : Templates) (stream : Option Stream) :
    (Fragment.comprehension statics (row :: rest) own stream).render component templates =
      match (Fragment.comprehension statics [row] own stream).render component templates with
      | .error e => .error e
      | .ok markup =>
        match (Fragment.comprehension statics rest own stream).render component templates with
        | .error e => .error e
        | .ok more => .ok (markup ++ more) := by
  cases statics with
  | none =>
    simp only [Fragment.render, renderEachRow]
    cases renderCells component (own ++ templates) row with
    | error e => rfl
    | ok markup =>
      cases renderEachRow component (own ++ templates) rest with
      | error e => rfl
      | ok more => simp only [String.append_empty]
  | some statics =>
    simp only [Fragment.render]
    cases statics.texts (own ++ templates) with
    | error e => rfl
    | ok texts =>
      simp only [renderRows]
      cases interleave (renderCell component (own ++ templates) row 0) texts with
      | error e => rfl
      | ok markup =>
        cases renderRows component (own ++ templates) texts rest with
        | error e => rfl
        | ok more => simp only [String.append_empty]

/-- A row of a comprehension that declares other templates renders to the same if these have the same texts under the ids
that the row and the statics around it refer to. -/
theorem render_row_of_covers {component : Int → Rendering} {outer own own' : Templates} {statics : Option Statics} {row : Row}
    {stream stream' : Option Stream} {markup : String}
    (hcovers : Covers (fun id => statics = some (.template id) ∨ rowRefersTo id row) (own ++ outer) (own' ++ outer))
    (h : (Fragment.comprehension statics [row] own stream).render component outer = .ok markup) :
    (Fragment.comprehension statics [row] own' stream').render component outer = .ok markup := by
  have hrow : Covers (fun id => rowsReferTo id [row]) (own ++ outer) (own' ++ outer) :=
    hcovers.mono fun id hid => .inr (by simpa [rowsReferTo] using hid)
  cases statics with
  | none =>
    rw [Fragment.render] at h ⊢
    exact renderEachRow_of_covers [row] hrow h
  | some statics =>
    rw [Fragment.render] at h ⊢
    split at h
    · cases h
    · rename_i texts htexts
      rw [Statics.texts_of_covers (hcovers.mono fun id => Or.inl) htexts]
      exact renderRows_of_covers [row] hrow h

/-- Templates that are added keep the texts of those that are there, unless they are declared with others. -/
theorem covers_insertAll {p : Int → Prop} {own added outer : Templates}
    (h : ∀ id texts other, p id → Keyed.find? id (own ++ outer) = some texts → (id, other) ∈ added → other = texts) :
    Covers p (own ++ outer) (Keyed.insertAll own added ++ outer) := by
  intro id texts hid hfind
  rw [Keyed.find?_append, Keyed.find?_insertAll, Option.or_assoc, ← Keyed.find?_append]
  cases hadded : Keyed.find? id added.reverse with
  | none => exact hfind
  | some other =>
    have hmem := List.mem_reverse.mp (Keyed.mem_of_find? hadded)
    rw [h id texts other hid hfind hmem]
    rfl

/-- An update of a streamed comprehension edits its rows and adds templates. A row renders as it did before, unless the update
gives another text to a template that the row or the statics around it refer to. -/
theorem merge_keeps_rows (statics : Option Statics) (rows : List Row) (templates : Templates) (current : Stream)
    (incoming : List Row) (added : Templates) (update : Stream) (hid : current.id = update.id) :
    ∃ merged, (Fragment.comprehension statics rows templates (some current)).merge
        (.comprehension none incoming added (some update)) = .ok merged ∧
      (∃ all, merged = .comprehension statics (applyStream rows incoming update) all (some update.settled)) ∧
      ∀ (component : Int → Rendering) (outer : Templates) (row : Row) (markup : String),
        (∀ id texts other, statics = some (.template id) ∨ rowRefersTo id row →
          Keyed.find? id (templates ++ outer) = some texts → (id, other) ∈ added → other = texts) →
        (Fragment.comprehension statics [row] templates (some current)).render component outer = .ok markup →
        (merged.withRows [row]).render component outer = .ok markup := by
  refine ⟨.comprehension statics (applyStream rows incoming update) (Keyed.insertAll templates added)
    (some update.settled), ?_, ⟨_, rfl⟩, ?_⟩
  · rw [Fragment.merge, mergeRows, if_pos hid]
  · intro component outer row markup hsame h
    exact render_row_of_covers (covers_insertAll hsame) h

/-! ### A list with one bold row -/

/-- A row that refers to a template. -/
def templateRow (id title : String) : Row :=
  [.text s!" id=\"{id}\"", .fragment (.regular (some (.template 0)) [(0, .text title)])]

/-- A stream in which nothing is to be done. -/
def settledItems : Stream :=
  ⟨"items", [], [], false⟩

/-- The stream with a row to put in. -/
def insertedItem : Stream :=
  { settledItems with inserts := [⟨"b", -1, none⟩] }

/-- A streamed list with one row, whose template is declared as bold. -/
def boldItems : Fragment :=
  .comprehension (some (.inline ["<li", ">", "</li>"])) [templateRow "a" "x"] [(0, ["<b>", "</b>"])] (some settledItems)

/-- A further row and the template of a further row; the template that is there is declared again as it is. -/
def moreItems : Fragment :=
  .comprehension none [templateRow "b" "y"] [(0, ["<b>", "</b>"]), (1, ["<i>", "</i>"])]
    (some insertedItem)

/-- No rows, but another text for the template that is there. -/
def italicTemplate : Fragment :=
  .comprehension none [] [(0, ["<i>", "</i>"])] (some settledItems)

/-- The row renders as before when another one comes in. -/
theorem kept_row_renders_same : settledItems.id = insertedItem.id ∧
    ∃ merged, boldItems.merge moreItems = .ok merged ∧
      (boldItems.withRows [templateRow "a" "x"]).render (Components.render [] []) [] =
        .ok "<li id=\"a\"><b>x</b></li>" ∧
      (merged.withRows [templateRow "a" "x"]).render (Components.render [] []) [] =
        .ok "<li id=\"a\"><b>x</b></li>" := by
  obtain ⟨merged, hmerged, _, hrows⟩ := merge_keeps_rows (some (.inline ["<li", ">", "</li>"])) [templateRow "a" "x"]
    [(0, ["<b>", "</b>"])] settledItems [templateRow "b" "y"] [(0, ["<b>", "</b>"]), (1, ["<i>", "</i>"])]
    insertedItem rfl
  refine ⟨rfl, merged, hmerged, rfl, hrows _ [] _ _ ?_ rfl⟩
  intro id texts other _ hfind hadded
  obtain rfl : id = 0 := by
    by_contra hne
    simp [Keyed.find?, Ne.symm hne] at hfind
  simp_all [Keyed.find?]

/-- The update does nothing to the row, but the row renders with the other text for its template. -/
theorem redeclared_template_changes_row :
    ∃ merged, boldItems.merge italicTemplate = .ok merged ∧
      merged = .comprehension (some (.inline ["<li", ">", "</li>"])) [templateRow "a" "x"] [(0, ["<i>", "</i>"])]
        (some settledItems) ∧
      (boldItems.withRows [templateRow "a" "x"]).render (Components.render [] []) [] =
        .ok "<li id=\"a\"><b>x</b></li>" ∧
      (merged.withRows [templateRow "a" "x"]).render (Components.render [] []) [] =
        .ok "<li id=\"a\"><i>x</i></li>" :=
  ⟨_, rfl, rfl, rfl, rfl⟩

end LiveMarkup.Rendered
