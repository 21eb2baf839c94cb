import LiveMarkup.Rendered.Basic

/-!
# Rendering a description

Statics and dynamics are written in turn, the first text, the first dynamic, the second text, and so on. A comprehension
writes its statics once for each row. A template is looked up in the comprehensions around a fragment, the nearest first; a
component is rendered for itself, so templates around it mean nothing inside it.
-/

namespace LiveMarkup.Rendered

/-- Why a description cannot be rendered. -/
inductive RenderError
  | missingStatics
  | templateNotFound (id : Int)
  | missingChild (gap : Nat)
  | componentNotFound (id : Int)
  | componentCycle (id : Int)
  | unresolvedStatics (id : Int)
deriving DecidableEq, Repr

/-- The text of the error. -/
def RenderError.message : RenderError → String
  | missingStatics => "fragment has no statics"
  | templateNotFound id => s!"template {id} not found"
  | missingChild gap => s!"dynamic child {gap} not found"
  | componentNotFound id => s!"component {id} not found"
  | componentCycle id => s!"component {id} renders itself"
  | unresolvedStatics id => s!"component {id} has unresolved shared statics"

/-- Markup, or why there is none. -/
abbrev Rendering := Except RenderError String

/-- The texts that statics stand for among templates. -/
def Statics.texts (templates : Templates) : Statics → Except RenderError (List String)
  | inline texts => .ok texts
  | template id =>
    match Keyed.find? id templates with
    | some texts => .ok texts
    | none => .error (.templateNotFound id)

/-- The texts after a number of gaps, each with the filling of the gap before it. -/
def fillGaps (filling : Nat → Rendering) : (gap : Nat) → List String → Rendering
  | _, [] => .ok ""
  | gap, text :: rest =>
    match filling gap with
    | .error e => .error e
    | .ok filled =>
      match fillGaps filling (gap + 1) rest with
      | .error e => .error e
      | .ok more => .ok (filled ++ text ++ more)

/-- Texts with fillings in the gaps between them. -/
def interleave (filling : Nat → Rendering) : List String → Rendering
  | [] => .ok ""
  | text :: rest =>
    match fillGaps filling 0 rest with
    | .error e => .error e
    | .ok more => .ok (text ++ more)

mutual

/-- The markup of a fragment, among templates and given the markup of components. -/
def Fragment.render (component : Int → Rendering) (templates : Templates) : Fragment → Rendering
  | .regular none _ => .error .missingStatics
  | .regular (some statics) children =>
    match statics.texts templates with
    | .error e => .error e
    | .ok texts => interleave (renderGap component templates children) texts
  | .comprehension (some statics) rows own _ =>
    match statics.texts (own ++ templates) with
    | .error e => .error e
    | .ok texts => renderRows component (own ++ templates) texts rows
  | .comprehension none rows own _ => renderEachRow component (own ++ templates) rows

/-- The markup of a dynamic. -/
def Child.render (component : Int → Rendering) (templates : Templates) : Child → Rendering
  | .fragment f => f.render component templates
  | .component id => component id
  | .text s => .ok s

/-- The markup of the dynamic that fills a gap. -/
def renderGap (component : Int → Rendering) (templates : Templates) :
    (children : List (Nat × Child)) → (gap : Nat) → Rendering
  | [], gap => .error (.missingChild gap)
  | (i, c) :: rest, gap => if i = gap then c.render component templates else renderGap component templates rest gap

/-- The markup of the cell of a row that fills a gap; the cells before a row's rest have been passed. -/
def renderCell (component : Int → Rendering) (templates : Templates) : (row : List Child) → (passed gap : Nat) → Rendering
  | [], _, gap => .error (.missingChild gap)
  | c :: rest, passed, gap =>
    if passed = gap then c.render component templates else renderCell component templates rest (passed + 1) gap

/-- The markup of rows, each around the same texts. -/
def renderRows (component : Int → Rendering) (templates : Templates) (texts : List String) :
    List (List Child) → Rendering
  | [] => .ok ""
  | row :: rest =>
    match interleave (renderCell component templates row 0) texts with
    | .error e => .error e
    | .ok markup =>
      match renderRows component templates texts rest with
      | .error e => .error e
      | .ok more => .ok (markup ++ more)

/-- The markup of the cells of rows, one after the other. -/
def renderEachRow (component : Int → Rendering) (templates : Templates) : List (List Child) → Rendering
  | [] => .ok ""
  | row :: rest =>
    match renderCells component templates row with
    | .error e => .error e
    | .ok markup =>
      match renderEachRow component templates rest with
      | .error e => .error e
      | .ok more => .ok (markup ++ more)

/-- The markup of cells, one after the other. -/
def renderCells (component : Int → Rendering) (templates : Templates) : List Child → Rendering
  | [] => .ok ""
  | c :: rest =>
    match c.render component templates with
    | .error e => .error e
    | .ok markup =>
      match renderCells component templates rest with
      | .error e => .error e
      | .ok more => .ok (markup ++ more)

end

/-- The markup of the component with an id. `left` are the components that are not being rendered around it. -/
def Components.render (components left : Components) (id : Int) : Rendering :=
  match Keyed.find? id components with
  | none => .error (.componentNotFound id)
  | some c =>
    match _free : Keyed.find? id left with
    | none => .error (.componentCycle id)
    | some _ =>
      match c.statics with
      | .shared _ => .error (.unresolvedStatics id)
      | .inline texts =>
        interleave (renderGap (fun inner => Components.render components (Keyed.erase id left) inner) [] c.children) texts
termination_by left.length
decreasing_by exact Keyed.length_erase_lt _free

/-- The markup that a description stands for. -/
def Root.render (r : Root) : Rendering :=
  r.fragment.render (Components.render r.components r.components) []

end LiveMarkup.Rendered
