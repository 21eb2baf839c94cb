import LiveMarkup.Rendered.Stream

/-!
# Updating a description

What an update says with statics takes the place of what it is about. Without statics, a regular fragment takes over the
dynamics that are given, each merged into the one there is, and a comprehension takes new rows, or edits its rows if it is
streamed. Components are updated in the same way, and then every component that shares statics is given those of the
component it names, along with the dynamics and statics that were left out.
-/

namespace LiveMarkup.Rendered

/-- Why an update does not fit a description. -/
inductive MergeError
  /-- A regular fragment meets a comprehension. -/
  | typeMismatch
  /-- There is no component with this id to update or to share statics with. -/
  | missingComponent (id : Int)
  /-- A component shares its statics with itself, be it by way of others. -/
  | sharedCycle (id : Int)
  /-- An update is meant for another stream. -/
  | streamMismatch (current update : String)
deriving DecidableEq, Repr

/-- The text of the error. -/
def MergeError.message : MergeError → String
  | typeMismatch => "fragment type mismatch"
  | missingComponent id => s!"component {id} not found"
  | sharedCycle id => s!"shared statics of component {id} form a cycle"
  | streamMismatch current update => s!"stream id mismatch: have {current}, diff has {update}"

/-- The rows and the stream of a comprehension after an update. -/
def mergeRows (rows : List Row) (stream : Option Stream) (incoming : List Row) (update : Option Stream) :
    Except MergeError (List Row × Option Stream) :=
  match stream, update with
  | none, none => .ok (incoming, none)
  | some current, none => .ok (rows, some current)
  | none, some update => .ok (applyStream rows incoming update, some update.settled)
  | some current, some update =>
    if current.id = update.id then .ok (applyStream rows incoming update, some update.settled)
    else .error (.streamMismatch current.id update.id)

mutual

/-- The fragment after an update. -/
def Fragment.merge (current : Fragment) : (update : Fragment) → Except MergeError Fragment
  | .regular (some statics) children => .ok (.regular (some statics) children)
  | .regular none updates =>
    match current with
    | .regular statics children =>
      match mergeChildren children updates with
      | .ok children => .ok (.regular statics children)
      | .error e => .error e
    | .comprehension _ _ _ _ => .error .typeMismatch
  | .comprehension (some statics) rows templates stream =>
    .ok (.comprehension (some statics) rows templates stream)
  | .comprehension none incoming added update =>
    match current with
    | .comprehension statics rows templates stream =>
      match mergeRows rows stream incoming update with
      | .ok (rows, stream) => .ok (.comprehension statics rows (Keyed.insertAll templates added) stream)
      | .error e => .error e
    | .regular _ _ => .error .typeMismatch

/-- The dynamics after updates of some of them. -/
def mergeChildren (children : Children) : (updates : List (Nat × Child)) → Except MergeError Children
  | [] => .ok children
  | (i, .fragment update) :: rest =>
    match Keyed.find? i children with
    | some (.fragment current) =>
      match current.merge update with
      | .ok merged => mergeChildren (Keyed.insert i (.fragment merged) children) rest
      | .error e => .error e
    | _ => mergeChildren (Keyed.insert i (.fragment update) children) rest
  | (i, .component id) :: rest => mergeChildren (Keyed.insert i (.component id) children) rest
  | (i, .text s) :: rest => mergeChildren (Keyed.insert i (.text s) children) rest

end

mutual

/-- The fragment with the statics of another wherever it has none. -/
def Fragment.fill (target : Fragment) : (source : Fragment) → Except MergeError Fragment
  | .comprehension shared _ _ _ =>
    match target with
    | .comprehension statics rows templates stream => .ok (.comprehension (statics.or shared) rows templates stream)
    | .regular _ _ => .error .typeMismatch
  | .regular shared sources =>
    match target with
    | .regular statics children =>
      match fillChildren children sources with
      | .ok children => .ok (.regular (statics.or shared) children)
      | .error e => .error e
    | .comprehension _ _ _ _ => .error .typeMismatch

/-- The dynamics with those of another fragment that are missing among them, each filled from its counterpart. -/
def fillChildren (children : Children) : (sources : List (Nat × Child)) → Except MergeError Children
  | [] => .ok children
  | (i, .fragment source) :: rest =>
    match Keyed.find? i children with
    | some (.fragment target) =>
      match target.fill source with
      | .ok filled => fillChildren (Keyed.insert i (.fragment filled) children) rest
      | .error e => .error e
    | some _ => fillChildren children rest
    | none => fillChildren (Keyed.insert i (.fragment source) children) rest
  | (i, .component id) :: rest =>
    match Keyed.find? i children with
    | some _ => fillChildren children rest
    | none => fillChildren (Keyed.insert i (.component id) children) rest
  | (i, .text s) :: rest =>
    match Keyed.find? i children with
    | some _ => fillChildren children rest
    | none => fillChildren (Keyed.insert i (.text s) children) rest

end

/-- A component with the statics of another, and with its dynamics where they are missing. -/
def Component.fillFrom (c source : Component) : Except MergeError Component :=
  match fillChildren c.children source.children with
  | .ok children => .ok ⟨source.statics, children⟩
  | .error e => .error e

/-- The component with an id, once its statics are its own. `left` are the components that have not been met on the way
here, and meeting one twice is a cycle. -/
def Components.resolve (old components left : Components) (id : Int) : Except MergeError Component :=
  match Keyed.find? id components with
  | none => .error (.missingComponent id)
  | some c =>
    match c.statics with
    | .inline _ => .ok c
    | .shared source =>
      match _unmet : Keyed.find? id left with
      | none => .error (.sharedCycle id)
      | some _ =>
        if source < 0 then
          match Keyed.find? (-source) old with
          | some shared => c.fillFrom shared
          | none => .error (.missingComponent source)
        else
          match Components.resolve old components (Keyed.erase id left) source with
          | .ok shared => c.fillFrom shared
          | .error e => .error e
termination_by left.length
decreasing_by exact Keyed.length_erase_lt _unmet

/-- Resolves components one after the other. -/
def Components.resolveEach (old : Components) : (components : Components) → List Int → Except MergeError Components
  | components, [] => .ok components
  | components, id :: rest =>
    match Components.resolve old components components id with
    | .ok c => resolveEach old (Keyed.insert id c components) rest
    | .error e => .error e

/-- Whether the statics of a component are those of another. -/
def Component.isShared (c : Component) : Bool :=
  match c.statics with
  | .shared _ => true
  | .inline _ => false

/-- The components with the statics of each its own. -/
def Components.resolveAll (old components : Components) : Except MergeError Components :=
  Components.resolveEach old components ((components.filter fun entry => entry.2.isShared).map Prod.fst)

/-- Updates components one after the other. -/
def Components.merge : (components : Components) → List (Int × ComponentDiff) → Except MergeError Components
  | components, [] => .ok components
  | components, (id, .replace c) :: rest => Components.merge (Keyed.insert id c components) rest
  | components, (id, .update updates) :: rest =>
    match Keyed.find? id components with
    | none => .error (.missingComponent id)
    | some c =>
      match mergeChildren c.children updates with
      | .ok children => Components.merge (Keyed.insert id { c with children } components) rest
      | .error e => .error e

/-- The description after an update. -/
def Root.merge (r : Root) (d : RootDiff) : Except MergeError Root :=
  match r.fragment.merge d.fragment with
  | .error e => .error e
  | .ok fragment =>
    match Components.merge r.components d.components with
    | .error e => .error e
    | .ok components =>
      match Components.resolveAll r.components components with
      | .error e => .error e
      | .ok components => .ok ⟨fragment, components⟩

end LiveMarkup.Rendered
