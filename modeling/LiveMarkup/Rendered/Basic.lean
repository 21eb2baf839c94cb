import LiveMarkup.Keyed

/-!
# Rendered descriptions

A server describes markup by its *statics*, texts that never change, and the *dynamics* that fill the gaps between them,
and then sends only the dynamics that did change. A `Root` is a full description, a `RootDiff` an update to one.

Dynamics and components are keyed lists, in ascending order of the gaps and of the component ids.
-/

namespace LiveMarkup.Rendered

/-- The texts around the gaps of a fragment. -/
inductive Statics
  /-- The texts themselves. -/
  | inline (texts : List String)
  /-- A template that an enclosing comprehension declares. -/
  | template (id : Int)
deriving DecidableEq, Repr

/-- Templates by their ids. -/
abbrev Templates := List (Int × List String)

/-- Where one streamed row goes. -/
structure Insert where
  /-- The id of the row. -/
  id : String
  /-- The position among the rows; a position that is none of theirs means the end. -/
  position : Int
  /-- How many rows stay afterwards: the first so many, or the last if the number is negative. -/
  limit : Option Int
deriving DecidableEq, Repr

/-- What is done to the rows of a streamed comprehension: the rows there are may be cleared, then rows are deleted, then
rows are inserted. -/
structure Stream where
  /-- The id of the stream, which stays the same. -/
  id : String
  inserts : List Insert
  deletes : List String
  reset : Bool
deriving DecidableEq, Repr

/-- The stream with its edits done. -/
def Stream.settled (s : Stream) : Stream :=
  ⟨s.id, [], [], false⟩

mutual

/-- Statics with dynamics. -/
inductive Fragment
  /-- One dynamic for each gap. An update that keeps the statics leaves them out. -/
  | regular (statics : Option Statics) (children : List (Nat × Child))
  /-- The same statics once for each row. -/
  | comprehension (statics : Option Statics) (rows : List (List Child)) (templates : List (Int × List String))
    (stream : Option Stream)

/-- What fills a gap. -/
inductive Child
  | fragment (f : Fragment)
  | component (id : Int)
  | text (s : String)

end

deriving instance Repr for Fragment, Child

instance : Inhabited Fragment := ⟨.regular none []⟩

instance : Inhabited Child := ⟨.text ""⟩

/-- The dynamics of a fragment by their gaps. -/
abbrev Children := List (Nat × Child)

/-- The dynamics that fill the gaps of one repetition. -/
abbrev Row := List Child

/-- The statics of a fragment, if it has them. -/
def Fragment.statics : Fragment → Option Statics
  | regular statics _ => statics
  | comprehension statics _ _ _ => statics

/-- Where the statics of a component come from. -/
inductive ComponentStatics
  /-- They are its own. -/
  | inline (texts : List String)
  /-- They are those of another component; the negative of an id means that component before the update. -/
  | shared (id : Int)
deriving DecidableEq, Repr

/-- A fragment with an id of its own. -/
structure Component where
  statics : ComponentStatics
  children : Children
deriving Repr

/-- Components by their ids. -/
abbrev Components := List (Int × Component)

/-- An update of one component. -/
inductive ComponentDiff
  /-- A new component takes its place. -/
  | replace (component : Component)
  /-- Some of its dynamics are new. -/
  | update (children : Children)
deriving Repr

/-- A full description. -/
structure Root where
  fragment : Fragment
  components : Components
deriving Repr

/-- An update of a description. -/
structure RootDiff where
  fragment : Fragment
  components : List (Int × ComponentDiff)
deriving Repr

mutual

/-- Decides whether two fragments are equal. -/
def Fragment.decEq : (f g : Fragment) → Decidable (f = g)
  | .regular s cs, .regular t ds =>
    match decEq s t, childrenDecEq cs ds with
    | isTrue h, isTrue h' => isTrue (by rw [h, h'])
    | isFalse h, _ => isFalse fun e => h (by cases e; rfl)
    | _, isFalse h => isFalse fun e => h (by cases e; rfl)
  | .comprehension s rs ts a, .comprehension t qs us b =>
    match decEq s t, rowsDecEq rs qs, decEq ts us, decEq a b with
    | isTrue h, isTrue h', isTrue h'', isTrue h''' => isTrue (by rw [h, h', h'', h'''])
    | isFalse h, _, _, _ => isFalse fun e => h (by cases e; rfl)
    | _, isFalse h, _, _ => isFalse fun e => h (by cases e; rfl)
    | _, _, isFalse h, _ => isFalse fun e => h (by cases e; rfl)
    | _, _, _, isFalse h => isFalse fun e => h (by cases e; rfl)
  | .regular _ _, .comprehension _ _ _ _ => isFalse nofun
  | .comprehension _ _ _ _, .regular _ _ => isFalse nofun

/-- Decides whether two dynamics are equal. -/
def Child.decEq : (c d : Child) → Decidable (c = d)
  | .fragment f, .fragment g =>
    match f.decEq g with
    | isTrue h => isTrue (by rw [h])
    | isFalse h => isFalse fun e => h (by cases e; rfl)
  | .component i, .component j =>
    if h : i = j then isTrue (by rw [h]) else isFalse fun e => h (by cases e; rfl)
  | .text s, .text t => if h : s = t then isTrue (by rw [h]) else isFalse fun e => h (by cases e; rfl)
  | .fragment _, .component _ => isFalse nofun
  | .fragment _, .text _ => isFalse nofun
  | .component _, .fragment _ => isFalse nofun
  | .component _, .text _ => isFalse nofun
  | .text _, .fragment _ => isFalse nofun
  | .text _, .component _ => isFalse nofun

/-- Decides whether two keyed lists of dynamics are equal. -/
def childrenDecEq : (cs ds : List (Nat × Child)) → Decidable (cs = ds)
  | [], [] => isTrue rfl
  | (i, c) :: cs, (j, d) :: ds =>
    match decEq i j, c.decEq d, childrenDecEq cs ds with
    | isTrue h, isTrue h', isTrue h'' => isTrue (by rw [h, h', h''])
    | isFalse h, _, _ => isFalse fun e => h (by cases e; rfl)
    | _, isFalse h, _ => isFalse fun e => h (by cases e; rfl)
    | _, _, isFalse h => isFalse fun e => h (by cases e; rfl)
  | [], _ :: _ => isFalse nofun
  | _ :: _, [] => isFalse nofun

/-- Decides whether two lists of rows are equal. -/
def rowsDecEq : (rs qs : List (List Child)) → Decidable (rs = qs)
  | [], [] => isTrue rfl
  | r :: rs, q :: qs =>
    match rowDecEq r q, rowsDecEq rs qs with
    | isTrue h, isTrue h' => isTrue (by rw [h, h'])
    | isFalse h, _ => isFalse fun e => h (by cases e; rfl)
    | _, isFalse h => isFalse fun e => h (by cases e; rfl)
  | [], _ :: _ => isFalse nofun
  | _ :: _, [] => isFalse nofun

/-- Decides whether two rows are equal. -/
def rowDecEq : (r q : List Child) → Decidable (r = q)
  | [], [] => isTrue rfl
  | c :: r, d :: q =>
    match c.decEq d, rowDecEq r q with
    | isTrue h, isTrue h' => isTrue (by rw [h, h'])
    | isFalse h, _ => isFalse fun e => h (by cases e; rfl)
    | _, isFalse h => isFalse fun e => h (by cases e; rfl)
  | [], _ :: _ => isFalse nofun
  | _ :: _, [] => isFalse nofun

end

instance : DecidableEq Fragment := Fragment.decEq

instance : DecidableEq Child := Child.decEq

deriving instance DecidableEq for Component, ComponentDiff, Root, RootDiff

end LiveMarkup.Rendered
