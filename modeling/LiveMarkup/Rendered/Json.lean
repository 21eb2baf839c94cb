import LiveMarkup.Json.Reader
import LiveMarkup.Text.Quoted
import LiveMarkup.Rendered.Merge

/-!
# Descriptions as JSON

A fragment is an object. Its member `s` holds the statics, or the id of a template; `d` makes it a comprehension and holds
the rows, next to `p` with templates and `stream` with what is done to streamed rows; members whose keys are numbers are the
dynamics. The object of a whole description also has the components, in `c`. All other members are ignored.

Members are read in the order of their keys, and of two keys that write one number the later counts.
-/

namespace LiveMarkup.Rendered

/-- What a fault in a description is about. -/
inductive Subject
  | root
  | rootDiff
  | templates
  | components
  | component
  | statics
  | template
  | componentStatics
  | textChild
  | streamDeletes
  | templateReference
  | sharedStatics
  | componentId
  | streamIndex
  | streamLimit
deriving DecidableEq, Repr

/-- The words for it. -/
def Subject.words : Subject → String
  | root => "root"
  | rootDiff => "root diff"
  | templates => "templates"
  | components => "components"
  | component => "component"
  | statics => "statics"
  | template => "template"
  | componentStatics => "component statics"
  | textChild => "text child"
  | streamDeletes => "stream deletes"
  | templateReference => "template reference"
  | sharedStatics => "shared statics"
  | componentId => "component id"
  | streamIndex => "stream insert index"
  | streamLimit => "stream limit"

/-- Why a JSON value is no description. -/
inductive DecodeError
  | notObject (subject : Subject) (found : Json)
  | notInteger (subject : Subject) (found : Json)
  | notStrings (subject : Subject)
  | notString (subject : Subject) (found : Json)
  | noRootStatics
  | noComponentStatics
  | noStreamId
  | strayStream
  | badTemplateId (key : String)
  | badComponentId (key : String)
  | rowsNotArray
  | rowNotArray (found : Json)
  | streamNotArray (found : Json)
  | badStreamEntry (found : Json)
  | badInsert (found : Json)
  | badChild (found : Json)
deriving Repr

/-- The text of the error. -/
def DecodeError.message : DecodeError → String
  | notObject subject found => s!"{subject.words} must be an object, found {found.compact}"
  | notInteger subject found => s!"{subject.words} must be an integer, found {found.compact}"
  | notStrings subject => s!"{subject.words} must be an array of strings"
  | notString subject found => s!"{subject.words} holds a non-string {found.compact}"
  | noRootStatics => "root fragment has no statics"
  | noComponentStatics => "component has no statics"
  | noStreamId => "stream has no id"
  | strayStream => "stream outside a comprehension"
  | badTemplateId key => s!"invalid template id {Text.quoted key}"
  | badComponentId key => s!"invalid component id {Text.quoted key}"
  | rowsNotArray => "comprehension rows must be an array"
  | rowNotArray found => s!"comprehension row must be an array, found {found.compact}"
  | streamNotArray found => s!"stream must be an array, found {found.compact}"
  | badStreamEntry found => s!"invalid stream entry {found.compact}"
  | badInsert found => s!"invalid stream insert {found.compact}"
  | badChild found => s!"invalid dynamic child {found.compact}"

/-- The members of an object in the order of their keys. -/
abbrev Members := List (String × Json)

/-! ## Numbers and strings -/

/-- The natural number that decimal digits write, one at least. -/
def natOfDigits? (s : List Char) : Option Nat :=
  if s.isEmpty || !s.all Json.isDigit then none else some (Json.Number.ofDigits s)

/-- The number of a gap that a key writes, a plus sign before it or not. -/
def gapOfKey? (key : String) : Option Nat :=
  let digits := match key.toList with
    | '+' :: rest => rest
    | s => s
  (natOfDigits? digits).filter (· < Json.Number.wordLimit)

/-- Whether an integer fits 32 bits. -/
def fitsId (n : Int) : Bool :=
  -0x80000000 ≤ n && n < 0x80000000

/-- The id that a key writes, a sign before it or not. -/
def idOfKey? (key : String) : Option Int :=
  let n? : Option Int := match key.toList with
    | '+' :: rest => (natOfDigits? rest).map fun n => (n : Int)
    | '-' :: rest => (natOfDigits? rest).map fun n => -(n : Int)
    | s => (natOfDigits? s).map fun n => (n : Int)
  n?.filter fitsId

/-- The integer of 32 bits that a value is. -/
def readInteger (subject : Subject) : Json → Except DecodeError Int
  | .number (.integer n) => if fitsId n then .ok n else .error (.notInteger subject (.number (.integer n)))
  | v => .error (.notInteger subject v)

/-- The string that an item is. -/
def readString (subject : Subject) : Json → Except DecodeError String
  | .string s => .ok s
  | v => .error (.notString subject v)

/-- The strings that a value lists. -/
def readStrings (subject : Subject) : Json → Except DecodeError (List String)
  | .array items => items.mapM (readString subject)
  | _ => .error (.notStrings subject)

/-- The members that a value has. -/
def readMembers (subject : Subject) : Json → Except DecodeError Members
  | .object members => .ok members
  | v => .error (.notObject subject v)

/-- Reads a member if there is one. -/
def readMember {α : Type} (read : Json → Except DecodeError α) (key : String) (members : Members) :
    Except DecodeError (Option α) :=
  match Keyed.find? key members with
  | none => .ok none
  | some v =>
    match read v with
    | .ok a => .ok (some a)
    | .error e => .error e

/-! ## Statics, templates and streams -/

/-- Reads statics, or the id of the template that they are. -/
def readStatics : Json → Except DecodeError Statics
  | .number n => do return .template (← readInteger .templateReference (.number n))
  | v => do return .inline (← readStrings .statics v)

/-- Reads templates after those read before. -/
def readTemplatesAfter : Templates → Members → Except DecodeError Templates
  | templates, [] => .ok templates
  | templates, (key, v) :: rest => do
    match idOfKey? key with
    | none => .error (.badTemplateId key)
    | some id => readTemplatesAfter (Keyed.insert id (← readStrings .template v) templates) rest

/-- Reads templates. -/
def readTemplates (v : Json) : Except DecodeError Templates := do
  readTemplatesAfter [] (← readMembers .templates v)

/-- Reads where a streamed row goes: the id of the row, its position, and a limit unless there is none. -/
def readInsert : Json → Except DecodeError Insert
  | .array (.string id :: position :: rest) => do
    let position ← readInteger .streamIndex position
    let limit ← match rest with
      | [] => pure none
      | .null :: _ => pure none
      | limit :: _ => do pure (some (← readInteger .streamLimit limit))
    .ok ⟨id, position, limit⟩
  | v => .error (.badInsert v)

/-- One entry of what is done to a stream. -/
inductive StreamEntry
  | id (id : String)
  | inserts (items : List Insert)
  | deletes (ids : List String)
  | reset (flag : Bool)
deriving DecidableEq, Repr

/-- Reads an entry; an empty array says nothing. -/
def readStreamEntry : Json → Except DecodeError (List StreamEntry)
  | .string id => .ok [.id id]
  | .bool flag => .ok [.reset flag]
  | .array [] => .ok []
  | .array items =>
    if items.all Json.isArray then do return [.inserts (← items.mapM readInsert)]
    else do return [.deletes (← readStrings .streamDeletes (.array items))]
  | v => .error (.badStreamEntry v)

/-- What entries come to: the last id, all inserts, all deletes, and whether one of them asks to start afresh. -/
def Stream.ofEntries (entries : List StreamEntry) : Except DecodeError Stream :=
  let id? := entries.foldl (fun id? entry => match entry with | .id id => some id | _ => id?) none
  match id? with
  | none => .error .noStreamId
  | some id =>
    .ok {
      id
      inserts := entries.flatMap fun entry => match entry with | .inserts items => items | _ => []
      deletes := entries.flatMap fun entry => match entry with | .deletes ids => ids | _ => []
      reset := entries.any fun entry => entry == .reset true }

/-- Reads what is done to a stream. -/
def readStream : Json → Except DecodeError Stream
  | .array entries => do
    let entries ← entries.mapM readStreamEntry
    Stream.ofEntries entries.flatten
  | v => .error (.streamNotArray v)

/-! ## Fragments and components -/

/-- Puts a fragment together: its statics and its stream are read first, then templates and rows if it has rows, and its
dynamics otherwise. -/
def readParts (members : Members) (rows? : Option (Except DecodeError (List Row)))
    (children : Unit → Except DecodeError Children) : Except DecodeError Fragment := do
  let statics ← readMember readStatics "s" members
  let stream ← readMember readStream "stream" members
  match rows? with
  | some rows => do
    let templates ← readMember readTemplates "p" members
    return .comprehension statics (← rows) (templates.getD []) stream
  | none =>
    if stream.isSome then .error .strayStream
    else return .regular statics (← children ())

mutual

/-- Reads a dynamic: a text, a text in pieces, the id of a component, or a fragment. -/
def readChild : Json → Except DecodeError Child
  | .string s => .ok (.text s)
  | .number n => do return .component (← readInteger .componentId (.number n))
  | .array items => do return .text (String.join (← readStrings .textChild (.array items)))
  | .object members => do return .fragment (← readParts members (readRows? members) fun _ => readChildren [] members)
  | .null => .error (.badChild .null)
  | .bool b => .error (.badChild (.bool b))

/-- Reads dynamics after those read before. -/
def readChildren : Children → List (String × Json) → Except DecodeError Children
  | children, [] => .ok children
  | children, (key, v) :: rest =>
    match gapOfKey? key with
    | none => readChildren children rest
    | some gap =>
      match readChild v with
      | .ok c => readChildren (Keyed.insert gap c children) rest
      | .error e => .error e

/-- Reads the rows of a comprehension, if members have any. -/
def readRows? : List (String × Json) → Option (Except DecodeError (List Row))
  | [] => none
  | (key, v) :: rest => if key = "d" then some (readRows v) else readRows? rest

/-- Reads rows. -/
def readRows : Json → Except DecodeError (List Row)
  | .array rows => readEachRow rows
  | _ => .error .rowsNotArray

/-- Reads rows one after the other. -/
def readEachRow : List Json → Except DecodeError (List Row)
  | [] => .ok []
  | row :: rest =>
    match readRow row with
    | .error e => .error e
    | .ok row =>
      match readEachRow rest with
      | .error e => .error e
      | .ok rows => .ok (row :: rows)

/-- Reads a row. -/
def readRow : Json → Except DecodeError Row
  | .array cells => readCells cells
  | v => .error (.rowNotArray v)

/-- Reads cells one after the other. -/
def readCells : List Json → Except DecodeError (List Child)
  | [] => .ok []
  | cell :: rest =>
    match readChild cell with
    | .error e => .error e
    | .ok c =>
      match readCells rest with
      | .error e => .error e
      | .ok cells => .ok (c :: cells)

end

/-- Reads a fragment from its members. -/
def readFragment (members : Members) : Except DecodeError Fragment :=
  readParts members (readRows? members) fun _ => readChildren [] members

/-- Reads the statics of a component, or the id of the component that it shares them with. -/
def readComponentStatics : Json → Except DecodeError ComponentStatics
  | .number n => do return .shared (← readInteger .sharedStatics (.number n))
  | v => do return .inline (← readStrings .componentStatics v)

/-- Reads a component from its members. -/
def readComponent (members : Members) : Except DecodeError Component := do
  match ← readMember readComponentStatics "s" members with
  | none => .error .noComponentStatics
  | some statics => .ok ⟨statics, ← readChildren [] members⟩

/-- Reads an update of a component: one with statics takes its place. -/
def readComponentDiff (members : Members) : Except DecodeError ComponentDiff := do
  match Keyed.find? "s" members with
  | some _ => return .replace (← readComponent members)
  | none => return .update (← readChildren [] members)

/-- Reads what belongs to components by their ids, after those read before. -/
def readByIdAfter {α : Type} (read : Members → Except DecodeError α) :
    List (Int × α) → Members → Except DecodeError (List (Int × α))
  | found, [] => .ok found
  | found, (key, v) :: rest => do
    match (idOfKey? key).filter (0 < ·) with
    | none => .error (.badComponentId key)
    | some id =>
      let a ← read (← readMembers .component v)
      readByIdAfter read (Keyed.insert id a found) rest

/-- Reads what belongs to components by their ids. -/
def readById {α : Type} (read : Members → Except DecodeError α) (v : Json) : Except DecodeError (List (Int × α)) := do
  readByIdAfter read [] (← readMembers .components v)

/-- Why a text is no description, or one that cannot be used. -/
inductive SourceError
  /-- The text is not JSON. -/
  | malformed
  /-- The value is not a description. -/
  | decode (error : DecodeError)
  /-- Components cannot be given their statics. -/
  | merge (error : MergeError)
deriving Repr

/-- The members of the object that a text holds. -/
def membersOfText (subject : Subject) (text : String) : Except SourceError Members :=
  match Json.parse? text with
  | none => .error .malformed
  | some v =>
    match readMembers subject v.sorted with
    | .ok members => .ok members
    | .error e => .error (.decode e)

/-- Reads a description, components not yet resolved. -/
def readRoot (members : Members) : Except DecodeError Root := do
  let components ← readMember (readById readComponent) "c" members
  let fragment ← readFragment members
  if fragment.statics.isSome then .ok ⟨fragment, components.getD []⟩ else .error .noRootStatics

/-- Reads an update. -/
def readRootDiff (members : Members) : Except DecodeError RootDiff := do
  let components ← readMember (readById readComponentDiff) "c" members
  let fragment ← readFragment members
  .ok ⟨fragment, components.getD []⟩

/-- Reads a text that holds a description. -/
def Root.ofText (text : String) : Except SourceError Root :=
  match membersOfText .root text with
  | .error e => .error e
  | .ok members =>
    match readRoot members with
    | .error e => .error (.decode e)
    | .ok r =>
      match Components.resolveAll [] r.components with
      | .error e => .error (.merge e)
      | .ok components => .ok { r with components }

/-- Reads a text that holds an update. -/
def RootDiff.ofText (text : String) : Except SourceError RootDiff :=
  match membersOfText .rootDiff text with
  | .error e => .error e
  | .ok members =>
    match readRootDiff members with
    | .error e => .error (.decode e)
    | .ok d => .ok d

end LiveMarkup.Rendered
