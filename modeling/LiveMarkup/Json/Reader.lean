import LiveMarkup.Json.Token

/-!
# Reading JSON

The tokens of a text are put together into a value. Arrays and objects that have been begun and not ended stand on a stack,
which may hold no more than `depthLimit` of them.

A list of records is read with `Items.ofText`, which also tells how far a text that is no JSON array got: the items before
the first fault are there to be looked at first.
-/

namespace LiveMarkup.Json

/-- How deep arrays and objects may lie in one another. -/
def depthLimit : Nat := 127

/-- An array or object that has been begun and not ended. -/
inductive Frame
  /-- The items so far, the last first. -/
  | array (items : List Json)
  /-- The members so far, the last first, and the key that the next value belongs to. -/
  | object (members : List (String × Json)) (key : String)
deriving Repr

/-- What may stand next. -/
inductive Expects
  | value
  | itemOrEnd
  | keyOrEnd
  | key
  | colon
  | separator
deriving DecidableEq, Repr

/-- What one token leads to. -/
inductive Step
  /-- Reading goes on. -/
  | next (frames : List Frame) (expects : Expects)
  /-- The outermost value is complete. -/
  | done (value : Json)
  /-- The token may not stand here. -/
  | misplaced
deriving Repr

namespace Step

/-- A value is complete. -/
def deliver (frames : List Frame) (v : Json) : Step :=
  match frames with
  | [] => done v
  | .array items :: outer => next (.array (v :: items) :: outer) .separator
  | .object members key :: outer => next (.object ((key, v) :: members) key :: outer) .separator

/-- An array or object begins. -/
def begin (frames : List Frame) (f : Frame) (expects : Expects) : Step :=
  if frames.length < depthLimit then next (f :: frames) expects else misplaced

/-- A token where a value is expected. -/
def onValue (frames : List Frame) : Token → Step
  | .null => deliver frames .null
  | .bool b => deliver frames (.bool b)
  | .number n => deliver frames (.number n)
  | .string s => deliver frames (.string s)
  | .openArray => begin frames (.array []) .itemOrEnd
  | .openObject => begin frames (.object [] "") .keyOrEnd
  | _ => misplaced

/-- A token where a key is expected. -/
def onKey (frames : List Frame) (t : Token) : Step :=
  match frames, t with
  | .object members _ :: outer, .string key => next (.object members key :: outer) .colon
  | _, _ => misplaced

/-- A token that ends the innermost array or object. -/
def onEnd (frames : List Frame) (t : Token) : Step :=
  match frames, t with
  | .array items :: outer, .closeArray => deliver outer (.array items.reverse)
  | .object members _ :: outer, .closeObject => deliver outer (.object members.reverse)
  | _, _ => misplaced

/-- A token after a complete item or member. -/
def onSeparator (frames : List Frame) (t : Token) : Step :=
  match frames, t with
  | .array _ :: _, .comma => next frames .value
  | .object _ _ :: _, .comma => next frames .key
  | _, t => onEnd frames t

/-- What a token leads to. -/
def ofToken (frames : List Frame) (expects : Expects) (t : Token) : Step :=
  match expects with
  | .value => onValue frames t
  | .itemOrEnd => if t = .closeArray then onEnd frames t else onValue frames t
  | .keyOrEnd => if t = .closeObject then onEnd frames t else onKey frames t
  | .key => onKey frames t
  | .colon => if t = .colon then next frames .value else misplaced
  | .separator => onSeparator frames t

end Step

/-- How reading tokens came out. -/
inductive Reading
  /-- A value is complete, and these tokens follow it. -/
  | value (v : Json) (rest : List Token)
  /-- The tokens ended or one may not stand where it does; these arrays and objects are not complete. -/
  | broken (frames : List Frame)
deriving Repr

/-- Reads tokens until a value is complete. -/
def Reading.run : List Frame → Expects → List Token → Reading
  | frames, _, [] => broken frames
  | frames, expects, t :: rest =>
    match Step.ofToken frames expects t with
    | .next frames expects => run frames expects rest
    | .done v => value v rest
    | .misplaced => broken frames

/-- The value that a text writes. -/
def parse? (text : String) : Option Json :=
  let s := scan text.toList
  match Reading.run [] .value s.tokens with
  | .value v [] => if s.complete then some v else none
  | _ => none

/-- How far a text holds an array. -/
structure Items where
  /-- The items that are complete. -/
  items : List Json
  /-- Whether the array is complete. -/
  closed : Bool
  /-- Whether nothing follows the array. -/
  alone : Bool
deriving Repr

/-- Reads an array. -/
def Items.ofText (text : List Char) : Items :=
  let s := scan text
  match Reading.run [] .value s.tokens with
  | .value (.array items) rest => ⟨items, true, rest.isEmpty && s.complete⟩
  | .value _ _ => ⟨[], false, false⟩
  | .broken frames =>
    match frames.getLast? with
    | some (.array items) => ⟨items.reverse, false, false⟩
    | _ => ⟨[], false, false⟩

end LiveMarkup.Json
