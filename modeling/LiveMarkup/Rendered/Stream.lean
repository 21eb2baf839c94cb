import LiveMarkup.Text.WhiteSpace
import LiveMarkup.Text.Find
import LiveMarkup.Rendered.Basic

/-!
# Streamed rows

The rows of a streamed comprehension are told apart by an id, which a row shows as the first of its dynamics that is
written like the attribute `id="…"`. An update clears, deletes and inserts rows by their ids.
-/

namespace LiveMarkup.Rendered

/-- The id that a text shows when it is written like an attribute with the name `id`. -/
def idOfText? (s : String) : Option String := do
  let inside ← Text.after? "id=\"".toList (Text.trim s.toList)
  match inside.reverse with
  | '\x22' :: id => some (String.ofList id.reverse)
  | _ => none

/-- The id of a row. -/
def rowId? : Row → Option String
  | [] => none
  | .text s :: rest =>
    match idOfText? s with
    | some id => some id
    | none => rowId? rest
  | _ :: rest => rowId? rest

/-- Whether a row has an id. -/
def rowHas (id : String) (row : Row) : Bool :=
  rowId? row == some id

/-- The first row with an id, and the rows without it. -/
def takeRow? (id : String) : List Row → Option (Row × List Row)
  | [] => none
  | row :: rest =>
    if rowHas id row then some (row, rest)
    else
      match takeRow? id rest with
      | some (found, rest) => some (found, row :: rest)
      | none => none

/-- Puts a row in the place of the first row with its id, if there is one. -/
def exchange? (id : String) (row : Row) : List Row → Option (List Row)
  | [] => none
  | r :: rest =>
    if rowHas id r then some (row :: rest)
    else
      match exchange? id row rest with
      | some rest => some (r :: rest)
      | none => none

/-- Puts a row at a position among the rows, or at the end if there is no row at that position. -/
def insertAt (position : Int) (row : Row) (rows : List Row) : List Row :=
  if 0 ≤ position ∧ position < rows.length then rows.insertIdx position.toNat row else rows ++ [row]

/-- The rows that stay under a limit. -/
def applyLimit (limit : Option Int) (rows : List Row) : List Row :=
  match limit with
  | none => rows
  | some n => if 0 ≤ n then rows.take n.toNat else rows.drop (rows.length - n.natAbs)

/-- Carries out insertions. Each takes the first row that has come for its id and has not been taken; if none is left,
nothing happens. -/
def insertRows (rows incoming : List Row) : List Insert → List Row
  | [] => rows
  | item :: rest =>
    match takeRow? item.id incoming with
    | none => insertRows rows incoming rest
    | some (row, incoming) =>
      let placed := (exchange? item.id row rows).getD (insertAt item.position row rows)
      insertRows (applyLimit item.limit placed) incoming rest

/-- The rows without those that have one of the ids. -/
def deleteRows (rows : List Row) (ids : List String) : List Row :=
  ids.foldl (fun rows id => rows.filter fun row => !rowHas id row) rows

/-- The rows after an update of their stream. -/
def applyStream (rows incoming : List Row) (s : Stream) : List Row :=
  insertRows (deleteRows (if s.reset then [] else rows) s.deletes) incoming s.inserts

end LiveMarkup.Rendered
