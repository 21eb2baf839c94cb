import LiveMarkup.Markup.Forest

/-!
# Printing markup

A forest prints as a list of pieces: a text, the tag of an element without children, or the tags around its children. In
minified form the pieces follow one another; in pretty form each stands on a line of its own, indented by its depth.

`Forest.pieces` is the printer that runs: it keeps the work that is still to do on a stack, so a deep forest needs no deep
recursion. `Forest.printedSize` counts the bytes of the printed forest without writing a space of its indentation, which may
be far longer than the forest itself; `Forest.utf8ByteSize_print` says that the count is right.
-/

namespace LiveMarkup

/-- How markup is laid out. -/
structure PrintOptions where
  /-- Whether to write everything on one line, with nothing added. -/
  minify : Bool
  /-- The number of spaces for each level of depth, where lines are written. -/
  indent : Nat
deriving DecidableEq, Repr

namespace PrintOptions

/-- One piece a line, four spaces a level. -/
def pretty : PrintOptions := ⟨false, 4⟩

/-- Nothing added. -/
def minified : PrintOptions := ⟨true, 0⟩

end PrintOptions

namespace Markup

/-- A character as it is written in text. -/
def escapeChar (c : Char) : List Char :=
  if c = '&' then "&amp;".toList
  else if c = '<' then "&lt;".toList
  else if c = '>' then "&gt;".toList
  else [c]

/-- A character as it is written in the value of an attribute. -/
def escapeValueChar (c : Char) : List Char :=
  if c = '\x22' then "&quot;".toList else escapeChar c

/-- A text as it is written between tags. -/
def escapeText (s : String) : String :=
  String.ofList (s.toList.flatMap escapeChar)

/-- A value as it is written between quotation marks. -/
def escapeValue (s : String) : String :=
  String.ofList (s.toList.flatMap escapeValueChar)

end Markup

/-- The attribute as it is written in a tag, with the space before it. -/
def Attribute.written (a : Attribute) : String :=
  " " ++ a.name.qualified ++ "=\"" ++ Markup.escapeValue a.value ++ "\""

namespace Markup

/-- A tag up to the last attribute. -/
def tagHead (name : QName) (attributes : List Attribute) : String :=
  "<" ++ name.qualified ++ String.join (attributes.map Attribute.written)

/-- The tag before the children of an element. -/
def openTag (name : QName) (attributes : List Attribute) : String :=
  tagHead name attributes ++ ">"

/-- The tag of an element without children. -/
def emptyTag (name : QName) (attributes : List Attribute) : String :=
  tagHead name attributes ++ " />"

/-- The tag after the children of an element. -/
def closeTag (name : QName) : String :=
  "</" ++ name.qualified ++ ">"

/-- A stretch of printed markup and how deep it stands. -/
structure Piece where
  depth : Nat
  text : String
deriving DecidableEq, Repr

/-- Work that a printer still has to do. -/
inductive Task
  /-- Print the nodes of a forest. -/
  | siblings (forest : Forest) (depth : Nat)
  /-- Print the tag that ends an element. -/
  | close (name : QName) (depth : Nat)

/-- A bound on the steps that a task takes. -/
def Task.cost : Task → Nat
  | siblings f _ => 3 * f.size + 1
  | close _ _ => 1

/-- A bound on the steps that a stack of tasks takes. -/
def Task.costs : List Task → Nat
  | [] => 0
  | t :: tasks => t.cost + costs tasks

/-- The pieces that a stack of tasks prints. -/
def run : List Task → List Piece
  | [] => []
  | .close name depth :: tasks => ⟨depth, closeTag name⟩ :: run tasks
  | .siblings .nil _ :: tasks => run tasks
  | .siblings (.leaf text next) depth :: tasks => ⟨depth, escapeText text⟩ :: run (.siblings next depth :: tasks)
  | .siblings (.element name attributes children next) depth :: tasks =>
    if children = .nil then ⟨depth, emptyTag name attributes⟩ :: run (.siblings next depth :: tasks)
    else
      ⟨depth, openTag name attributes⟩ ::
        run (.siblings children (depth + 1) :: .close name depth :: .siblings next depth :: tasks)
termination_by tasks => Task.costs tasks
decreasing_by all_goals simp [Task.costs, Task.cost, Forest.size]; try omega

/-- One piece on a line of its own. -/
def line (options : PrintOptions) (p : Piece) : String :=
  String.ofList (List.replicate (p.depth * options.indent) ' ') ++ p.text

/-- The pieces laid out. -/
def layout (options : PrintOptions) (pieces : List Piece) : String :=
  if options.minify then String.join (pieces.map Piece.text) else "\n".intercalate (pieces.map (line options))

/-- The number of bytes of pieces that follow one another. -/
def joinedSize : List Piece → Nat
  | [] => 0
  | p :: pieces => p.text.utf8ByteSize + joinedSize pieces

/-- The number of bytes of pieces that stand on lines of their own. -/
def linesSize (indent : Nat) : List Piece → Nat
  | [] => 0
  | [p] => p.depth * indent + p.text.utf8ByteSize
  | p :: next :: pieces => p.depth * indent + p.text.utf8ByteSize + 1 + linesSize indent (next :: pieces)

/-- The number of bytes of the pieces laid out. -/
def layoutSize (options : PrintOptions) (pieces : List Piece) : Nat :=
  if options.minify then joinedSize pieces else linesSize options.indent pieces

/-- A space takes one byte. -/
theorem utf8ByteSize_spaces (n : Nat) : (String.ofList (List.replicate n ' ')).utf8ByteSize = n := by
  induction n with
  | zero => rfl
  | succ n ih =>
    rw [List.replicate_succ, String.ofList_cons, String.utf8ByteSize_append, ih, String.utf8ByteSize_singleton]
    show 1 + n = n + 1
    omega

/-- A line takes its spaces and its text. -/
theorem utf8ByteSize_line (options : PrintOptions) (p : Piece) :
    (line options p).utf8ByteSize = p.depth * options.indent + p.text.utf8ByteSize := by
  rw [line, String.utf8ByteSize_append, utf8ByteSize_spaces]

/-- Joined pieces take what each of them takes. -/
theorem utf8ByteSize_joined (pieces : List Piece) :
    (String.join (pieces.map Piece.text)).utf8ByteSize = joinedSize pieces := by
  induction pieces with
  | nil => rfl
  | cons p pieces ih => rw [List.map_cons, String.join_cons, String.utf8ByteSize_append, ih, joinedSize]

/-- Lines take what each of them takes, and a byte for each break between two. -/
theorem utf8ByteSize_lines (options : PrintOptions) (pieces : List Piece) :
    ("\n".intercalate (pieces.map (line options))).utf8ByteSize = linesSize options.indent pieces := by
  fun_induction linesSize options.indent pieces with
  | case1 => rfl
  | case2 p => rw [List.map_singleton, String.intercalate_singleton, utf8ByteSize_line]
  | case3 p next pieces ih =>
    rw [List.map_cons, List.map_cons, String.intercalate_cons_cons, ← List.map_cons, String.utf8ByteSize_append,
      String.utf8ByteSize_append, utf8ByteSize_line, ih]
    rfl

/-- The count of bytes is that of the pieces laid out. -/
theorem utf8ByteSize_layout (options : PrintOptions) (pieces : List Piece) :
    (layout options pieces).utf8ByteSize = layoutSize options pieces := by
  unfold layout layoutSize
  split
  · exact utf8ByteSize_joined pieces
  · exact utf8ByteSize_lines options pieces

end Markup

/-- The pieces of a printed forest. -/
def Forest.pieces (f : Forest) : List Markup.Piece :=
  Markup.run [.siblings f 0]

/-- The printed forest. -/
def Forest.print (f : Forest) (options : PrintOptions) : String :=
  Markup.layout options f.pieces

/-- The number of bytes of the printed forest. -/
def Forest.printedSize (f : Forest) (options : PrintOptions) : Nat :=
  Markup.layoutSize options f.pieces

/-- The printed forest is as long as `printedSize` says. -/
theorem Forest.utf8ByteSize_print (f : Forest) (options : PrintOptions) :
    (f.print options).utf8ByteSize = f.printedSize options :=
  Markup.utf8ByteSize_layout options f.pieces

end LiveMarkup
