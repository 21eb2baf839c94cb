import Mathlib
import LiveMarkup.Proofs.FlatTrees

/-!
# The printer with a stack prints what a recursion prints

A document is printed with a stack of nodes still to enter and elements still to leave, and a flag that says whether a line has
been begun (`Document.perform`). What is to be printed is said by recursion (`Document.Renders`): a text, the tag of an element
without children, or the tags around its children, which stand one level deeper, with the root leaving its depth to its
children. One rule of the recursion after the other, the stack comes down to what was below the nodes, with their pieces put
down (`Document.Renders.performs`); and pieces put down one at a time, with the flag, are pieces laid out
(`Markup.Written.putAll_start`). So the text at a node is that of its forest, which is all that it depends on.
-/

namespace LiveMarkup

/-! ## Laid out piece by piece -/

namespace Markup

/-- What has been written, and whether no line has been begun. -/
structure Written where
  first : Bool
  text : String
deriving DecidableEq, Repr

namespace Written

/-- Nothing written. -/
def start : Written := ⟨true, ""⟩

/-- Writes one piece; where lines are written, on a new one, after the spaces for its depth. -/
def put (options : PrintOptions) (w : Written) (p : Piece) : Written :=
  if options.minify then { w with text := w.text ++ p.text }
  else ⟨false, (if w.first then w.text else w.text ++ "\n") ++ line options p⟩

/-- Writes pieces in order. -/
def putAll (options : PrintOptions) (w : Written) (pieces : List Piece) : Written :=
  pieces.foldl (put options) w

variable {options : PrintOptions}

theorem putAll_cons (w : Written) (p : Piece) (pieces : List Piece) :
    w.putAll options (p :: pieces) = (w.put options p).putAll options pieces :=
  rfl

theorem putAll_append (w : Written) (pieces more : List Piece) :
    w.putAll options (pieces ++ more) = (w.putAll options pieces).putAll options more :=
  List.foldl_append

/-- Where no lines are written, the texts of the pieces follow one another. -/
theorem putAll_of_minify (h : options.minify = true) (w : Written) (pieces : List Piece) :
    (w.putAll options pieces).text = w.text ++ String.join (pieces.map Piece.text) := by
  induction pieces generalizing w with
  | nil => exact (String.append_empty).symm
  | cons p pieces ih =>
    have hput : w.put options p = { w with text := w.text ++ p.text } := by rw [put, if_pos h]
    rw [putAll_cons, hput, ih, List.map_cons, String.join_cons, String.append_assoc]

/-- Once a line has been begun, each piece comes after a break. -/
theorem putAll_of_begun (h : options.minify = false) (s : String) (pieces : List Piece) :
    (Written.putAll options ⟨false, s⟩ pieces).text = s ++ String.join (pieces.map fun p => "\n" ++ line options p) := by
  induction pieces generalizing s with
  | nil => exact (String.append_empty).symm
  | cons p pieces ih =>
    have hput : Written.put options ⟨false, s⟩ p = ⟨false, s ++ "\n" ++ line options p⟩ := by
      rw [put, if_neg (by rw [h]; exact Bool.false_ne_true)]
      rfl
    rw [putAll_cons, hput, ih, List.map_cons, String.join_cons, String.append_assoc, String.append_assoc, String.append_assoc]

end Written

/-- Texts with breaks between them are the first one, and the others each after a break. -/
theorem intercalate_break (s : String) (texts : List String) :
    "\n".intercalate (s :: texts) = s ++ String.join (texts.map fun t => "\n" ++ t) := by
  induction texts generalizing s with
  | nil =>
    rw [String.intercalate_singleton]
    exact (String.append_empty).symm
  | cons t texts ih =>
    rw [String.intercalate_cons_cons, ih, List.map_cons, String.join_cons, String.append_assoc, String.append_assoc]

/-- What is written in the end is the pieces laid out. -/
theorem Written.putAll_start (options : PrintOptions) (pieces : List Piece) :
    (Written.start.putAll options pieces).text = layout options pieces := by
  cases h : options.minify with
  | true =>
    rw [putAll_of_minify h, layout, if_pos h]
    exact String.empty_append
  | false =>
    rw [layout, if_neg (by rw [h]; exact Bool.false_ne_true)]
    cases pieces with
    | nil => rfl
    | cons p pieces =>
      have hfirst : Written.start.put options p = ⟨false, line options p⟩ := by
        rw [put, if_neg (by rw [h]; exact Bool.false_ne_true)]
        exact congrArg (Written.mk false) String.empty_append
      rw [putAll_cons, hfirst, List.map_cons, intercalate_break, List.map_map]
      exact putAll_of_begun h (line options p) pieces

end Markup

/-! ## The recursion -/

open Markup (Piece Written escapeText emptyTag openTag closeTag layout line)

/-- The pieces of a forest that stands at a depth. -/
def Forest.piecesAt : Forest → (depth : Nat) → List Piece
  | nil, _ => []
  | leaf text next, depth => ⟨depth, escapeText text⟩ :: next.piecesAt depth
  | element name attributes children next, depth =>
    (if children = .nil then [⟨depth, emptyTag name attributes⟩]
      else ⟨depth, openTag name attributes⟩ :: (children.piecesAt (depth + 1) ++ [⟨depth, closeTag name⟩])) ++
      next.piecesAt depth

/-- The work on a forest is done before the work that was there already. -/
theorem Markup.run_siblings (f : Forest) (depth : Nat) (tasks : List Task) :
    run (.siblings f depth :: tasks) = f.piecesAt depth ++ run tasks := by
  induction f generalizing depth tasks with
  | nil => rw [run, Forest.piecesAt, List.nil_append]
  | leaf text next ih => rw [run, ih, Forest.piecesAt, List.cons_append]
  | element name attributes children next ihc ihn =>
    rw [run, Forest.piecesAt]
    split
    · rw [ihn, List.append_assoc, List.singleton_append]
    · rw [ihc, run, ihn, List.cons_append, List.cons_append, List.append_assoc, List.append_assoc, List.singleton_append]

theorem Forest.pieces_eq (f : Forest) : f.pieces = f.piecesAt 0 := by
  rw [pieces, Markup.run_siblings, Markup.run, List.append_nil]

theorem Forest.piecesAt_cons (t : Tree) (f : Forest) (depth : Nat) :
    (cons t f).piecesAt depth = t.forest.piecesAt depth ++ f.piecesAt depth := by
  cases t with
  | leaf text => rfl
  | element name attributes children => simp only [cons, Tree.forest, piecesAt, List.append_nil]

theorem Tree.piecesAt_ne_nil (t : Tree) (depth : Nat) : t.forest.piecesAt depth ≠ [] := by
  cases t with
  | leaf text => exact List.cons_ne_nil _ _
  | element name attributes children =>
    rw [forest, Forest.cons, Forest.piecesAt]
    split <;> exact List.cons_ne_nil _ _

/-- Where lines are written, the trees of a forest come one after another with breaks between them. -/
theorem Forest.print_ofList {options : PrintOptions} (h : options.minify = false) (trees : List Tree) :
    (ofList trees).print options = "\n".intercalate (trees.map fun t => t.forest.print options) := by
  have hlayout : ∀ pieces, layout options pieces = "\n".intercalate (pieces.map (line options)) := fun pieces => by
    rw [layout, if_neg (by rw [h]; exact Bool.false_ne_true)]
  have hcons : ∀ (t : Tree) (trees : List Tree), ofList (t :: trees) = cons t (ofList trees) := fun _ _ => rfl
  simp only [print, pieces_eq, hlayout]
  induction trees with
  | nil => rfl
  | cons t trees ih =>
    rw [hcons, piecesAt_cons, List.map_append, List.map_cons]
    cases trees with
    | nil => rw [ofList, List.foldr_nil, piecesAt, List.map_nil, List.append_nil, List.map_nil, String.intercalate_singleton]
    | cons u trees =>
      have hfirst := t.piecesAt_ne_nil 0
      have hlater : (ofList (u :: trees)).piecesAt 0 ≠ [] := by
        rw [hcons, piecesAt_cons]
        exact List.append_ne_nil_of_left_ne_nil (u.piecesAt_ne_nil 0) _
      rw [String.intercalate_append_of_ne_nil (mt List.map_eq_nil_iff.mp hfirst) (mt List.map_eq_nil_iff.mp hlater), ih,
        String.intercalate_cons_of_ne_nil (mt List.map_eq_nil_iff.mp (List.cons_ne_nil u trees))]

namespace Document

/-- Nodes in a row at a depth are rendered as pieces: a text escaped, an element without children by one tag, another one by
its tag, its children one level deeper and the tag that ends it, and the root by its children. -/
inductive Renders (d : Document) : List NodeRef → (depth : Nat) → List Piece → Prop
  | nil {depth : Nat} : Renders d [] depth []
  | root {n : NodeRef} {below next : List NodeRef} {depth : Nat} {inside after : List Piece} (hget : d.get n = .ok .root)
      (hbelow : d.children n = .ok below) (hinside : Renders d below depth inside) (hafter : Renders d next depth after) :
      Renders d (n :: next) depth (inside ++ after)
  | leaf {n : NodeRef} {next : List NodeRef} {depth : Nat} {text : String} {after : List Piece}
      (hget : d.get n = .ok (.leaf text)) (hafter : Renders d next depth after) :
      Renders d (n :: next) depth (⟨depth, escapeText text⟩ :: after)
  | empty {n : NodeRef} {next : List NodeRef} {depth : Nat} {name : QName} {refs : List AttributeRef}
      {attributes : List Attribute} {after : List Piece} (hget : d.get n = .ok (.element name refs))
      (hattributes : d.attributes n = .ok attributes) (hbelow : d.children n = .ok [])
      (hafter : Renders d next depth after) :
      Renders d (n :: next) depth (⟨depth, emptyTag name attributes⟩ :: after)
  | element {n child : NodeRef} {below next : List NodeRef} {depth : Nat} {name : QName} {refs : List AttributeRef}
      {attributes : List Attribute} {inside after : List Piece} (hget : d.get n = .ok (.element name refs))
      (hattributes : d.attributes n = .ok attributes) (hbelow : d.children n = .ok (child :: below))
      (hinside : Renders d (child :: below) (depth + 1) inside) (hafter : Renders d next depth after) :
      Renders d (n :: next) depth (⟨depth, openTag name attributes⟩ :: (inside ++ ⟨depth, closeTag name⟩ :: after))

variable {d : Document} {p : NodeRef} {ns : List NodeRef} {depth : Nat} {pieces other : List Piece} {o : Outline}

/-- There is one rendering at most: what a node is decides which rule it falls under. -/
theorem Renders.unique (h : d.Renders ns depth pieces) (h' : d.Renders ns depth other) : pieces = other := by
  induction h generalizing other with
  | nil =>
    cases h'
    rfl
  | root hget hbelow _ _ ihinside ihafter =>
    cases h' with
    | root _ hbelow' hinside' hafter' =>
      obtain rfl := Except.ok.inj (hbelow.symm.trans hbelow')
      rw [ihinside hinside', ihafter hafter']
    | leaf hget' | empty hget' | element hget' => cases hget.symm.trans hget'
  | leaf hget _ ihafter =>
    cases h' with
    | leaf hget' hafter' =>
      cases hget.symm.trans hget'
      rw [ihafter hafter']
    | root hget' | empty hget' | element hget' => cases hget.symm.trans hget'
  | empty hget hattributes hbelow _ ihafter =>
    cases h' with
    | empty hget' hattributes' _ hafter' =>
      cases hget.symm.trans hget'
      cases hattributes.symm.trans hattributes'
      rw [ihafter hafter']
    | element _ _ hbelow' => cases hbelow.symm.trans hbelow'
    | root hget' | leaf hget' => cases hget.symm.trans hget'
  | element hget hattributes hbelow _ _ ihinside ihafter =>
    cases h' with
    | element hget' hattributes' hbelow' hinside' hafter' =>
      cases hget.symm.trans hget'
      cases hattributes.symm.trans hattributes'
      cases hbelow.symm.trans hbelow'
      rw [ihinside hinside', ihafter hafter']
    | empty _ _ hbelow' => cases hbelow.symm.trans hbelow'
    | root hget' | leaf hget' => cases hget.symm.trans hget'

/-- The nodes at the top of an outline that is carried are rendered as its forest. -/
theorem renders_of_carries (h : d.store.Carries p o) (depth : Nat) : d.Renders o.tops depth (o.forest.piecesAt depth) := by
  induction o generalizing p depth with
  | nil => exact .nil
  | leaf n text next ih =>
    have hget : d.get n = .ok (.leaf text) := get_of_carries (t := .leaf n text) h
    exact .leaf hget (ih (Store.Carries.tail (t := .leaf n text) h) depth)
  | element n name pairs below next ihb ihn =>
    have hget : d.get n = .ok (.element name (pairs.map Prod.fst)) :=
      get_of_carries (t := .element n name pairs below) h
    have hattributes : d.attributes n = .ok (pairs.map Prod.snd) :=
      attributes_of_carries (t := .element n name pairs below) h
    have hbelow : d.children n = .ok below.tops := children_of_carries (t := .element n name pairs below) h
    have hinside := ihb (Store.Carries.below (t := .element n name pairs below) h) (depth + 1)
    have hafter := ihn (Store.Carries.tail (t := .element n name pairs below) h) depth
    rw [Outline.forest, Forest.piecesAt]
    cases below with
    | nil => exact .empty hget hattributes hbelow hafter
    | leaf c text more =>
      rw [if_neg (by rintro ⟨⟩), List.cons_append, List.append_assoc]
      exact .element hget hattributes hbelow hinside hafter
    | element c name' pairs' inner more =>
      rw [if_neg (by rintro ⟨⟩), List.cons_append, List.append_assoc]
      exact .element hget hattributes hbelow hinside hafter

end Document

/-! ## The stack -/

/-- What a printer still has to do: enter a node at a depth, or leave an element. -/
inductive PrintStep
  | enter (n : NodeRef) (depth : Nat)
  | leave (n : NodeRef) (depth : Nat)
deriving DecidableEq, Repr

/-- A printer with the steps that it still has to take, the next one first, and what it has written. -/
structure Printer where
  steps : List PrintStep
  written : Markup.Written
deriving DecidableEq, Repr

namespace Document

/-- Enters a node: writes a text or the tag of an element, and puts the children before the other steps. -/
def enter (d : Document) (options : PrintOptions) (n : NodeRef) (depth : Nat) (rest : Printer) :
    Except DocumentError Printer := do
  let below ← d.children n
  match ← d.get n with
  | .root => return { rest with steps := below.map (.enter · depth) ++ rest.steps }
  | .leaf text => return { rest with written := rest.written.put options ⟨depth, escapeText text⟩ }
  | .element name _ => do
    let attributes ← d.attributes n
    if below = [] then return { rest with written := rest.written.put options ⟨depth, emptyTag name attributes⟩ }
    else return {
      steps := below.map (.enter · (depth + 1)) ++ .leave n depth :: rest.steps
      written := rest.written.put options ⟨depth, openTag name attributes⟩ }

/-- Leaves an element: writes the tag that ends it. -/
def leave (d : Document) (options : PrintOptions) (n : NodeRef) (depth : Nat) (rest : Printer) :
    Except DocumentError Printer := do
  match ← d.get n with
  | .element name _ => return { rest with written := rest.written.put options ⟨depth, closeTag name⟩ }
  | _ => return rest

/-- Takes a step, with the rest of the printer. -/
def perform (d : Document) (options : PrintOptions) (rest : Printer) : PrintStep → Except DocumentError Printer
  | .enter n depth => d.enter options n depth rest
  | .leave n depth => d.leave options n depth rest

/-- One printer becomes another by its next step. -/
def Performs (d : Document) (options : PrintOptions) (s s' : Printer) : Prop :=
  ∃ next steps, s.steps = next :: steps ∧ d.perform options { s with steps } next = .ok s'

/-- A printer that has only a node to enter takes its steps to the last one, and then has written a text. -/
def Prints (d : Document) (options : PrintOptions) (n : NodeRef) (text : String) : Prop :=
  ∃ s : Printer, Relation.ReflTransGen (d.Performs options) ⟨[.enter n 0], .start⟩ s ∧ s.steps = [] ∧ s.written.text = text

variable {d : Document} {n : NodeRef} {ns : List NodeRef} {depth : Nat} {pieces : List Piece} {options : PrintOptions}
  {text : String} {p : NodeRef} {trees : List OutlineTree}

/-- A printer has one next step. -/
theorem performs_rightUnique (d : Document) (options : PrintOptions) : Relator.RightUnique (d.Performs options) := by
  rintro s a b ⟨next, steps, hsteps, ha⟩ ⟨next', steps', hsteps', hb⟩
  cases hsteps.symm.trans hsteps'
  exact Except.ok.inj (ha.symm.trans hb)

/-- A printer without steps does not go on. -/
theorem eq_of_performs {s s' : Printer} (hsteps : s.steps = []) (h : Relation.ReflTransGen (d.Performs options) s s') :
    s = s' := by
  rcases h.cases_head with heq | ⟨_, ⟨next, steps, hnext, _⟩, _⟩
  · exact heq
  · cases hsteps.symm.trans hnext

/-- A printer comes to one text at most. -/
theorem Prints.unique {text' : String} (h : d.Prints options n text) (h' : d.Prints options n text') : text = text' := by
  obtain ⟨s, hs, hsteps, rfl⟩ := h
  obtain ⟨s', hs', hsteps', rfl⟩ := h'
  rcases Relation.ReflTransGen.total_of_right_unique (d.performs_rightUnique options) hs hs' with hlater | hlater
  · rw [eq_of_performs hsteps hlater]
  · rw [eq_of_performs hsteps' hlater]

theorem exists_children {payload : Payload} (hget : d.get n = .ok payload) : ∃ below, d.children n = .ok below := by
  rw [get] at hget
  rw [children]
  cases hnode : d.node n with
  | ok node => exact ⟨node.children, rfl⟩
  | error e =>
    rw [hnode] at hget
    cases hget

/-- A step of a printer, and then the steps that follow. -/
theorem performs_head {next : PrintStep} {steps : List PrintStep} {w : Written} {s s' : Printer}
    (hstep : d.perform options ⟨steps, w⟩ next = .ok s) (h : Relation.ReflTransGen (d.Performs options) s s') :
    Relation.ReflTransGen (d.Performs options) ⟨next :: steps, w⟩ s' :=
  .head ⟨next, steps, rfl, hstep⟩ h

/-- A printer that has to enter nodes in a row puts down their pieces and comes to the steps behind them. The induction is on
the recursion: the children of an element stand in front of the step that leaves it, and that in front of its siblings. -/
theorem Renders.performs (h : d.Renders ns depth pieces) (options : PrintOptions) (steps : List PrintStep) (w : Written) :
    Relation.ReflTransGen (d.Performs options) ⟨ns.map (.enter · depth) ++ steps, w⟩ ⟨steps, w.putAll options pieces⟩ := by
  induction h generalizing steps w with
  | nil => exact .refl
  | @root n below next depth inside after hget hbelow _ _ ihinside ihafter =>
    have hstep : d.perform options ⟨next.map (.enter · depth) ++ steps, w⟩ (.enter n depth) =
        .ok ⟨below.map (.enter · depth) ++ (next.map (.enter · depth) ++ steps), w⟩ := by
      rw [perform, enter, hbelow, hget]
      rfl
    rw [Written.putAll_append]
    exact performs_head hstep ((ihinside _ w).trans (ihafter steps _))
  | @leaf n next depth text after hget _ ihafter =>
    obtain ⟨below, hbelow⟩ := exists_children hget
    have hstep : d.perform options ⟨next.map (.enter · depth) ++ steps, w⟩ (.enter n depth) =
        .ok ⟨next.map (.enter · depth) ++ steps, w.put options ⟨depth, escapeText text⟩⟩ := by
      rw [perform, enter, hbelow, hget]
      rfl
    exact performs_head hstep (ihafter steps _)
  | @empty n next depth name refs attributes after hget hattributes hbelow _ ihafter =>
    have hstep : d.perform options ⟨next.map (.enter · depth) ++ steps, w⟩ (.enter n depth) =
        .ok ⟨next.map (.enter · depth) ++ steps, w.put options ⟨depth, emptyTag name attributes⟩⟩ := by
      rw [perform, enter, hbelow, hget]
      simp only [bind, Except.bind, hattributes]
      rfl
    exact performs_head hstep (ihafter steps _)
  | @element n child below next depth name refs attributes inside after hget hattributes hbelow _ _ ihinside ihafter =>
    have henter : d.perform options ⟨next.map (.enter · depth) ++ steps, w⟩ (.enter n depth) =
        .ok ⟨(child :: below).map (.enter · (depth + 1)) ++ .leave n depth :: (next.map (.enter · depth) ++ steps),
          w.put options ⟨depth, openTag name attributes⟩⟩ := by
      rw [perform, enter, hbelow, hget]
      simp only [bind, Except.bind, hattributes]
      rfl
    have hleave : ∀ w, d.perform options ⟨next.map (.enter · depth) ++ steps, w⟩ (.leave n depth) =
        .ok ⟨next.map (.enter · depth) ++ steps, w.put options ⟨depth, closeTag name⟩⟩ := by
      intro w
      rw [perform, leave, hget]
      rfl
    rw [Written.putAll_cons, Written.putAll_append, Written.putAll_cons]
    exact performs_head henter ((ihinside _ _).trans (performs_head (hleave _) (ihafter steps _)))

/-- A printer prints what a node is rendered as. -/
theorem Renders.prints (h : d.Renders [n] 0 pieces) (options : PrintOptions) : d.Prints options n (layout options pieces) :=
  ⟨⟨[], Written.start.putAll options pieces⟩, h.performs options [] .start, rfl, Written.putAll_start options pieces⟩

/-! ## What is printed -/

/-- A node of a document stands for a forest, and is rendered as its pieces. -/
theorem Reachable.exists_renders (h : d.Reachable) (hn : d.Has n) :
    ∃ f, d.forestAt n = .ok f ∧ d.Renders [n] 0 (f.piecesAt 0) := by
  by_cases hroot : n = d.root
  · subst hroot
    have hinside := renders_of_carries (.of_shows h.shows) 0
    have hrenders := Renders.root h.get_root h.children_root hinside .nil
    rw [List.append_nil] at hrenders
    exact ⟨d.forest, h.forestAt_root, hrenders⟩
  · obtain ⟨t, p, rfl, hcarried⟩ := h.exists_tree hn hroot
    refine ⟨t.tree.forest, forestAt_of_carries hcarried, ?_⟩
    have hrenders := renders_of_carries hcarried 0
    rwa [Outline.tops_ofList, Outline.forest_ofList] at hrenders

/-- The nodes at the top of an outline that is carried are printed one by one as its trees. -/
theorem mapM_printNode (h : d.store.Carries p (.ofList trees)) (options : PrintOptions) :
    (trees.map OutlineTree.node).mapM (d.printNode · options) = .ok (trees.map fun t => t.tree.forest.print options) := by
  induction trees with
  | nil => rfl
  | cons t trees ih =>
    have hfirst : d.printNode t.node options = .ok (t.tree.forest.print options) := by
      rw [printNode, forestAt_of_carries h]
      rfl
    rw [List.map_cons, List.mapM_cons, hfirst, ih h.tail]
    rfl

/-- Where lines are written, the root is printed as its children with breaks between them. -/
theorem Reachable.printNode_root (h : d.Reachable) (hminify : options.minify = false) :
    ∃ below texts, d.children d.root = .ok below ∧ below.mapM (d.printNode · options) = .ok texts ∧
      d.printNode d.root options = .ok ("\n".intercalate texts) := by
  have hcarried : d.store.Carries (Store.rootOf d.id) (.ofList d.outline.toList) := by
    rw [Outline.ofList_toList]
    exact .of_shows h.shows
  refine ⟨d.outline.tops, _, h.children_root, mapM_printNode hcarried options, ?_⟩
  rw [printNode, h.forestAt_root, forest, Outline.forest_eq]
  simp only [bind, Except.bind, Forest.print_ofList hminify, List.map_map]
  rfl

/-- At every node of a document, the printer with its stack comes to one text: that of the pieces as which the recursion
renders the node, laid out. It is the text at every node of any document that stands for the same forest. Where lines are
written, the root is printed as its children with breaks between them. -/
theorem prints_recursively (h : d.Reachable) (hn : d.Has n) (options : PrintOptions) :
    (∃ pieces, (∀ other, d.Renders [n] 0 other ↔ other = pieces) ∧
      (∀ text, d.Prints options n text ↔ text = layout options pieces) ∧
      d.printNode n options = .ok (layout options pieces)) ∧
    (∀ (e : Document) (m : NodeRef), e.Reachable → e.Has m → e.forestAt m = d.forestAt n →
      ∀ text, e.Prints options m text ↔ d.Prints options n text) ∧
    (options.minify = false → ∃ below texts, d.children d.root = .ok below ∧
      below.mapM (d.printNode · options) = .ok texts ∧ d.printNode d.root options = .ok ("\n".intercalate texts)) := by
  obtain ⟨f, hforest, hrenders⟩ := h.exists_renders hn
  have hprints := hrenders.prints options
  refine ⟨⟨f.piecesAt 0, ?_, ?_, ?_⟩, ?_, fun hminify => h.printNode_root hminify⟩
  · intro other
    exact ⟨fun hother => hother.unique hrenders, fun heq => heq ▸ hrenders⟩
  · intro text
    exact ⟨fun htext => htext.unique hprints, fun heq => heq ▸ hprints⟩
  · rw [printNode, hforest, ← f.pieces_eq]
    rfl
  · intro e m he hm hsame text
    obtain ⟨g, hforest', hrenders'⟩ := he.exists_renders hm
    obtain rfl : g = f := Except.ok.inj (hforest'.symm.trans (hsame.trans hforest))
    have hprints' := hrenders'.prints options
    exact ⟨fun htext => htext.unique hprints' ▸ hprints, fun htext => htext.unique hprints ▸ hprints'⟩

/-- A paragraph with two words in it, behind a text. -/
def paragraphBehindText : Document :=
  (Document.empty ⟨1⟩).after (.applyEdits [.append [] (.leaf "a<b"),
    .append [] (.element ⟨"", "p"⟩ [⟨⟨"", "id"⟩, "x"⟩] (.leaf "one" (.element ⟨"", "br"⟩ [] .nil (.leaf "two" .nil))))])

/-- The paragraph is printed with its words one level deeper, and the root as the text and the paragraph, one after the
other. -/
theorem paragraph_is_printed :
    paragraphBehindText.Prints .pretty ⟨⟨1⟩, ⟨2, 0⟩⟩ "<p id=\"x\">\n    one\n    <br />\n    two\n</p>" ∧
    paragraphBehindText.Prints .pretty paragraphBehindText.root
      "a&lt;b\n<p id=\"x\">\n    one\n    <br />\n    two\n</p>" := by
  have hd : paragraphBehindText.Reachable := .applyEdits (.empty ⟨1⟩) _
  have hn : paragraphBehindText.Has ⟨⟨1⟩, ⟨2, 0⟩⟩ := ⟨_, by cbv⟩
  have hroot : paragraphBehindText.Has paragraphBehindText.root := ⟨_, by cbv⟩
  obtain ⟨⟨pieces, -, hprints, htext⟩, -, -⟩ := prints_recursively hd hn .pretty
  obtain ⟨⟨pieces', -, hprints', htext'⟩, -, -⟩ := prints_recursively hd hroot .pretty
  have hparagraph : paragraphBehindText.printNode ⟨⟨1⟩, ⟨2, 0⟩⟩ .pretty =
      .ok "<p id=\"x\">\n    one\n    <br />\n    two\n</p>" := by cbv
  have hwhole : paragraphBehindText.printNode paragraphBehindText.root .pretty =
      .ok "a&lt;b\n<p id=\"x\">\n    one\n    <br />\n    two\n</p>" := by cbv
  exact ⟨(hprints _).mpr (Except.ok.inj (hparagraph.symm.trans htext)),
    (hprints' _).mpr (Except.ok.inj (hwhole.symm.trans htext'))⟩

end Document

end LiveMarkup
