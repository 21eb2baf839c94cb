import Mathlib.Data.List.Basic
import LiveMarkup.Proofs.JoinedTexts

/-!
# White space kept and white space dropped

A source is read twice, with white space kept and with white space dropped. The tokens are the same, and after each of them the
second reading has put together what the first has, with white space dropped in it (`Nesting.trimmed`): it puts down a text
where the first one does and something is left of it, opens and ends the same elements, and stops at the same fault
(`Nesting.step_trimmed`). So both come to the same fault, or both to a forest, and the second forest is the first with white
space dropped (`Forest.parse_trimmed`).
-/

namespace LiveMarkup

/-- White space dropped from the ends of every text, and the texts left out that come to nothing. -/
def Forest.trimmed (f : Forest) : Forest :=
  (f.spaced .trimmed).withoutEmpty

/-- The node with white space dropped in it, unless it is a text that comes to nothing. -/
def Tree.trimmed? : Tree → Option Tree
  | leaf text =>
    if (Text.trim text.toList).isEmpty then none else some (.leaf (String.ofList (Text.trim text.toList)))
  | element name attributes children => some (.element name attributes children.trimmed)

namespace Forest

variable {text : String} {next : Forest}

/-- A text that comes to nothing is left out. -/
theorem trimmed_leaf_of_isEmpty (h : (Text.trim text.toList).isEmpty = true) : (leaf text next).trimmed = next.trimmed := by
  have hempty : String.ofList (Spacing.apply .trimmed text.toList) = "" := by
    rw [Spacing.apply, List.isEmpty_iff.mp h, String.ofList_nil]
  rw [trimmed, spaced, withoutEmpty, if_pos hempty, trimmed]

/-- A text of which something is left is put down trimmed. -/
theorem trimmed_leaf (h : (Text.trim text.toList).isEmpty = false) :
    (leaf text next).trimmed = leaf (String.ofList (Text.trim text.toList)) next.trimmed := by
  have hne : String.ofList (Spacing.apply .trimmed text.toList) ≠ "" := by
    intro hempty
    have hlist := congrArg String.toList hempty
    rw [String.toList_ofList] at hlist
    exact List.isEmpty_eq_false_iff.mp h hlist
  rw [trimmed, spaced, withoutEmpty, if_neg hne]
  rfl

/-- White space is dropped from a forest tree by tree. -/
theorem trimmed_ofList (trees : List Tree) : (ofList trees).trimmed = ofList (trees.filterMap Tree.trimmed?) := by
  induction trees with
  | nil => rfl
  | cons t trees ih =>
    cases t with
    | leaf text =>
      cases h : (Text.trim text.toList).isEmpty with
      | true =>
        have hnone : Tree.trimmed? (.leaf text) = none := by simp only [Tree.trimmed?, h, if_true]
        rw [List.filterMap_cons_none hnone, ← ih]
        exact trimmed_leaf_of_isEmpty h
      | false =>
        have hsome : Tree.trimmed? (.leaf text) = some (.leaf (String.ofList (Text.trim text.toList))) := by
          simp only [Tree.trimmed?, h, Bool.false_eq_true, if_false]
        rw [List.filterMap_cons_some hsome]
        exact (trimmed_leaf h).trans (congrArg _ ih)
    | element name attributes children =>
      have hsome : Tree.trimmed? (.element name attributes children) = some (.element name attributes children.trimmed) := rfl
      rw [List.filterMap_cons_some hsome]
      exact congrArg (element name attributes children.trimmed) ih

end Forest

/-! ## Two readings of the same tokens -/

/-- The open element with white space dropped in the siblings before it. -/
def OpenElement.trimmed (e : OpenElement) : OpenElement :=
  { e with before := e.before.filterMap Tree.trimmed? }

namespace Nesting

/-- What has been put together with white space dropped in it. The text that is not put down yet is as it was read. -/
def trimmed (n : Nesting) : Nesting :=
  ⟨n.opened.map OpenElement.trimmed, n.siblings.filterMap Tree.trimmed?, n.text⟩

/-- A text is put down in both readings or in neither, but in the second only if something is left of it. -/
theorem flush_trimmed (n : Nesting) : n.trimmed.flush .trimmed = (n.flush .kept).trimmed := by
  have hsiblings : (n.trimmed.flush .trimmed).siblings = (n.flush .kept).trimmed.siblings := by
    have htext : n.trimmed.text = n.text := rfl
    have hkept : (n.flush .kept).siblings =
        if n.text.isEmpty then n.siblings else .leaf (String.ofList n.text) :: n.siblings := rfl
    rw [siblings_flush_trimmed, htext, trimmed, trimmed, hkept]
    split
    · rename_i hempty
      split
      · rfl
      · rw [List.filterMap_cons, Tree.trimmed?, String.toList_ofList, if_pos hempty]
    · rename_i hleft
      rw [if_neg (fun hempty => hleft (by rw [List.isEmpty_iff.mp hempty]; rfl)), List.filterMap_cons, Tree.trimmed?,
        String.toList_ofList, if_neg hleft]
  exact congrArg (fun siblings => Nesting.mk (n.opened.map OpenElement.trimmed) siblings []) hsiblings

theorem begin_trimmed (n : Nesting) (offset : Nat) (written : Slice) (name : QName) (attributes : List Attribute)
    (closed : Bool) :
    n.trimmed.begin offset written name attributes closed = (n.begin offset written name attributes closed).trimmed := by
  cases closed <;> rfl

/-- The nodes of the innermost element, with white space dropped in them. -/
theorem ofList_siblings_trimmed (n : Nesting) :
    Forest.ofList n.trimmed.siblings.reverse = (Forest.ofList n.siblings.reverse).trimmed := by
  rw [Forest.trimmed_ofList, List.filterMap_reverse, trimmed]

/-- Both readings end the same element, or stop at the same fault. -/
theorem finish_trimmed (n : Nesting) (offset : Nat) (written : Slice) :
    n.trimmed.finish offset written = (n.finish offset written).map trimmed := by
  have hchildren := n.ofList_siblings_trimmed
  obtain ⟨opened, siblings, text⟩ := n
  cases opened with
  | nil => rfl
  | cons e outer =>
    have hopened : (trimmed ⟨e :: outer, siblings, text⟩).opened = e.trimmed :: outer.map OpenElement.trimmed := rfl
    have hwritten : e.trimmed.written = e.written := rfl
    simp only [finish, hopened, hwritten, hchildren]
    split <;> rfl

/-- One token leads both readings on alike. -/
theorem step_trimmed (n : Nesting) (t : Token) : n.trimmed.step .trimmed t = (n.step .kept t).map trimmed := by
  cases t with
  | text run decoded => rfl
  | verbatim body => rfl
  | aside whole => rfl
  | startTag offset written name attributes closed =>
    rw [step, flush_trimmed, begin_trimmed]
    rfl
  | endTag offset written => rw [step, flush_trimmed, finish_trimmed, step]

/-- And so do many. -/
theorem steps_trimmed (n : Nesting) (tokens : List Token) :
    n.trimmed.steps .trimmed tokens = (n.steps .kept tokens).map trimmed := by
  induction tokens generalizing n with
  | nil => rfl
  | cons t rest ih =>
    rw [steps, steps, step_trimmed]
    cases n.step .kept t with
    | error e => rfl
    | ok n' => exact ih n'

/-- At the end of the source the same element is still open in both readings, if any is. -/
theorem forest_trimmed (n : Nesting) : n.trimmed.forest .trimmed = (n.forest .kept).map Forest.trimmed := by
  have hflush := n.flush_trimmed
  have hforest := (n.flush .kept).ofList_siblings_trimmed
  obtain ⟨opened, siblings, text⟩ := n
  cases opened with
  | nil =>
    rw [← hflush] at hforest
    exact congrArg Except.ok hforest
  | cons e outer => rfl

end Nesting

/-- The two forests of a scanned source. -/
theorem Scan.forest_trimmed (s : Scan) : s.forest .trimmed = (s.forest .kept).map Forest.trimmed := by
  have hsteps : Nesting.start.steps .trimmed s.tokens = (Nesting.start.steps .kept s.tokens).map Nesting.trimmed :=
    Nesting.start.steps_trimmed s.tokens
  rw [forest, forest, hsteps]
  cases Nesting.start.steps .kept s.tokens with
  | error e => rfl
  | ok n =>
    cases s.fault with
    | some e => rfl
    | none => exact n.forest_trimmed

/-- With white space dropped a source is read as with white space kept, and then white space is dropped from the texts. -/
theorem Forest.parse_trimmed (source : String) :
    Forest.parse source .trimmed = (Forest.parse source .kept).map Forest.trimmed := by
  rw [parse, parse]
  simp only [Scan.forest_trimmed]
  cases (Scan.ofSource source.toList).forest .kept <;> rfl

/-- A source cannot be read with white space dropped exactly where it cannot be read with white space kept, with the same fault
at the same place. Where it can, the two documents have the same elements and attributes in the same order, and the same texts
but for the white space at their ends and those that are nothing else. -/
theorem Document.spacings_agree (id : DocumentId) (source : String) :
    (∀ e, Document.parse id source .trimmed = .error e ↔ Document.parse id source .kept = .error e) ∧
      (Document.parse id source .trimmed).map Document.forest =
        (Document.parse id source .kept).map fun d => d.forest.trimmed := by
  rw [parse, parse, Forest.parse_trimmed]
  cases Forest.parse source .kept with
  | error e => exact ⟨fun _ => Iff.rfl, rfl⟩
  | ok f =>
    constructor
    · intro e
      constructor <;> rintro ⟨⟩
    · simp only [Except.map, forest_ofForest]

end LiveMarkup
