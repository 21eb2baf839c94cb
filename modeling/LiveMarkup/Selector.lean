import LiveMarkup.Document.Basic
import LiveMarkup.Text.Find
import LiveMarkup.Text.WhiteSpace

/-!
# Selecting elements

A selector is a test of elements: of their names, their attributes, and the elements above them. A selection lists the
elements that pass the test, in document order. A selector that can only be passed by the element with some id ends its
selection at the first element found.
-/

namespace LiveMarkup

/-- What the value of an attribute is compared with. -/
inductive ValueTest
  /-- There is a value, whatever it is. -/
  | any
  | equals (s : String)
  /-- The text is one of the words of the value. -/
  | hasWord (s : String)
  | startsWith (s : String)
  | endsWith (s : String)
  | contains (s : String)
deriving DecidableEq, Repr

/-- Whether a value passes the test. -/
def ValueTest.passes (value : String) : ValueTest → Bool
  | any => true
  | equals s => value == s
  | hasWord s => (Text.words value.toList).contains s.toList
  | startsWith s => s.toList.isPrefixOf value.toList
  | endsWith s => s.toList.isSuffixOf value.toList
  | contains s => Text.holds s.toList value.toList

/-- A test of elements. -/
inductive Selector
  /-- Every element passes. -/
  | all
  /-- The name as it is written. -/
  | tag (written : String)
  /-- The value of an attribute `id`. -/
  | id (value : String)
  | and (left right : Selector)
  | or (left right : Selector)
  /-- Some element above passes the first test, and the element the second. -/
  | descendant (above inner : Selector)
  /-- The parent is an element that passes the first test, and the element passes the second. -/
  | child (parent inner : Selector)
  /-- Some attribute with a written name has a value that passes a test. -/
  | hasAttribute (written : String) (test : ValueTest)
deriving DecidableEq, Repr

namespace Selector

/-- Whether only the element with some id can pass. -/
def isUnique : Selector → Bool
  | id _ => true
  | and left right => left.isUnique || right.isUnique
  | descendant _ inner => inner.isUnique
  | child _ inner => inner.isUnique
  | _ => false

/-- Whether a node has an attribute with a written name whose value passes a test. -/
def attributePasses (d : Document) (n : NodeRef) (written : String) (test : ValueTest) : Bool :=
  match d.attributes n with
  | .ok attributes => attributes.any fun a => a.isNamed written && test.passes a.value
  | .error _ => false

/-- Whether a node is an element that passes the test. -/
def matchesNode (d : Document) : Selector → NodeRef → Bool
  | selector, n =>
    match d.store.node? n with
    | some ⟨.element name _, _, _⟩ =>
      match selector with
      | all => true
      | tag written => name.qualified == written
      | id value => attributePasses d n "id" (.equals value)
      | and left right => left.matchesNode d n && right.matchesNode d n
      | or left right => left.matchesNode d n || right.matchesNode d n
      | descendant above inner => inner.matchesNode d n && (d.store.ancestors n).any fun m => above.matchesNode d m
      | child parent inner => inner.matchesNode d n && (d.store.ancestors n).head?.any fun m => parent.matchesNode d m
      | hasAttribute written test => attributePasses d n written test
    | _ => false

/-- The nodes that pass the test, or the first of them if there can be only one. -/
def filter (selector : Selector) (d : Document) (nodes : List NodeRef) : List NodeRef :=
  let found := nodes.filter (selector.matchesNode d)
  if selector.isUnique then found.take 1 else found

end Selector

namespace Document

/-- The elements that pass a test. -/
def select (d : Document) (selector : Selector) : List NodeRef :=
  selector.filter d d.outline.nodes

/-- The elements below a node that pass a test. -/
def selectWithin (d : Document) (n : NodeRef) (selector : Selector) : Except DocumentError (List NodeRef) := do
  return selector.filter d (← d.descendants n)

/-- The first element with an id. -/
def byId (d : Document) (value : String) : Option NodeRef :=
  (d.select (.id value)).head?

end Document

end LiveMarkup
