import Mathlib.Data.List.Chain
import Mathlib.Data.List.DropRight
import LiveMarkup.Proofs.Layout
import LiveMarkup.Proofs.Reachable

/-!
# Printing and reading again

A document is *canonical* when its names are legal, its texts are trimmed, and no two texts stand side by side. What is read
with white space dropped is canonical (`Forest.canonical_parse`): a text is put down trimmed, and an element follows before
the next one is. In the other direction the text of a canonical forest is heard with filler around it and trimmed to what it
was (`Nesting.Takes.siblings_flush`), so that a canonical document is read back from its print
(`Document.canonical_round_trip`).
-/

namespace LiveMarkup

/-! ## Trimmed texts -/

namespace Text

/-- There is something in the text, and no white space at its ends. -/
structure Trimmed (s : List Char) : Prop where
  ne_nil : s ≠ []
  head : ∀ c ∈ s.head?, isWhiteSpace c = false
  last : ∀ c ∈ s.getLast?, isWhiteSpace c = false

variable {s gap : List Char}

theorem trim_eq (s : List Char) : trim s = (s.dropWhile isWhiteSpace).rdropWhile isWhiteSpace := rfl

/-- Nothing is left of white space. -/
theorem trim_of_white (h : ∀ c ∈ s, isWhiteSpace c = true) : trim s = [] := by
  rw [trim_eq, List.dropWhile_eq_nil_iff.mpr h, List.rdropWhile_nil]

/-- White space after a text is left out. -/
theorem trim_append_white (h : ∀ c ∈ gap, isWhiteSpace c = true) : trim (s ++ gap) = trim s := by
  have hreverse : ∀ c ∈ gap.reverse, isWhiteSpace c = true := fun c hc => h c (List.mem_reverse.mp hc)
  rw [trim_eq, trim_eq, List.dropWhile_append]
  split
  · rename_i hempty
    rw [List.isEmpty_iff.mp hempty, List.dropWhile_eq_nil_iff.mpr h]
  · rw [List.rdropWhile, List.reverse_append, List.dropWhile_append_of_pos hreverse]
    rfl

/-- White space before a trimmed text is left out, and nothing else. -/
theorem trim_white_append (h : ∀ c ∈ gap, isWhiteSpace c = true) (hs : Trimmed s) : trim (gap ++ s) = s := by
  have hhead : s.dropWhile isWhiteSpace = s := by
    obtain ⟨c, rest, rfl⟩ := List.exists_cons_of_ne_nil hs.ne_nil
    exact List.dropWhile_cons_of_neg (by rw [hs.head c rfl]; exact Bool.false_ne_true)
  rw [trim_eq, List.dropWhile_append_of_pos h, hhead, List.rdropWhile_eq_self_iff]
  intro hne
  rw [hs.last _ (List.getLast?_eq_some_getLast hne)]
  exact Bool.false_ne_true

/-- What is left of a text is trimmed, if anything is. -/
theorem trimmed_trim (h : trim s ≠ []) : Trimmed (trim s) := by
  refine ⟨h, ?_, ?_⟩
  · intro c hc
    obtain ⟨after, hafter⟩ : trim s <+: s.dropWhile isWhiteSpace := List.rdropWhile_prefix isWhiteSpace _
    have hfirst : (s.dropWhile isWhiteSpace).head? = some c := by
      rw [← hafter, List.head?_append, Option.mem_def.mp hc]
      rfl
    have hnot := List.head?_dropWhile_not isWhiteSpace s
    rw [hfirst] at hnot
    simpa using hnot
  · intro c hc
    have hlast : ¬isWhiteSpace ((trim s).getLast h) = true := List.rdropWhile_last_not isWhiteSpace _ h
    rw [List.getLast?_eq_some_getLast h] at hc
    cases hc
    simpa using hlast

end Text

/-! ## Canonical forests -/

/-- Whether the node is a text. -/
def Tree.isLeaf : Tree → Bool
  | leaf _ => true
  | element _ _ _ => false

/-- One of the two nodes is an element. -/
def Tree.Apart (t u : Tree) : Prop :=
  t.isLeaf = false ∨ u.isLeaf = false

namespace Forest

/-- Every text is trimmed, and no two stand side by side. -/
def Tidy : Forest → Prop
  | nil => True
  | leaf text next => Text.Trimmed text.toList ∧ (∀ t ∈ next.toList.head?, t.isLeaf = false) ∧ next.Tidy
  | element _ _ children next => children.Tidy ∧ next.Tidy

/-- The names are legal, every text is trimmed, and no two stand side by side. -/
structure Canonical (f : Forest) : Prop where
  legal : f.Legal
  tidy : f.Tidy

/-- A trimmed text is tidy by itself. -/
theorem tidy_leaf {text : String} (h : Text.Trimmed text.toList) : (Tree.leaf text).forest.Tidy :=
  ⟨h, fun _ ht => (Option.not_mem_none _ ht).elim, trivial⟩

/-- The forest of trees is tidy if each of them is and no two texts among them are neighbours. -/
theorem tidy_ofList {trees : List Tree} :
    (ofList trees).Tidy ↔ (∀ t ∈ trees, t.forest.Tidy) ∧ trees.IsChain Tree.Apart := by
  induction trees with
  | nil => simp [ofList, Tidy]
  | cons t trees ih =>
    have hcons : (ofList (t :: trees)) = cons t (ofList trees) := rfl
    rw [hcons, List.forall_mem_cons, List.isChain_cons]
    cases t with
    | leaf text =>
      simp only [cons, Tidy, toList_ofList, ih, Tree.forest, toList, Tree.Apart, Tree.isLeaf]
      simp
      tauto
    | element name attributes children =>
      simp only [cons, Tidy, ih, Tree.forest, Tree.Apart, Tree.isLeaf]
      simp
      tauto

end Forest

namespace Nesting

/-- Nodes of an element, the last of which comes first, are tidy. -/
def TidySiblings (siblings : List Tree) : Prop :=
  (∀ t ∈ siblings, t.forest.Tidy) ∧ siblings.IsChain Tree.Apart

/-- All that has been put together is tidy, and a text may follow. -/
structure Tidy (n : Nesting) : Prop where
  opened : ∀ e ∈ n.opened, TidySiblings e.before
  siblings : TidySiblings n.siblings
  head : ∀ t ∈ n.siblings.head?, t.isLeaf = false

variable {n n' : Nesting}

/-- A text is put down trimmed, if anything is left of it. -/
theorem siblings_flush_trimmed (n : Nesting) : (n.flush .trimmed).siblings =
    if (Text.trim n.text).isEmpty then n.siblings else .leaf (String.ofList (Text.trim n.text)) :: n.siblings := rfl

/-- Nodes in order are tidy if they are when the last comes first. -/
theorem TidySiblings.tidy_ofList {siblings : List Tree} (h : TidySiblings siblings) :
    (Forest.ofList siblings.reverse).Tidy := by
  refine Forest.tidy_ofList.mpr ⟨fun t ht => h.1 t (List.mem_reverse.mp ht), ?_⟩
  rw [List.isChain_reverse]
  exact h.2.imp fun t u htu => htu.symm

/-- A tidy element may follow any node. -/
theorem TidySiblings.cons {siblings : List Tree} (h : TidySiblings siblings) {name : QName} {attributes : List Attribute}
    {children : Forest} (hchildren : children.Tidy) : TidySiblings (.element name attributes children :: siblings) := by
  refine ⟨List.forall_mem_cons.mpr ⟨⟨hchildren, trivial⟩, h.1⟩, List.isChain_cons.mpr ⟨?_, h.2⟩⟩
  intro t _
  exact Or.inl rfl

theorem Tidy.start : Nesting.start.Tidy :=
  ⟨List.forall_mem_nil _, ⟨List.forall_mem_nil _, List.IsChain.nil⟩, fun _ h => by cases h⟩

/-- A text that is put down after an element is trimmed. -/
theorem Tidy.flush (h : n.Tidy) : TidySiblings (n.flush .trimmed).siblings := by
  rw [siblings_flush_trimmed]
  split
  · exact h.siblings
  · rename_i hempty
    rw [List.isEmpty_iff] at hempty
    refine ⟨List.forall_mem_cons.mpr ⟨Forest.tidy_leaf ?_, h.siblings.1⟩, ?_⟩
    · rw [String.toList_ofList]
      exact Text.trimmed_trim hempty
    · refine List.isChain_cons.mpr ⟨?_, h.siblings.2⟩
      intro t ht
      exact Or.inr (h.head t ht)

theorem Tidy.tree (h : n.Tidy) : (Forest.ofList (n.flush .trimmed).siblings.reverse).Tidy :=
  h.flush.tidy_ofList

/-- An element that is put down after what is tidy leaves it tidy. -/
theorem Tidy.of_element {opened : List OpenElement} {before : List Tree} (hopened : ∀ e ∈ opened, TidySiblings e.before)
    (hbefore : TidySiblings before) {name : QName} {attributes : List Attribute} {children : Forest}
    (hchildren : children.Tidy) : Tidy ⟨opened, .element name attributes children :: before, []⟩ := by
  refine ⟨hopened, hbefore.cons hchildren, ?_⟩
  intro t ht
  cases ht
  rfl

/-- A lexeme leaves all tidy, if white space is dropped. -/
theorem Tidy.advances {l : Grammar.Lexeme} (hadvances : n.Advances .trimmed l n') (h : n.Tidy) : n'.Tidy := by
  cases hadvances with
  | text => exact ⟨h.opened, h.siblings, h.head⟩
  | aside => exact h
  | empty => exact .of_element h.opened h.flush trivial
  | begin _ hbefore =>
    refine ⟨List.forall_mem_cons.mpr ⟨hbefore ▸ h.flush, h.opened⟩, ⟨List.forall_mem_nil _, List.IsChain.nil⟩, ?_⟩
    intro t ht
    cases ht
  | finish hopened =>
    obtain ⟨hbefore, houter⟩ := List.forall_mem_cons.mp (hopened ▸ h.opened)
    exact .of_element houter hbefore h.tree

end Nesting

/-- A forest that is read with white space dropped is canonical. -/
theorem Forest.canonical_parse {source : String} {f : Forest} (h : Forest.parse source .trimmed = .ok f) : f.Canonical := by
  refine ⟨legal_parse h, ?_⟩
  obtain ⟨n, hn, -, rfl⟩ := exists_of_parse (fun _ => Nesting.Tidy.advances) .start h
  exact hn.tree

/-! ## Reading canonical forests back -/

namespace Nesting

variable {filler : Char → Prop} {n n' : Nesting} {f : Forest}

/-- Filler that is heard after a text is left out. -/
theorem siblings_flush_heard_white {gap : List Char} (hgap : ∀ c ∈ gap, Text.isWhiteSpace c = true) :
    ((n.heard gap).flush .trimmed).siblings = (n.flush .trimmed).siblings := by
  rw [siblings_flush_trimmed, siblings_flush_trimmed, heard, Text.trim_append_white hgap]

/-- Where only white space has been heard, no text is put down. -/
theorem siblings_flush_of_white (h : ∀ c ∈ n.text, Text.isWhiteSpace c = true) :
    (n.flush .trimmed).siblings = n.siblings := by
  rw [siblings_flush_trimmed, Text.trim_of_white h]
  rfl

/-- A trimmed text that is heard after white space is put down. -/
theorem siblings_flush_heard {gap : List Char} {text : String} (h : ∀ c ∈ n.text, Text.isWhiteSpace c = true)
    (hgap : ∀ c ∈ gap, Text.isWhiteSpace c = true) (htext : Text.Trimmed text.toList) :
    ((n.heard (gap ++ text.toList)).flush .trimmed).siblings = .leaf text :: n.siblings := by
  have hwhite : ∀ c ∈ n.text ++ gap, Text.isWhiteSpace c = true := List.forall_mem_append.mpr ⟨h, hgap⟩
  have hempty : text.toList.isEmpty = false := List.isEmpty_eq_false_iff.mpr htext.ne_nil
  rw [siblings_flush_trimmed, heard, ← List.append_assoc, Text.trim_white_append hwhite htext, hempty,
    String.ofList_toList]
  rfl

/-- A tidy forest is put down as it is, once what is heard after it has been. A text needs white space before it. -/
theorem Takes.siblings_flush (h : Takes .trimmed filler n f n') (hfiller : ∀ c, filler c → Text.isWhiteSpace c = true)
    (hf : f.Tidy) (hn : (∃ t ∈ f.toList.head?, t.isLeaf = true) → ∀ c ∈ n.text, Text.isWhiteSpace c = true) :
    (n'.flush .trimmed).siblings = f.toList.reverse ++ (n.flush .trimmed).siblings := by
  have hwhite : ∀ {gap : List Char}, (∀ c ∈ gap, filler c) → ∀ c ∈ gap, Text.isWhiteSpace c = true :=
    fun hgap c hc => hfiller c (hgap c hc)
  induction h with
  | nil => rfl
  | @leaf n n' gap text next hgap hnext ih =>
    obtain ⟨htext, hapart, htidy⟩ := hf
    have hquiet := hn ⟨_, rfl, rfl⟩
    have hrest := ih htidy (by
      rintro ⟨t, ht, hleaf⟩
      rw [hapart t ht] at hleaf
      cases hleaf)
    rw [hrest, siblings_flush_heard hquiet (hwhite hgap) htext, siblings_flush_of_white hquiet, Forest.toList,
      List.reverse_cons, List.append_assoc]
    rfl
  | @element n inner n' gap gap' e name attributes children next hgap hchildren hgap' hnext ihc ihn =>
    obtain ⟨htidyChildren, htidyNext⟩ := hf
    have hinner := ihc htidyChildren (fun _ => List.forall_mem_nil _)
    have hrest := ihn htidyNext (fun _ => List.forall_mem_nil _)
    have hchildren' : .ofList ((inner.heard gap').flush .trimmed).siblings.reverse = children := by
      rw [siblings_flush_heard_white (hwhite hgap'), hinner, List.reverse_append, List.reverse_reverse]
      exact Forest.ofList_toList children
    rw [hrest, hchildren', siblings_flush_of_white (List.forall_mem_nil _), Forest.toList, List.reverse_cons,
      List.append_assoc, placed, siblings_flush_heard_white (hwhite hgap)]
    rfl

end Nesting

/-- A canonical forest is read back from its print. -/
theorem Forest.parse_print_of_canonical {f : Forest} (h : f.Canonical) (options : PrintOptions) :
    Forest.parse (f.print options) .trimmed = .ok f := by
  have hfiller : ∀ c, options.IsFiller c → Text.isWhiteSpace c = true := by
    rintro c ⟨_, rfl | rfl⟩ <;> decide
  obtain ⟨n, htakes, hparse⟩ := parse_print h.legal options .trimmed
  rw [hparse, htakes.siblings_flush hfiller h.tidy (fun _ => List.forall_mem_nil _), List.reverse_append,
    List.reverse_reverse]
  exact congrArg Except.ok (ofList_toList f)

/-! ## Documents -/

namespace Document

/-- What is below the root is canonical. -/
def Canonical (d : Document) : Prop :=
  d.forest.Canonical

/-- A document that is read with white space dropped is canonical, and a canonical document is read back from its print,
which then prints as before. -/
theorem canonical_round_trip :
    (∀ (id : DocumentId) (source : String) (d : Document), Document.parse id source .trimmed = .ok d → d.Canonical) ∧
      ∀ d : Document, d.Canonical → ∀ (id : DocumentId) (options : PrintOptions), ∃ d',
        Document.parse id (d.print options) .trimmed = .ok d' ∧ d'.forest = d.forest ∧
          d'.print options = d.print options := by
  constructor
  · intro id source d h
    obtain ⟨f, hf, rfl⟩ := parse_eq_ok h
    rw [Canonical, forest_ofForest]
    exact Forest.canonical_parse hf
  · intro d h id options
    have hread := Forest.parse_print_of_canonical h options
    have hforest := forest_ofForest id d.forest
    refine ⟨ofForest id d.forest, ?_, hforest, ?_⟩
    · rw [Document.parse, Document.print, hread]
    · rw [Document.print, hforest, Document.print]

/-- A list with an entry and a text behind it. -/
def listForest : Forest :=
  .element (.plain "ul") [⟨.plain "id", "x"⟩]
    (.element (.plain "li") [⟨.plain "class", "y"⟩] (.leaf "a" .nil) (.leaf "b" .nil)) .nil

/-- The list comes back from pretty print as it is. -/
theorem canonical_list : ∃ d,
    Document.parse ⟨1⟩ ((ofForest ⟨0⟩ listForest).print .pretty) .trimmed = .ok d ∧ d.forest = listForest ∧ d.Canonical := by
  have hforest := forest_ofForest ⟨0⟩ listForest
  have htrimmed : Text.Trimmed (Text.trim "a".toList) := Text.trimmed_trim (by decide)
  have htrimmed' : Text.Trimmed (Text.trim "b".toList) := Text.trimmed_trim (by decide)
  have hcanonical : (ofForest ⟨0⟩ listForest).Canonical := by
    rw [Canonical, hforest]
    exact ⟨by unfold Forest.Legal; decide, ⟨⟨Forest.tidy_leaf htrimmed, Forest.tidy_leaf htrimmed'⟩, trivial⟩⟩
  obtain ⟨d, hread, hsame, _⟩ := canonical_round_trip.2 _ hcanonical ⟨1⟩ .pretty
  exact ⟨d, hread, hsame.trans hforest, canonical_round_trip.1 _ _ _ hread⟩

end Document

end LiveMarkup
