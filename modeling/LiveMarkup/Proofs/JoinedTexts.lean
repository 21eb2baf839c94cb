import LiveMarkup.Proofs.Canonical
import LiveMarkup.Proofs.LegalNames

/-!
# Neighbouring texts and minified print

What is read of a forest has its neighbouring texts joined, white space treated in each of them, and the empty ones left out
(`Forest.read`, `Nesting.Takes.siblings_flush_read`).

Nothing separates neighbouring texts in minified print, so they are read back as one, and empty texts are not read back at
all. That is all that is lost when white space is kept: a forest with legal names comes back with its neighbouring texts
joined and its empty texts left out (`Forest.parse_minified`), and so does every document that calls lead to
(`Document.Reachable.minified_round_trip`).
-/

namespace LiveMarkup

namespace Forest

/-- Every run of neighbouring texts made one. -/
def joined : Forest → Forest
  | nil => nil
  | leaf text next =>
    match next.joined with
    | leaf more rest => leaf (text ++ more) rest
    | other => leaf text other
  | element name attributes children next => element name attributes children.joined next.joined

/-- Empty texts left out. -/
def withoutEmpty : Forest → Forest
  | nil => nil
  | leaf text next => if text = "" then next.withoutEmpty else leaf text next.withoutEmpty
  | element name attributes children next => element name attributes children.withoutEmpty next.withoutEmpty

/-- White space treated in every text. -/
def spaced (spacing : Spacing) : Forest → Forest
  | nil => nil
  | leaf text next => leaf (String.ofList (spacing.apply text.toList)) (next.spaced spacing)
  | element name attributes children next => element name attributes (children.spaced spacing) (next.spaced spacing)

/-- What is read of a forest whose texts were written down one after the other. -/
def read (spacing : Spacing) (f : Forest) : Forest :=
  (f.joined.spaced spacing).withoutEmpty

@[simp] theorem spaced_kept (f : Forest) : f.spaced .kept = f := by
  induction f with
  | nil => rfl
  | leaf text next ih => rw [spaced, ih, Spacing.apply, String.ofList_toList]
  | element name attributes children next ihc ihn => rw [spaced, ihc, ihn]

theorem read_kept (f : Forest) : f.read .kept = f.joined.withoutEmpty := by
  rw [read, spaced_kept]

theorem joined_leaf_element (text : String) (name : QName) (attributes : List Attribute) (children next : Forest) :
    (leaf text (element name attributes children next)).joined =
      leaf text (element name attributes children.joined next.joined) := rfl

/-- Two neighbouring texts are joined as one text is that holds both. -/
theorem joined_leaf_leaf (s t : String) (next : Forest) : (leaf s (leaf t next)).joined = (leaf (s ++ t) next).joined := by
  cases h : next.joined with
  | nil => simp only [joined, h]
  | leaf more rest => simp only [joined, h, String.append_assoc]
  | element name attributes children rest => simp only [joined, h]

/-- An empty text in front changes nothing. -/
theorem read_leaf_empty (spacing : Spacing) (f : Forest) : (leaf "" f).read spacing = f.read spacing := by
  have hempty : String.ofList (spacing.apply []) = "" := by
    cases spacing <;> rfl
  cases h : f.joined with
  | nil => simp only [read, joined, h, spaced, String.toList_empty, hempty, withoutEmpty, if_true]
  | leaf more rest => simp only [read, joined, h, String.empty_append]
  | element name attributes children rest =>
    simp only [read, joined, h, spaced, String.toList_empty, hempty, withoutEmpty, if_true]

/-- An empty text is left out whatever follows it. -/
theorem toList_withoutEmpty_leaf (text : String) (next : Forest) :
    (leaf text next).withoutEmpty.toList = (leaf text nil).withoutEmpty.toList ++ next.withoutEmpty.toList := by
  rw [withoutEmpty, withoutEmpty]
  split
  · rfl
  · rfl

/-- Two neighbouring texts are read as one text is that holds both. -/
theorem read_leaf_leaf (spacing : Spacing) (s t : String) (next : Forest) :
    (leaf s (leaf t next)).read spacing = (leaf (s ++ t) next).read spacing := by
  rw [read, joined_leaf_leaf, read]

/-- A text before an element is read by itself. -/
theorem toList_read_leaf_element (spacing : Spacing) (text : String) (name : QName) (attributes : List Attribute)
    (children next : Forest) : ((leaf text (element name attributes children next)).read spacing).toList =
      ((leaf text nil).read spacing).toList ++
        .element name attributes (children.read spacing) :: (next.read spacing).toList := by
  rw [read, joined_leaf_element, spaced, spaced, toList_withoutEmpty_leaf]
  rfl

/-- A run of texts that no text follows becomes one text that holds all of them. -/
theorem joined_run (text : String) (texts : List String) {next : Forest} (h : ∀ t ∈ next.toList.head?, t.isLeaf = false) :
    (leaf text (texts.foldr leaf next)).joined = leaf (String.join (text :: texts)) next.joined := by
  induction texts generalizing text with
  | nil =>
    have hjoin : String.join [text] = text := by
      rw [String.join_cons, String.join_nil, String.append_empty]
    rw [hjoin]
    cases next with
    | nil => rfl
    | leaf more rest => cases h _ rfl
    | element name attributes children rest => rfl
  | cons more texts ih =>
    rw [List.foldr_cons, joined_leaf_leaf, ih]
    simp only [String.join_cons, String.append_assoc]

end Forest

namespace Nesting

variable {n n' : Nesting} {f : Forest} {spacing : Spacing}

/-- The text that has been heard is put down, unless nothing is left of it. -/
theorem siblings_flush_read (n : Nesting) : (n.flush spacing).siblings.reverse =
    n.siblings.reverse ++ ((Forest.leaf (String.ofList n.text) .nil).read spacing).toList := by
  have hflush : (n.flush spacing).siblings = if (spacing.apply n.text).isEmpty then n.siblings
      else .leaf (String.ofList (spacing.apply n.text)) :: n.siblings := rfl
  have hread : (Forest.leaf (String.ofList n.text) .nil).read spacing =
      (Forest.leaf (String.ofList (spacing.apply n.text)) .nil).withoutEmpty := by
    simp only [Forest.read, Forest.joined, Forest.spaced, String.toList_ofList]
  rw [hflush, hread, Forest.withoutEmpty]
  cases spacing.apply n.text with
  | nil => simp [Forest.withoutEmpty, Forest.toList]
  | cons c text =>
    have hne : String.ofList (c :: text) ≠ "" := by
      intro hempty
      have hlist := congrArg String.toList hempty
      rw [String.toList_ofList] at hlist
      cases hlist
    rw [if_neg hne]
    simp [Forest.withoutEmpty, Forest.toList]

/-- What is taken in with nothing between pieces is put down as it is read, the text heard before together with it. -/
theorem Takes.siblings_flush_read {filler : Char → Prop} (h : Takes spacing filler n f n') (hfiller : ∀ c, ¬filler c) :
    (n'.flush spacing).siblings.reverse =
      n.siblings.reverse ++ ((Forest.leaf (String.ofList n.text) f).read spacing).toList := by
  have hnothing : ∀ {gap : List Char}, (∀ c ∈ gap, filler c) → gap = [] := fun hgap =>
    List.eq_nil_iff_forall_not_mem.mpr fun c hc => hfiller c (hgap c hc)
  induction h with
  | @nil n => exact n.siblings_flush_read
  | @leaf n n' gap text next hgap hnext ih =>
    rw [ih, hnothing hgap, heard, List.nil_append, String.ofList_append, String.ofList_toList, Forest.read_leaf_leaf]
  | @element n inner n' gap gap' e name attributes children next hgap hchildren hgap' hnext ihc ihn =>
    rw [hnothing hgap', heard_nil, hnothing hgap, heard_nil] at ihn
    have hinside : Forest.ofList (inner.flush spacing).siblings.reverse = children.read spacing := by
      rw [ihc]
      exact (Forest.ofList_toList _).trans (Forest.read_leaf_empty spacing children)
    have hnext : (Forest.leaf (String.ofList []) next).read spacing = next.read spacing :=
      Forest.read_leaf_empty spacing next
    calc
      _ = (n.flush spacing).siblings.reverse ++
          .element name attributes (children.read spacing) :: (next.read spacing).toList := by
        rw [ihn, placed, List.reverse_cons, List.append_assoc, hinside, ← hnext]
        rfl
      _ = _ := by rw [n.siblings_flush_read, Forest.toList_read_leaf_element, List.append_assoc]

end Nesting

/-- A forest with legal names comes back from minified print with its neighbouring texts joined and its empty texts left
out, when white space is kept. -/
theorem Forest.parse_minified {f : Forest} (h : f.Legal) (indent : Nat) :
    Forest.parse (f.print ⟨true, indent⟩) .kept = .ok f.joined.withoutEmpty := by
  have hfiller : ∀ c, ¬PrintOptions.IsFiller ⟨true, indent⟩ c := by
    rintro c ⟨hminify, _⟩
    cases hminify
  obtain ⟨n, htakes, hparse⟩ := parse_print h ⟨true, indent⟩ .kept
  rw [hparse, htakes.siblings_flush_read hfiller, ← read_kept]
  exact congrArg Except.ok ((ofList_toList _).trans (read_leaf_empty .kept f))

namespace Document

/-- A document that calls lead to has legal names only, and comes back from minified print with its neighbouring texts joined
and its empty texts left out, when white space is kept. -/
theorem Reachable.minified_round_trip {d : Document} (h : d.Reachable) :
    d.forest.Legal ∧ ∀ (id : DocumentId) (indent : Nat), ∃ d',
      Document.parse id (d.print ⟨true, indent⟩) .kept = .ok d' ∧ d'.forest = d.forest.joined.withoutEmpty := by
  refine ⟨h.legal, ?_⟩
  intro id indent
  refine ⟨ofForest id d.forest.joined.withoutEmpty, ?_, forest_ofForest id _⟩
  rw [Document.parse, Document.print, Forest.parse_minified h.legal]

/-- A list with three texts side by side, one of which is empty, behind an entry in the slots of another one. -/
def withTextsBehind : Document :=
  (withOtherEntry ⟨1⟩).after (.applyEdits [.append [0] (.leaf "d "), .append [0] (.leaf ""), .append [0] (.leaf "e")])

/-- The texts behind the entry come back as one text, without the empty one. -/
theorem minified_texts_behind_entry : ∃ d', Document.parse ⟨2⟩ (withTextsBehind.print .minified) .kept = .ok d' ∧
    d'.forest = .element ⟨"", "ul"⟩ [⟨⟨"", "id"⟩, "x"⟩]
      (.leaf "b" (.element ⟨"", "li"⟩ [⟨⟨"", "class"⟩, "z"⟩] (.leaf "c" .nil) (.leaf "d e" .nil))) .nil := by
  have hreachable : withTextsBehind.Reachable := .applyEdits (reachable_withOtherEntry ⟨1⟩) _
  have hforest : withTextsBehind.forest = .element ⟨"", "ul"⟩ [⟨⟨"", "id"⟩, "x"⟩]
      (.leaf "b" (.element ⟨"", "li"⟩ [⟨⟨"", "class"⟩, "z"⟩] (.leaf "c" .nil)
        (.leaf "d " (.leaf "" (.leaf "e" .nil))))) .nil := by
    cbv
  obtain ⟨_, hprint⟩ := hreachable.minified_round_trip
  obtain ⟨d', hread, hd'⟩ := hprint ⟨2⟩ 0
  refine ⟨d', hread, ?_⟩
  rw [hd', hforest]
  decide

end Document

end LiveMarkup
