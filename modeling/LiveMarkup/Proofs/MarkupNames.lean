import Mathlib.Data.List.Basic
import LiveMarkup.Edit.Names
import LiveMarkup.Markup.Parser

/-!
# Legal names

A legal name is written with characters of a name only and is read as it was meant (`QName.qualified_of_isLegal`). In the
other direction a name that is spelled by characters of a name is legal (`QName.isLegal_of_ofWritten?`) and written with the
same characters (`QName.toList_qualified`). The names of a forest are legal if those in its trees are
(`Forest.legal_ofList`).
-/

namespace LiveMarkup

namespace QName

/-- What is split is split at the first colon. -/
theorem splitColon?_eq_some {s before after : List Char} (h : splitColon? s = some (before, after)) :
    s = before ++ ':' :: after ∧ ':' ∉ before := by
  induction s generalizing before after with
  | nil => cases h
  | cons c rest ih =>
    rw [splitColon?] at h
    by_cases hc : c = ':'
    · rw [if_pos hc] at h
      cases h
      exact ⟨by rw [hc, List.nil_append], List.not_mem_nil⟩
    · rw [if_neg hc] at h
      obtain ⟨⟨before', after'⟩, hrest, he⟩ := Option.map_eq_some_iff.mp h
      cases he
      obtain ⟨hsplit, hlacks⟩ := ih hrest
      refine ⟨by rw [hsplit, List.cons_append], ?_⟩
      rw [List.mem_cons]
      rintro (heq | hmem)
      · exact hc heq.symm
      · exact hlacks hmem

/-- A text that is not split has no colon. -/
theorem splitColon?_eq_none {s : List Char} (h : splitColon? s = none) : ':' ∉ s := by
  induction s with
  | nil => exact List.not_mem_nil
  | cons c rest ih =>
    rw [splitColon?] at h
    by_cases hc : c = ':'
    · rw [if_pos hc] at h
      cases h
    · rw [if_neg hc, Option.map_eq_none_iff] at h
      rw [List.mem_cons]
      rintro (heq | hmem)
      · exact hc heq.symm
      · exact ih h hmem

/-- Characters of a name without a colon are a part of a name. -/
theorem isPart_of_forall {s : List Char} (hne : s ≠ []) (hcolon : ':' ∉ s) (hchars : ∀ c ∈ s, isNameChar c = true) :
    isPart s = true := by
  have hall : s.all (fun c => c != ':' && isNameChar c) = true := by
    rw [List.all_eq_true]
    intro c hc
    have hne : c ≠ ':' := by
      rintro rfl
      exact hcolon hc
    rw [hchars c hc, Bool.and_true, bne_iff_ne]
    exact hne
  rw [isPart, hall, Bool.and_true, Bool.not_eq_true', List.isEmpty_eq_false_iff]
  exact hne

/-- A name is legal that is spelled by characters of a name. -/
theorem isLegal_of_ofWritten? {c : Char} {s : List Char} {q : QName} (hstart : isNameStart c = true)
    (hchars : ∀ d ∈ c :: s, isNameChar d = true) (h : ofWritten? (c :: s) = some q) : q.isLegal = true := by
  rw [ofWritten?] at h
  split at h
  · rename_i hnone
    cases h
    have hpart := isPart_of_forall (List.cons_ne_nil c s) (splitColon?_eq_none hnone) hchars
    simp [isLegal, String.toList_ofList, hstart, hpart]
  · rename_i space base hsplit
    split at h
    · cases h
    · rename_i hsides
      cases h
      obtain ⟨hwritten, hlacks⟩ := splitColon?_eq_some hsplit
      simp only [Bool.or_eq_true, List.isEmpty_iff, List.contains_iff_mem, not_or] at hsides
      obtain ⟨⟨hspace, hbase⟩, hcolon⟩ := hsides
      rw [hwritten] at hchars
      have hfirst : space.head? = some c := by
        obtain ⟨b, more, rfl⟩ := List.exists_cons_of_ne_nil hspace
        rw [(List.cons.inj hwritten).1]
        rfl
      have hspacePart := isPart_of_forall hspace hlacks fun d hd => hchars d (List.mem_append_left _ hd)
      have hbasePart := isPart_of_forall hbase hcolon fun d hd =>
        hchars d (List.mem_append_right _ (List.mem_cons_of_mem _ hd))
      have hnonempty : (String.ofList space).isEmpty = false := by
        rw [← Bool.not_eq_true, String.isEmpty_iff]
        intro hempty
        exact hspace (by rw [← String.toList_ofList (l := space), hempty]; rfl)
      simp [isLegal, String.toList_ofList, hnonempty, hfirst, hstart, hspacePart, hbasePart]

/-- A text without a colon is not split. -/
theorem splitColon?_of_notMem {s : List Char} (h : ':' ∉ s) : splitColon? s = none := by
  induction s with
  | nil => rfl
  | cons c s ih =>
    obtain ⟨hc, hs⟩ := not_or.mp (mt List.mem_cons.mpr h)
    rw [splitColon?, if_neg (Ne.symm hc), ih hs]
    rfl

/-- A text is split at its first colon. -/
theorem splitColon?_append {s : List Char} (h : ':' ∉ s) (t : List Char) :
    splitColon? (s ++ ':' :: t) = some (s, t) := by
  induction s with
  | nil => rw [List.nil_append, splitColon?, if_pos rfl]
  | cons c s ih =>
    obtain ⟨hc, hs⟩ := not_or.mp (mt List.mem_cons.mpr h)
    rw [List.cons_append, splitColon?, if_neg (Ne.symm hc), ih hs]
    rfl

/-- A part of a name is not empty, has no colon, and is made of characters of a name. -/
theorem isPart_iff {s : List Char} : isPart s = true ↔ s ≠ [] ∧ ':' ∉ s ∧ ∀ c ∈ s, isNameChar c = true := by
  constructor
  · intro h
    rw [isPart, Bool.and_eq_true, Bool.not_eq_true', List.isEmpty_eq_false_iff, List.all_eq_true] at h
    refine ⟨h.1, ?_, ?_⟩
    · intro hcolon
      have hall := h.2 _ hcolon
      simp at hall
    · intro c hc
      have hall := h.2 c hc
      rw [Bool.and_eq_true] at hall
      exact hall.2
  · rintro ⟨hne, hcolon, hchars⟩
    exact isPart_of_forall hne hcolon hchars

/-- A legal name is written with characters of a name only, begins like one, and is read as it was meant. -/
theorem qualified_of_isLegal {q : QName} (h : q.isLegal = true) :
    ∃ first rest, q.qualified.toList = first :: rest ∧ isNameStart first = true ∧
      (∀ c ∈ first :: rest, isNameChar c = true) ∧ ofWritten? (first :: rest) = some q := by
  obtain ⟨space, base⟩ := q
  simp only [isLegal, Bool.and_eq_true, Bool.or_eq_true] at h
  obtain ⟨⟨hstart, hbase⟩, hspace⟩ := h
  obtain ⟨hbaseNe, hbaseColon, hbaseChars⟩ := isPart_iff.mp hbase
  by_cases hempty : space.isEmpty = true
  · rw [if_pos hempty] at hstart
    obtain ⟨first, rest, hwritten⟩ := List.exists_cons_of_ne_nil hbaseNe
    rw [hwritten] at hstart hbaseColon hbaseChars
    refine ⟨first, rest, ?_, by simpa using hstart, hbaseChars, ?_⟩
    · rw [qualified, if_pos hempty, hwritten]
    · rw [ofWritten?, splitColon?_of_notMem hbaseColon, ← hwritten, String.ofList_toList]
      rw [String.isEmpty_iff.mp hempty]
  · rw [if_neg hempty] at hstart
    obtain ⟨hspaceNe, hspaceColon, hspaceChars⟩ := isPart_iff.mp (hspace.resolve_left hempty)
    obtain ⟨first, rest, hwritten⟩ := List.exists_cons_of_ne_nil hspaceNe
    rw [hwritten] at hstart
    have hqualified : (qualified ⟨space, base⟩).toList = space.toList ++ ':' :: base.toList := by
      rw [qualified, if_neg hempty, String.toList_append, String.toList_append]
      simp
    have hfirst : (qualified ⟨space, base⟩).toList = first :: (rest ++ ':' :: base.toList) := by
      rw [hqualified, hwritten, List.cons_append]
    refine ⟨first, rest ++ ':' :: base.toList, hfirst, by simpa using hstart, ?_, ?_⟩
    · rw [← hfirst, hqualified, List.forall_mem_append, List.forall_mem_cons]
      exact ⟨hspaceChars, by decide, hbaseChars⟩
    · rw [← hfirst, hqualified, ofWritten?, splitColon?_append hspaceColon]
      have hsides : (space.toList.isEmpty || base.toList.isEmpty || base.toList.contains ':') = false := by
        simp [hspaceNe, hbaseNe, hbaseColon]
      simp only [hsides, Bool.false_eq_true, if_false, String.ofList_toList]

/-- No blank begins a name. -/
theorem isBlank_of_isNameStart {x : Char} (h : isNameStart x = true) : Cursor.isBlank x = false := by
  rw [← Bool.not_eq_true]
  intro hblank
  simp only [Cursor.isBlank, Bool.or_eq_true, beq_iff_eq] at hblank
  rcases hblank with (((rfl | rfl) | rfl) | rfl) | rfl <;> exact absurd h (by decide)

/-- A character that begins a name is none that does not. -/
theorem ne_of_isNameStart {x y : Char} (hx : isNameStart x = true) (hy : isNameStart y = false) : x ≠ y := by
  rintro rfl
  rw [hx] at hy
  cases hy

/-- A name that is spelled by characters is written with them. -/
theorem toList_qualified {s : List Char} {q : QName} (h : ofWritten? s = some q) : q.qualified.toList = s := by
  rw [ofWritten?] at h
  split at h
  · cases h
    exact String.toList_ofList
  · rename_i space base hsplit
    split at h
    · cases h
    · rename_i hsides
      cases h
      simp only [Bool.or_eq_true, not_or, List.isEmpty_iff] at hsides
      have hspace : (String.ofList space).isEmpty = false := by
        rw [← Bool.not_eq_true, String.isEmpty_iff]
        intro hempty
        exact hsides.1.1 (by rw [← String.toList_ofList (l := space), hempty]; rfl)
      rw [qualified, if_neg (by rw [hspace]; exact Bool.false_ne_true), String.toList_append, String.toList_append,
        String.toList_ofList, String.toList_ofList, (splitColon?_eq_some hsplit).1]
      simp

end QName

/-- The names of all attributes are legal. -/
def Attribute.AllLegal (attributes : List Attribute) : Prop :=
  ∀ a ∈ attributes, a.name.isLegal = true

/-! ## Forests -/

/-- All names in the forest are legal. -/
def Forest.Legal (f : Forest) : Prop :=
  ∀ entry ∈ f.names, entry.2.isLegal = true

namespace Forest

theorem legal_nil : nil.Legal := fun _ h => by cases h

/-- A text makes no difference to whether names are legal. -/
theorem legal_leaf {text : String} {next : Forest} : (leaf text next).Legal ↔ next.Legal := Iff.rfl

/-- An element is legal with its name, its attributes and all that is below it. -/
theorem legal_element {name : QName} {attributes : List Attribute} {children next : Forest} :
    (element name attributes children next).Legal ↔
      name.isLegal = true ∧ Attribute.AllLegal attributes ∧ children.Legal ∧ next.Legal := by
  simp only [Legal, names, List.forall_mem_cons, List.forall_mem_append, Attribute.names, List.forall_mem_map,
    Attribute.AllLegal]

/-- An element on its own is legal with its name, its attributes and all that is below it. -/
theorem legal_forest_element {name : QName} {attributes : List Attribute} {children : Forest} (hname : name.isLegal = true)
    (hattributes : Attribute.AllLegal attributes) (hchildren : children.Legal) :
    (Tree.element name attributes children).forest.Legal :=
  legal_element.mpr ⟨hname, hattributes, hchildren, legal_nil⟩

/-- A forest is legal if its first tree and the others are. -/
theorem legal_cons {t : Tree} {f : Forest} : (cons t f).Legal ↔ t.forest.Legal ∧ f.Legal := by
  cases t with
  | leaf text => simp only [Tree.forest, cons, legal_leaf, legal_nil, true_and]
  | element name attributes children =>
    simp only [Tree.forest, cons, legal_element, legal_nil, and_true, and_assoc]

/-- The names in a forest are those in its trees. -/
theorem legal_ofList {trees : List Tree} : (ofList trees).Legal ↔ ∀ t ∈ trees, t.forest.Legal := by
  induction trees with
  | nil => simp [ofList, legal_nil]
  | cons t trees ih =>
    rw [List.forall_mem_cons, ← ih]
    exact legal_cons

end Forest

end LiveMarkup
