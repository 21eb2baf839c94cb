import LiveMarkup.Proofs.Accepting

/-!
# Names that can be read back

The check of a name looks at its two parts, and the reader takes as many characters of a name as there are and splits them at
the colon. Both have the same names: a name is legal exactly if the shortest markup that holds it, as the name of an element or
of an attribute, is read back with this name in it (`QName.readBack_iff_isLegal`). So a list of edits is refused for its names
exactly if it would write one that cannot be read back (`Edit.names_exact`).
-/

namespace LiveMarkup

open Grammar

namespace QName

/-- The shortest markup that holds the name. -/
def sample (q : QName) : NameKind → String
  | .elementName => "<" ++ q.qualified ++ " />"
  | .attributeName => "<a " ++ q.qualified ++ "=\"\" />"

/-- What the shortest markup with the name should mean: one element, with the name as its own or as that of its only
attribute. -/
def sampled (q : QName) : NameKind → Forest
  | .elementName => .element q [] .nil .nil
  | .attributeName => .element (.plain "a") [⟨q, ""⟩] .nil .nil

/-- The shortest markup with the name is read, and means what it should. -/
def ReadBack (id : DocumentId) (spacing : Spacing) (kind : NameKind) (q : QName) : Prop :=
  ∃ d, Document.parse id (q.sample kind) spacing = .ok d ∧ d.forest = q.sampled kind

variable {q : QName}

/-- A sample is the printed tag of an element without children. -/
theorem sample_elementName : q.sample .elementName = Markup.emptyTag q [] := by
  rw [sample, Markup.emptyTag, Markup.tagHead, List.map_nil, String.join_nil, String.append_empty]

theorem sample_attributeName : q.sample .attributeName = Markup.emptyTag (.plain "a") [⟨q, ""⟩] := by
  have hvalue : Markup.escapeValue "" = "" := rfl
  have hname : (plain "a").qualified = "a" := rfl
  rw [sample, Markup.emptyTag, Markup.tagHead, List.map_singleton, String.join_cons, String.join_nil, String.append_empty,
    Attribute.written, hvalue, hname]
  simp only [← String.toList_inj, String.toList_append, List.append_assoc]
  rfl

/-- The sample of a legal name is content of the grammar. -/
theorem content_sample (kind : NameKind) (h : q.isLegal = true) : Content (q.sample kind).toList (q.sampled kind) [] := by
  cases kind with
  | elementName =>
    have hnone : Attribute.AllLegal [] := List.forall_mem_nil _
    have htag := Lexed.printed true [] h hnone
    rw [List.append_nil] at htag
    rw [sample_elementName]
    exact .empty htag .nil
  | attributeName =>
    have hname : (plain "a").isLegal = true := by decide
    have hone : Attribute.AllLegal [⟨q, ""⟩] := List.forall_mem_singleton.mpr h
    have htag := Lexed.printed true [] hname hone
    rw [List.append_nil] at htag
    rw [sample_attributeName]
    exact .empty htag .nil

/-- One element without texts is read as it is. -/
theorem read_sampled (kind : NameKind) (spacing : Spacing) : (q.sampled kind).read spacing = q.sampled kind := by
  cases kind <;> rfl

/-- The name is among those of its sample. -/
theorem mem_names_sampled (kind : NameKind) : (kind, q) ∈ (q.sampled kind).names := by
  cases kind with
  | elementName => exact List.mem_cons_self
  | attributeName => exact List.mem_cons_of_mem _ List.mem_cons_self

/-- A name is legal exactly if it can be read back. -/
theorem readBack_iff_isLegal (id : DocumentId) (spacing : Spacing) (kind : NameKind) :
    ReadBack id spacing kind q ↔ q.isLegal = true := by
  constructor
  · rintro ⟨d, hd, hforest⟩
    have hlegal := Document.legal_parse hd
    rw [hforest] at hlegal
    exact hlegal (kind, q) (mem_names_sampled kind)
  · intro h
    refine ⟨.ofForest id (q.sampled kind), ?_, Document.forest_ofForest id _⟩
    rw [Document.parse, Forest.parse_of_content spacing (content_sample kind h), read_sampled]

end QName

/-- A list of edits is refused for its names exactly if one of them is not legal. -/
theorem Edit.exists_checkNames_eq_error_iff {number : Nat} {edits : List Edit} :
    (∃ fault, checkNames number edits = .error fault) ↔ ∃ e ∈ edits, ∃ entry ∈ e.names, ¬entry.2.isLegal = true := by
  have hok : checkNames number edits = .ok () ↔ ∀ e ∈ edits, ∀ entry ∈ e.names, entry.2.isLegal = true :=
    checkNames_eq_ok_iff
  cases hcheck : checkNames number edits with
  | ok checked =>
    refine ⟨fun ⟨fault, hfault⟩ => (nomatch hfault), ?_⟩
    rintro ⟨e, he, entry, hentry, hillegal⟩
    exact absurd (hok.mp hcheck e he entry hentry) hillegal
  | error fault =>
    refine ⟨fun _ => ?_, fun _ => ⟨fault, rfl⟩⟩
    by_contra hnone
    refine absurd (hok.mpr ?_) (by rw [hcheck]; exact nofun)
    intro e he entry hentry
    by_contra hillegal
    exact hnone ⟨e, he, entry, hentry, hillegal⟩

/-- A name passes the check exactly if the shortest markup with an element of this name is read as this element and nothing
else, and exactly if the shortest markup with an attribute of this name is read as one element with this attribute alone. So a
list of edits is refused exactly if it would write the name of an element or an attribute that cannot be read back. -/
theorem Edit.names_exact (id : DocumentId) (spacing : Spacing) :
    (∀ space base : String,
      (QName.isLegal ⟨space, base⟩ = true ↔ QName.ReadBack id spacing .elementName ⟨space, base⟩) ∧
        (QName.isLegal ⟨space, base⟩ = true ↔ QName.ReadBack id spacing .attributeName ⟨space, base⟩)) ∧
      ∀ edits : List Edit, (∃ fault, checkNames 0 edits = .error fault) ↔
        ∃ e ∈ edits, ∃ entry ∈ e.names, ¬entry.2.ReadBack id spacing entry.1 := by
  have hread : ∀ kind q, q.isLegal = true ↔ QName.ReadBack id spacing kind q := fun kind q =>
    (QName.readBack_iff_isLegal id spacing kind).symm
  refine ⟨fun space base => ⟨hread _ _, hread _ _⟩, ?_⟩
  intro edits
  simp only [exists_checkNames_eq_error_iff, QName.readBack_iff_isLegal]

end LiveMarkup
