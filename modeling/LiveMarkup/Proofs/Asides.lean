import Mathlib.Data.List.Infix
import LiveMarkup.Proofs.Accepting

/-!
# Comments and instructions

A source that begins with an aside is read as what follows the aside (`Document.readAlike_of_aside`). How far an aside goes is
another matter: its end is looked for from its first character on, so the dashes that begin a comment may end it, and so may the
question mark that begins an instruction. `Document.asides_say_nothing` has both: where the body cannot be cut short in this way
it contributes nothing, and where it can, the rest of it is read as markup, with the end that was meant for it as text.
-/

namespace LiveMarkup

open Grammar

/-! ## Where an aside ends -/

namespace Text

variable {finish body : List Char} {x : Char}

/-- A text that ends with a character which stands nowhere else in it does not overlap itself. So it ends another text for the
first time where it stands nowhere before. -/
theorem upToFirst_of_not_infix (init : List Char) (hx : x ∉ init) (h : ¬init ++ [x] <:+: body) :
    UpToFirst (init ++ [x]) (body ++ (init ++ [x])) := by
  refine ⟨List.suffix_append _ _, ?_⟩
  intro before after heq
  rcases List.eq_nil_or_concat after with rfl | ⟨more, y, rfl⟩
  · rfl
  · exfalso
    rw [List.concat_eq_append, ← List.append_assoc body, ← List.append_assoc] at heq
    obtain ⟨hfront, -⟩ := List.append_inj' heq rfl
    rcases List.append_eq_append_iff.mp hfront with ⟨between, hbetween, hinit⟩ | ⟨between, hbody, -⟩
    · rcases List.eq_nil_or_concat between with rfl | ⟨front, z, rfl⟩
      · rw [List.append_nil] at hbetween
        exact h ⟨before, [], by rw [List.append_nil, hbetween]⟩
      · rw [List.concat_eq_append, ← List.append_assoc, ← List.append_assoc body] at hbetween
        obtain ⟨-, hlast⟩ := List.append_inj' hbetween rfl
        cases hlast
        exact hx (by simp [hinit])
    · exact h ⟨before, between, hbody.symm⟩

/-- One character more before what ends for the first time. -/
theorem UpToFirst.cons {c : Char} (before : List Char) (hhere : ¬finish <+: c :: (before ++ finish))
    (h : UpToFirst finish (before ++ finish)) : UpToFirst finish (c :: (before ++ finish)) :=
  (upToFirst_cons_iff hhere).mpr h

end Text

namespace Grammar

open Text (UpToFirst upToFirst_of_not_infix)

variable {body rest : List Char}

/-- A comment goes on to its end, provided that its dashes do not end it before. -/
theorem lexed_comment (rest : List Char) (h : ¬['-', '-', '>'] <:+: body) (hone : ¬['>'] <+: body)
    (htwo : ¬['-', '>'] <+: body) :
    Lexed ('<' :: '!' :: '-' :: '-' :: (body ++ ['-', '-', '>']) ++ rest) .aside rest := by
  have hbody : UpToFirst ['-', '-', '>'] (body ++ ['-', '-', '>']) :=
    upToFirst_of_not_infix ['-', '-'] (by decide) h
  have hdash : ¬['-', '-', '>'] <+: '-' :: (body ++ ['-', '-', '>']) := by
    rcases body with _ | ⟨x, _ | ⟨y, body⟩⟩
    · decide
    · simp
    · simpa using htwo
  have hdashes : ¬['-', '-', '>'] <+: '-' :: '-' :: (body ++ ['-', '-', '>']) := by
    rcases body with _ | ⟨x, body⟩
    · decide
    · simpa using hone
  refine .comment ⟨body ++ ['-', '-', '>'], rfl⟩ ?_
  refine UpToFirst.cons ('!' :: '-' :: '-' :: body) (by simp) ?_
  refine UpToFirst.cons ('-' :: '-' :: body) (by simp) ?_
  exact UpToFirst.cons ('-' :: body) hdashes (UpToFirst.cons body hdash hbody)

/-- The two dashes that begin a comment may be the dashes of its end. -/
theorem lexed_shortComment : Lexed ('<' :: '!' :: ['-', '-', '>'] ++ rest) .aside rest := by
  refine .comment ⟨['>'], rfl⟩ ?_
  refine UpToFirst.cons ['!'] (by simp) ?_
  exact UpToFirst.cons [] (by simp) (.self _)

/-- And so may the second of them, with one that follows it. -/
theorem lexed_shortComment' : Lexed ('<' :: '!' :: '-' :: ['-', '-', '>'] ++ rest) .aside rest := by
  refine .comment ⟨['-', '>'], rfl⟩ ?_
  refine UpToFirst.cons ['!', '-'] (by simp) ?_
  refine UpToFirst.cons ['-'] (by simp) ?_
  exact UpToFirst.cons [] (by simp) (.self _)

/-- An instruction goes on to its end, provided that its question mark does not end it before. -/
theorem lexed_instruction (rest : List Char) (h : ¬['?', '>'] <:+: body) (hone : ¬['>'] <+: body) :
    Lexed ('<' :: '?' :: (body ++ ['?', '>']) ++ rest) .aside rest := by
  have hbody : UpToFirst ['?', '>'] (body ++ ['?', '>']) := upToFirst_of_not_infix ['?'] (by decide) h
  have hmark : ¬['?', '>'] <+: '?' :: (body ++ ['?', '>']) := by
    rcases body with _ | ⟨x, body⟩
    · decide
    · simpa using hone
  refine .instruction ⟨body ++ ['?', '>'], rfl⟩ ?_
  exact UpToFirst.cons ('?' :: body) (by simp) (UpToFirst.cons body hmark hbody)

/-- The question mark that begins an instruction may be that of its end. -/
theorem lexed_shortInstruction : Lexed ('<' :: ['?', '>'] ++ rest) .aside rest := by
  refine .instruction ⟨['>'], rfl⟩ ?_
  exact UpToFirst.cons [] (by simp) (.self _)

end Grammar

/-! ## What follows an aside -/

/-- Content that follows an aside which begins a source is what the whole source is made of. -/
theorem Grammar.Content.after_aside {source rest : List Char} {f : Forest} (haside : Lexed source .aside rest)
    (h : Content source f []) : ∃ g, Content rest g [] := by
  obtain ⟨last, n, hlast, htakes, hread⟩ := Cursor.readOn_content (c := ⟨0, source⟩) .kept .start h rfl
  obtain ⟨after, n', hafter, hadvances, hread'⟩ := Cursor.readOn_lexed .kept .start (c := ⟨0, source⟩) haside (by rintro _ ⟨⟩)
  cases hadvances
  have hopened : n.opened = [] := htakes.opened
  have hforest : after.readOn .kept .start = .ok (.ofList (n.flush .kept).siblings.reverse) := by
    rw [← hread', hread, Cursor.readOn_end hlast, Nesting.forest, hopened]
  cases Cursor.closes_of_readOn hforest with
  | done hcontent => exact ⟨_, hafter ▸ hcontent⟩

/-- A source that begins with an aside is read as what follows the aside. -/
theorem Forest.parse_of_aside {source rest : String} {f : Forest} (spacing : Spacing)
    (haside : Lexed source.toList .aside rest.toList) :
    Forest.parse source spacing = .ok f ↔ Forest.parse rest spacing = .ok f := by
  rw [parse_eq_ok_iff, parse_eq_ok_iff]
  constructor
  · rintro ⟨g, hg, rfl⟩
    obtain ⟨g', hg'⟩ := hg.after_aside haside
    exact ⟨g', hg', hg.read_unique spacing (.aside haside hg')⟩
  · rintro ⟨g, hg, rfl⟩
    exact ⟨g, .aside haside hg, rfl⟩

namespace Document

/-- Two sources are read alike: where one of them can be read so can the other, and both come to the same document, however
white space is treated. -/
def ReadAlike (source source' : String) : Prop :=
  ∀ id spacing d, Document.parse id source spacing = .ok d ↔ Document.parse id source' spacing = .ok d

theorem readAlike_of_aside {source rest : String} (haside : Lexed source.toList .aside rest.toList) :
    ReadAlike source rest := by
  intro id spacing d
  constructor
  · intro h
    obtain ⟨f, hf, rfl⟩ := parse_eq_ok h
    rw [parse, (Forest.parse_of_aside spacing haside).mp hf]
  · intro h
    obtain ⟨f, hf, rfl⟩ := parse_eq_ok h
    rw [parse, (Forest.parse_of_aside spacing haside).mpr hf]

/-- Comments and instructions before a source contribute nothing to it, except those whose beginning is taken for their end. Of
these the rest of the body is read, and the end that was meant for them. -/
theorem asides_say_nothing (body rest : String) :
    (¬"-->".toList <:+: body.toList → ¬">".toList <+: body.toList → ¬"->".toList <+: body.toList →
      ReadAlike ("<!--" ++ body ++ "-->" ++ rest) rest) ∧
    ReadAlike ("<!--" ++ (">" ++ body) ++ "-->" ++ rest) (body ++ "-->" ++ rest) ∧
    ReadAlike ("<!--" ++ ("->" ++ body) ++ "-->" ++ rest) (body ++ "-->" ++ rest) ∧
    (¬"?>".toList <:+: body.toList → ¬">".toList <+: body.toList → ReadAlike ("<?" ++ body ++ "?>" ++ rest) rest) ∧
    ReadAlike ("<?" ++ (">" ++ body) ++ "?>" ++ rest) (body ++ "?>" ++ rest) := by
  refine ⟨fun h hone htwo => ?_, ?_, ?_, fun h hone => ?_, ?_⟩ <;> refine readAlike_of_aside ?_ <;>
    simp only [String.toList_append, List.append_assoc]
  · have haside := lexed_comment rest.toList h hone htwo
    rwa [List.cons_append, List.cons_append, List.cons_append, List.cons_append, List.append_assoc] at haside
  · exact lexed_shortComment
  · exact lexed_shortComment'
  · have haside := lexed_instruction rest.toList h hone
    rwa [List.cons_append, List.cons_append, List.append_assoc] at haside
  · exact lexed_shortInstruction

/-- The tag in a comment and the one in an instruction stay hidden. -/
theorem tags_stay_hidden :
    ReadAlike ("<!--" ++ " <b> " ++ "-->" ++ "x") "x" ∧ ReadAlike ("<?" ++ "<b>" ++ "?>" ++ "x") "x" := by
  obtain ⟨hcomment, -⟩ := asides_say_nothing " <b> " "x"
  obtain ⟨-, -, -, hinstruction, -⟩ := asides_say_nothing "<b>" "x"
  exact ⟨hcomment (by decide) (by decide) (by decide), hinstruction (by decide) (by decide)⟩

theorem parse_emptyTag_end (id : DocumentId) (spacing : Spacing) :
    Document.parse id "<b/>-->" spacing = .ok (ofForest id (.element ⟨"", "b"⟩ [] .nil (.leaf "-->" .nil))) := by
  have hlegal : QName.isLegal ⟨"", "b"⟩ = true := by decide
  have hname : Named ['b', '/', '>', '-', '-', '>'] ⟨"", "b"⟩ ['/', '>', '-', '-', '>'] :=
    Named.of_isLegal hlegal (stops_cons.mpr (by decide))
  have hrun : ['-', '-', '>'] ≠ [] := by decide
  have htext : Lexed ['-', '-', '>'] (.text ['-', '-', '>']) [] :=
    .text hrun (by decide) (fun _ h => nomatch h) (.plain (by decide) (.plain (by decide) (.plain (by decide) .nil)))
  have hcontent : Content "<b/>-->".toList (.element ⟨"", "b"⟩ [] .nil (.leaf "-->" .nil)) [] :=
    .empty (.startTag hname (.closed (.refl _))) (.text htext .nil)
  rw [parse, Forest.parse_of_content spacing hcontent]
  cases spacing <;> rfl

/-- The tag in a comment that begins with `>` does not stay hidden: nothing follows this comment, and still there is an element
where the empty source has none. -/
theorem tag_comes_out_of_comment : ¬"-->".toList <:+: "><b/>".toList ∧
    (∀ spacing, Document.parse ⟨1⟩ ("<!--" ++ "><b/>" ++ "-->" ++ "") spacing =
      .ok (ofForest ⟨1⟩ (.element ⟨"", "b"⟩ [] .nil (.leaf "-->" .nil)))) ∧
    ∀ spacing, Document.parse ⟨1⟩ "" spacing = .ok (ofForest ⟨1⟩ .nil) := by
  refine ⟨by decide, ?_, ?_⟩
  · intro spacing
    have hlexed : Lexed ("<!--" ++ "><b/>" ++ "-->" ++ "").toList .aside "<b/>-->".toList := lexed_shortComment
    exact (readAlike_of_aside hlexed ⟨1⟩ spacing _).mpr (parse_emptyTag_end ⟨1⟩ spacing)
  · intro spacing
    rw [parse, Forest.parse_of_content spacing .nil]
    rfl

end Document

end LiveMarkup
