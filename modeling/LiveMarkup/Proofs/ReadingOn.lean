import LiveMarkup.Proofs.Scanning

/-!
# Reading on from a place

What a source comes to does not depend on how it got to a place, only on what has been put together before it and on what
is still to be read (`Cursor.readOn`). What one lexeme does to what has been put together is `Nesting.Advances`. Where a
source can be read on, a lexeme of the grammar stands there and what follows it can be read on (`Cursor.advances_of_readOn`);
and where a lexeme stands it is read past, provided that it ends the element that is open (`Cursor.readOn_lexed`).

So an invariant of the lexemes holds of all that is put together when a source is read (`Forest.exists_of_parse`). That the
names are legal is such an invariant (`Forest.legal_parse`).
-/

namespace LiveMarkup

open Grammar

namespace Nesting

/-- More text has been read. -/
def heard (n : Nesting) (text : List Char) : Nesting :=
  { n with text := n.text ++ text }

@[simp] theorem heard_nil (n : Nesting) : n.heard [] = n := by
  rw [heard, List.append_nil]

/-- A node has been put down after the others. -/
def placed (n : Nesting) (t : Tree) : Nesting :=
  { n with siblings := t :: n.siblings }

/-- What has been put together when one more lexeme is taken in. -/
inductive Advances (spacing : Spacing) (n : Nesting) : Lexeme → Nesting → Prop
  | text {meant : List Char} : Advances spacing n (.text meant) (n.heard meant)
  | aside : Advances spacing n .aside n
  | empty {q : QName} {attributes : List Attribute} :
      Advances spacing n (.startTag q attributes true) ((n.flush spacing).placed (.element q attributes .nil))
  | begin {e : OpenElement} (hwritten : e.written.chars = e.name.qualified.toList)
      (hbefore : e.before = (n.flush spacing).siblings) :
      Advances spacing n (.startTag e.name e.attributes false) ⟨e :: n.opened, [], []⟩
  | finish {e : OpenElement} {outer : List OpenElement} {written : List Char} (hopened : n.opened = e :: outer)
      (hwritten : e.written.chars = written) :
      Advances spacing n (.endTag written)
        ⟨outer, .element e.name e.attributes (.ofList (n.flush spacing).siblings.reverse) :: e.before, []⟩

variable {spacing : Spacing} {n n' : Nesting} {t : Token} {l : Lexeme}

/-- A token that is taken in does what it means. -/
theorem advances_of_step (ht : t.Means l) (hstep : n.step spacing t = .ok n') : Advances spacing n l n' := by
  cases ht with
  | text =>
    cases hstep
    exact .text
  | verbatim =>
    cases hstep
    exact .text
  | aside =>
    cases hstep
    exact .aside
  | @startTag offset written q tokens closed hwritten =>
    cases hstep
    cases closed with
    | true => exact .empty
    | false =>
      exact Advances.begin (e := ⟨offset, written, q, tokens.map AttributeToken.meaning, (n.flush spacing).siblings⟩)
        hwritten rfl
  | @endTag offset written =>
    rw [step, finish] at hstep
    split at hstep
    · cases hstep
    · rename_i e outer hopened
      split at hstep
      · rename_i hwritten
        cases hstep
        exact .finish hopened hwritten
      · cases hstep

/-- A token is taken in, provided that it ends the element that is open if it ends one. -/
theorem step_eq_ok (spacing : Spacing) (ht : t.Means l)
    (hend : ∀ written, l = .endTag written → ∃ e outer, n.opened = e :: outer ∧ e.written.chars = written) :
    ∃ n', n.step spacing t = .ok n' := by
  cases ht with
  | text => exact ⟨_, rfl⟩
  | verbatim => exact ⟨_, rfl⟩
  | aside => exact ⟨_, rfl⟩
  | startTag => exact ⟨_, rfl⟩
  | endTag =>
    obtain ⟨e, outer, hopened, hwritten⟩ := hend _ rfl
    have hopened' : (n.flush spacing).opened = e :: outer := hopened
    simp only [step, finish, hopened', hwritten, if_true]
    exact ⟨_, rfl⟩

end Nesting

/-- What a scanned source comes to after what has been put together before it. -/
def Scan.resume (spacing : Spacing) (s : Scan) (n : Nesting) : Except FaultAt Forest :=
  match n.steps spacing s.tokens, s.fault with
  | .error e, _ => .error e
  | .ok _, some e => .error e
  | .ok n, none => n.forest spacing

namespace Cursor

/-- What is still to be read comes to this, after what has been put together before. -/
def readOn (spacing : Spacing) (c : Cursor) (n : Nesting) : Except FaultAt Forest :=
  c.scan.resume spacing n

variable {c : Cursor} {spacing : Spacing} {n n' : Nesting}

/-- A whole source is read on from its beginning. -/
theorem forest_ofSource (source : List Char) :
    (Scan.ofSource source).forest spacing = readOn spacing ⟨0, source⟩ .start := rfl

/-- At the end of the source the forest is complete. -/
theorem readOn_end (h : c.rest = []) : c.readOn spacing n = n.forest spacing := by
  rw [readOn, scan, dif_pos h]
  rfl

/-- A place where a token stands is read by taking in the token first. -/
theorem readOn_step {t : Token} {after : Cursor} (hrest : c.rest ≠ []) (ht : c.token = .ok (t, after)) :
    c.readOn spacing n =
      match n.step spacing t with
      | .error e => .error e
      | .ok n' => after.readOn spacing n' := by
  have hscan : c.scan = ⟨t :: after.scan.tokens, after.scan.fault⟩ := by
    rw [scan, dif_neg hrest]
    split
    · rename_i e he
      rw [ht] at he
      cases he
    · rename_i t' after' ht'
      rw [ht] at ht'
      cases ht'
      rfl
  rw [readOn, hscan, Scan.resume, Nesting.steps]
  cases n.step spacing t <;> rfl

/-- A token that can be taken in is read past. -/
theorem readOn_token {t : Token} {after : Cursor} (hrest : c.rest ≠ []) (ht : c.token = .ok (t, after))
    (hstep : n.step spacing t = .ok n') : c.readOn spacing n = after.readOn spacing n' := by
  rw [readOn_step hrest ht, hstep]

/-- What is no token is the fault. -/
theorem readOn_fault {e : FaultAt} (hrest : c.rest ≠ []) (ht : c.token = .error e) : c.readOn spacing n = .error e := by
  have hscan : c.scan = ⟨[], some e⟩ := by
    rw [scan, dif_neg hrest]
    split
    · rename_i e' he
      rw [ht] at he
      cases he
      rfl
    · rename_i t after h
      rw [ht] at h
      cases h
  rw [readOn, hscan]
  rfl

/-- Where a source can be read on, a lexeme stands, and what follows it can be read on. -/
theorem advances_of_readOn {f : Forest} (hrest : c.rest ≠ []) (h : c.readOn spacing n = .ok f) :
    ∃ (l : Lexeme) (after : Cursor) (n' : Nesting), Lexed c.rest l after.rest ∧ after.rest.length < c.rest.length ∧
      n.Advances spacing l n' ∧ after.readOn spacing n' = .ok f := by
  cases htoken : c.token with
  | error e =>
    rw [readOn_fault hrest htoken] at h
    cases h
  | ok read =>
    obtain ⟨t, after⟩ := read
    obtain ⟨l, hmeans, hlexed⟩ := token_sound htoken hrest
    rw [readOn_step hrest htoken] at h
    cases hstep : n.step spacing t with
    | error e =>
      rw [hstep] at h
      cases h
    | ok n' =>
      rw [hstep] at h
      exact ⟨l, after, n', hlexed, length_token htoken hrest, Nesting.advances_of_step hmeans hstep, h⟩

/-- A lexeme that stands here is read past, provided that it ends the element that is open if it ends one. -/
theorem readOn_lexed (spacing : Spacing) (n : Nesting) {l : Lexeme} {rest : List Char} (h : Lexed c.rest l rest)
    (hend : ∀ written, l = .endTag written → ∃ e outer, n.opened = e :: outer ∧ e.written.chars = written) :
    ∃ (after : Cursor) (n' : Nesting), after.rest = rest ∧ n.Advances spacing l n' ∧
      c.readOn spacing n = after.readOn spacing n' := by
  obtain ⟨t, after, htoken, hmeans, hafter⟩ := token_complete h
  obtain ⟨n', hstep⟩ := Nesting.step_eq_ok spacing hmeans hend
  exact ⟨after, n', hafter, Nesting.advances_of_step hmeans hstep, readOn_token h.ne_nil htoken hstep⟩

/-- What holds of what has been put together, and still holds after each lexeme, holds of all that is put together when the
source can be read to its end. -/
theorem exists_of_readOn {P : Nesting → Prop} {f : Forest}
    (hstep : ∀ {n n' l s rest}, Lexed s l rest → Nesting.Advances spacing n l n' → P n → P n') (hn : P n)
    (h : c.readOn spacing n = .ok f) :
    ∃ n', P n' ∧ n'.opened = [] ∧ f = .ofList (n'.flush spacing).siblings.reverse := by
  induction hlength : c.rest.length using Nat.strongRecOn generalizing c n with
  | ind _ ih =>
    by_cases hrest : c.rest = []
    · rw [readOn_end hrest, Nesting.forest] at h
      split at h
      · cases h
      · rename_i hopened
        cases h
        exact ⟨n, hn, hopened, rfl⟩
    · obtain ⟨l, after, n', hlexed, hshorter, hadvances, hread⟩ := advances_of_readOn hrest h
      exact ih _ (hlength ▸ hshorter) (hstep hlexed hadvances hn) hread rfl

end Cursor

/-- A forest that is read has been put together lexeme by lexeme. -/
theorem Forest.exists_of_parse {P : Nesting → Prop} {source : String} {spacing : Spacing} {f : Forest}
    (hstep : ∀ {n n' l s rest}, Lexed s l rest → Nesting.Advances spacing n l n' → P n → P n') (hstart : P .start)
    (h : Forest.parse source spacing = .ok f) :
    ∃ n, P n ∧ n.opened = [] ∧ f = .ofList (n.flush spacing).siblings.reverse := by
  simp only [Forest.parse, Cursor.forest_ofSource] at h
  split at h
  · cases h
  · rename_i hread
    cases h
    exact Cursor.exists_of_readOn hstep hstart hread

/-! ## Names that are read -/

namespace Grammar

variable {s rest : List Char}

/-- An attribute that stands in the source has a legal name. -/
theorem AttributeForm.legal {a : Attribute} (h : AttributeForm s a rest) : a.name.isLegal = true := by
  cases h with
  | absent hname => exact hname.legal
  | valued hname => exact hname.legal

/-- The attributes of a tag have legal names. -/
theorem TagRest.legal {attributes : List Attribute} {closed : Bool} (h : TagRest s attributes closed rest) :
    Attribute.AllLegal attributes := by
  induction h with
  | opened => exact List.forall_mem_nil _
  | closed => exact List.forall_mem_nil _
  | more _ _ hattribute _ ih => exact List.forall_mem_cons.mpr ⟨hattribute.legal, ih⟩

/-- A tag has legal names only. -/
theorem Lexed.legal {q : QName} {attributes : List Attribute} {closed : Bool}
    (h : Lexed s (.startTag q attributes closed) rest) : q.isLegal = true ∧ Attribute.AllLegal attributes := by
  cases h with
  | startTag hname htag => exact ⟨hname.legal, htag.legal⟩

end Grammar

namespace Nesting

/-- All names in what has been put together so far are legal. -/
structure Legal (n : Nesting) : Prop where
  opened : ∀ e ∈ n.opened, e.name.isLegal = true ∧ Attribute.AllLegal e.attributes ∧ ∀ t ∈ e.before, t.forest.Legal
  siblings : ∀ t ∈ n.siblings, t.forest.Legal

variable {n n' : Nesting} {spacing : Spacing}

theorem Legal.start : Nesting.start.Legal :=
  ⟨List.forall_mem_nil _, List.forall_mem_nil _⟩

/-- Names stay legal when the text that has been heard is put in. -/
theorem Legal.flush (h : n.Legal) : (n.flush spacing).Legal := by
  refine ⟨h.opened, ?_⟩
  intro t ht
  simp only [Nesting.flush] at ht
  split at ht
  · exact h.siblings t ht
  · rcases List.mem_cons.mp ht with rfl | ht
    · exact Forest.legal_nil
    · exact h.siblings t ht

theorem Legal.tree (h : n.Legal) : (Forest.ofList (n.flush spacing).siblings.reverse).Legal :=
  Forest.legal_ofList.mpr fun t ht => h.flush.siblings t (List.mem_reverse.mp ht)

/-- Names stay legal by a lexeme. -/
theorem Legal.advances {l : Lexeme} {s rest : List Char} (hlexed : Lexed s l rest) (hadvances : n.Advances spacing l n')
    (h : n.Legal) : n'.Legal := by
  cases hadvances with
  | text => exact ⟨h.opened, h.siblings⟩
  | aside => exact h
  | empty =>
    obtain ⟨hname, hattributes⟩ := hlexed.legal
    exact ⟨h.opened, List.forall_mem_cons.mpr
      ⟨Forest.legal_forest_element hname hattributes Forest.legal_nil, h.flush.siblings⟩⟩
  | begin _ hbefore =>
    obtain ⟨hname, hattributes⟩ := hlexed.legal
    refine ⟨List.forall_mem_cons.mpr ⟨⟨hname, hattributes, ?_⟩, h.opened⟩, List.forall_mem_nil _⟩
    rw [hbefore]
    exact h.flush.siblings
  | finish hopened =>
    obtain ⟨⟨hname, hattributes, hbefore⟩, houter⟩ := List.forall_mem_cons.mp (hopened ▸ h.opened)
    exact ⟨houter, List.forall_mem_cons.mpr ⟨Forest.legal_forest_element hname hattributes h.tree, hbefore⟩⟩

end Nesting

/-- The names in a forest that is read from markup are legal. -/
theorem Forest.legal_parse {source : String} {spacing : Spacing} {f : Forest} (h : Forest.parse source spacing = .ok f) :
    f.Legal := by
  obtain ⟨n, hn, -, rfl⟩ := exists_of_parse Nesting.Legal.advances .start h
  exact hn.tree

end LiveMarkup
