import LiveMarkup.Markup.Cursor
import LiveMarkup.Markup.Reference

/-!
# Tokens of markup

A source text is read as tokens: runs of text, sections taken literally, asides that say nothing, and tags. A token keeps
the pieces of the source that it was made from, each with the byte offset where it begins.

`Scan.ofSource` reads a whole text. Its answer holds the tokens up to the first fault, and the fault if there is one, so
what the tokens mean can be asked in the order in which they stand.
-/

namespace LiveMarkup

/-- An attribute of a tag, with the pieces of the source that hold its name and its value. -/
structure AttributeToken where
  written : Slice
  raw : Option Slice
  meaning : Attribute
deriving DecidableEq, Repr

/-- One token of markup. -/
inductive Token
  /-- A run of text between tags, and the same text with its references replaced. -/
  | text (run : Slice) (decoded : List Char)
  /-- The body of a section that holds text as it is. -/
  | verbatim (body : Slice)
  /-- A comment, declaration or instruction. -/
  | aside (whole : Slice)
  /-- The tag that begins an element; `closed` when it also ends it. -/
  | startTag (offset : Nat) (written : Slice) (name : QName) (attributes : List AttributeToken) (closed : Bool)
  /-- The tag that ends an element. -/
  | endTag (offset : Nat) (written : Slice)
deriving DecidableEq, Repr

namespace Cursor

/-- A name with at most one colon. -/
def qualifiedName (kind : NameKind) (c : Cursor) : Except FaultAt (Slice × QName × Cursor) :=
  match c.name? with
  | none => .error ⟨c.offset, .expectedName kind⟩
  | some (written, after) =>
    match QName.ofWritten? written.chars with
    | none => .error ⟨written.start, .invalidName kind written.text⟩
    | some name => .ok (written, name, after)

/-- Holds of the characters that a value without quotation marks goes on with. -/
def isBare (c : Char) : Bool :=
  !(isBlank c || c == '>')

/-- Holds of the characters that a value without quotation marks may not have. -/
def isBareFault (c : Char) : Bool :=
  c == '\x22' || c == '\x27' || c == '<' || c == '=' || c == '\x60'

/-- The piece up to the next quotation mark, for a value that was opened at a byte offset. -/
def quotedValue (opened : Nat) (quote : Char) (c : Cursor) : Except FaultAt (Slice × Cursor) :=
  match c.upTo? [quote] with
  | some found => .ok found
  | none => .error ⟨opened, .unterminatedValue⟩

/-- The piece up to the next blank or end of tag. -/
def bareValue (c : Cursor) : Except FaultAt (Slice × Cursor) :=
  let (raw, after) := c.takeWhile isBare
  if raw.chars.isEmpty || raw.chars.any isBareFault then .error ⟨c.offset, .invalidBareValue⟩ else .ok (raw, after)

/-- The piece that holds a value, in quotation marks of either kind or in none. -/
def value (c : Cursor) : Except FaultAt (Slice × Cursor) :=
  match c.past? ['\x22'] with
  | some inside => quotedValue c.offset '\x22' inside
  | none =>
    match c.past? ['\x27'] with
    | some inside => quotedValue c.offset '\x27' inside
    | none => c.bareValue

/-- An attribute: a name, and a value if an equals sign follows the name. -/
def attributeToken (c : Cursor) : Except FaultAt (AttributeToken × Cursor) :=
  match c.qualifiedName .attributeName with
  | .error e => .error e
  | .ok (written, name, after) =>
    match after.skipBlanks.past? ['='] with
    | none => .ok (⟨written, none, ⟨name, ""⟩⟩, after)
    | some equals =>
      match equals.skipBlanks.value with
      | .error e => .error e
      | .ok (raw, after) =>
        match Reference.decode raw.start raw.chars with
        | .error e => .error e
        | .ok decoded => .ok (⟨written, some raw, ⟨name, String.ofList decoded⟩⟩, after)

/-- What follows a name is shorter than the text it was read from. -/
theorem length_qualifiedName {kind : NameKind} {c d : Cursor} {s : Slice} {q : QName}
    (h : c.qualifiedName kind = .ok (s, q, d)) : d.rest.length < c.rest.length := by
  unfold qualifiedName at h
  split at h
  · simp at h
  · rename_i hn
    split at h
    · simp at h
    · simp only [Except.ok.injEq, Prod.mk.injEq] at h
      obtain ⟨rfl, rfl, rfl⟩ := h
      exact length_name? hn

/-- What follows a value in quotation marks is no longer than the text it was read from. -/
theorem length_quotedValue {opened : Nat} {quote : Char} {c d : Cursor} {s : Slice}
    (h : quotedValue opened quote c = .ok (s, d)) : d.rest.length ≤ c.rest.length := by
  unfold quotedValue at h
  split at h
  · rename_i hu
    cases h
    have := length_upTo? hu
    omega
  · simp at h

/-- What follows a value is no longer than the text it was read from. -/
theorem length_value {c d : Cursor} {s : Slice} (h : c.value = .ok (s, d)) : d.rest.length ≤ c.rest.length := by
  unfold value at h
  split at h
  · rename_i hp
    have := length_past? hp
    have := length_quotedValue h
    omega
  · split at h
    · rename_i hp
      have := length_past? hp
      have := length_quotedValue h
      omega
    · unfold bareValue at h
      simp only at h
      split at h
      · simp at h
      · simp only [Except.ok.injEq, Prod.mk.injEq] at h
        obtain ⟨-, rfl⟩ := h
        exact c.length_takeWhile isBare

/-- What follows an attribute is shorter than the text it was read from. -/
theorem length_attributeToken {c d : Cursor} {a : AttributeToken} (h : c.attributeToken = .ok (a, d)) :
    d.rest.length < c.rest.length := by
  unfold attributeToken at h
  split at h
  · simp at h
  · rename_i after hq
    have hq := length_qualifiedName hq
    split at h
    · simp only [Except.ok.injEq, Prod.mk.injEq] at h
      obtain ⟨-, rfl⟩ := h
      exact hq
    · rename_i equals hp
      have hp := length_past? hp
      have hb := length_skipBlanks after
      split at h
      · simp at h
      · rename_i hv
        have hv := length_value hv
        have hb' := length_skipBlanks equals
        split at h
        · simp at h
        · simp only [Except.ok.injEq, Prod.mk.injEq] at h
          obtain ⟨-, rfl⟩ := h
          simp only [List.length_cons, List.length_nil] at hp
          omega

/-- What follows the name in a tag that begins at a byte offset: attributes, each after a blank, and the end of the tag. -/
def tagRest (opened : Nat) (c : Cursor) : Except FaultAt (List AttributeToken × Bool × Cursor) :=
  let here := c.skipBlanks
  match here.past? ['>'] with
  | some after => .ok ([], false, after)
  | none =>
    match here.past? ['/'] with
    | some slash =>
      match slash.past? ['>'] with
      | some after => .ok ([], true, after)
      | none => .error ⟨slash.offset, .expectedTagEnd⟩
    | none =>
      if here.rest.isEmpty then .error ⟨opened, .unterminatedStartTag⟩
      else if (c.takeWhile isBlank).1.chars.isEmpty then .error ⟨here.offset, .expectedBlank⟩
      else
        match _read : here.attributeToken with
        | .error e => .error e
        | .ok (a, after) =>
          match tagRest opened after with
          | .error e => .error e
          | .ok (more, closed, after) => .ok (a :: more, closed, after)
termination_by c.rest.length
decreasing_by exact Nat.lt_of_lt_of_le (length_attributeToken _read) c.length_skipBlanks

/-- The tag that begins an element, read from the place after its first character. -/
def startTag (opened : Nat) (c : Cursor) : Except FaultAt (Token × Cursor) :=
  match c.qualifiedName .elementName with
  | .error e => .error e
  | .ok (written, name, after) =>
    match tagRest opened after with
    | .error e => .error e
    | .ok (attributes, closed, after) => .ok (.startTag opened written name attributes closed, after)

/-- The tag that ends an element, read from the place after its first two characters. -/
def endTag (opened : Nat) (c : Cursor) : Except FaultAt (Token × Cursor) :=
  match c.name? with
  | none => .error ⟨c.offset, .expectedName .elementName⟩
  | some (written, after) =>
    match after.skipBlanks.past? ['>'] with
    | none => .error ⟨after.skipBlanks.offset, .unterminatedEndTag⟩
    | some after => .ok (.endTag opened written, after)

/-- An aside: everything up to the first place from here on where its end stands. -/
def aside (c : Cursor) (finish : List Char) (fault : MarkupFault) : Except FaultAt (Token × Cursor) :=
  match c.upTo? finish with
  | none => .error ⟨c.offset, fault⟩
  | some (before, after) => .ok (.aside ⟨before.start, before.chars ++ finish⟩, after)

/-- A section that holds text as it is, read from the place after its opening. -/
def verbatim (opened : Nat) (c : Cursor) : Except FaultAt (Token × Cursor) :=
  match c.upTo? "]]>".toList with
  | none => .error ⟨opened, .unterminatedSection⟩
  | some (body, after) => .ok (.verbatim body, after)

/-- A run of text up to the next tag. -/
def text (c : Cursor) : Except FaultAt (Token × Cursor) :=
  let (run, after) := c.takeWhile (· ≠ '<')
  match Reference.decode run.start run.chars with
  | .error e => .error e
  | .ok decoded => .ok (.text run decoded, after)

/-- The token that stands here. -/
def token (c : Cursor) : Except FaultAt (Token × Cursor) :=
  if (c.past? "<!--".toList).isSome then c.aside "-->".toList .unterminatedComment
  else match c.past? "<![CDATA[".toList with
  | some body => verbatim c.offset body
  | none =>
    if (c.past? "<!".toList).isSome then c.aside ">".toList .unterminatedDeclaration
    else if (c.past? "<?".toList).isSome then c.aside "?>".toList .unterminatedInstruction
    else match c.past? "</".toList with
    | some name => endTag c.offset name
    | none =>
      match c.past? "<".toList with
      | some name => startTag c.offset name
      | none => c.text

/-- What follows the rest of a tag is shorter than the text it was read from. -/
theorem length_tagRest {opened : Nat} {c d : Cursor} {as : List AttributeToken} {closed : Bool}
    (h : tagRest opened c = .ok (as, closed, d)) : d.rest.length < c.rest.length := by
  fun_induction tagRest opened c generalizing as closed d with
  | case1 c here after =>
    rename_i hp
    cases h
    have := length_past? hp
    have : here.rest.length ≤ c.rest.length := c.length_skipBlanks
    simp only [List.length_cons, List.length_nil] at *
    omega
  | case2 c here _ slash =>
    rename_i hp _ hq
    cases h
    have := length_past? hp
    have := length_past? hq
    have : here.rest.length ≤ c.rest.length := c.length_skipBlanks
    simp only [List.length_cons, List.length_nil] at *
    omega
  | case8 c here =>
    rename_i ha _ _ _ hr ih
    cases h
    have := length_attributeToken ha
    have : here.rest.length ≤ c.rest.length := c.length_skipBlanks
    have := ih hr
    omega
  | _ => simp at h

/-- What follows a tag is shorter than the text it was read from. -/
theorem length_startTag {opened : Nat} {c d : Cursor} {t : Token} (h : startTag opened c = .ok (t, d)) :
    d.rest.length < c.rest.length := by
  unfold startTag at h
  split at h
  · simp at h
  · rename_i hq
    split at h
    · simp at h
    · rename_i ht
      cases h
      have := length_qualifiedName hq
      have := length_tagRest ht
      omega

/-- What follows a tag is shorter than the text it was read from. -/
theorem length_endTag {opened : Nat} {c d : Cursor} {t : Token} (h : endTag opened c = .ok (t, d)) :
    d.rest.length < c.rest.length := by
  unfold endTag at h
  split at h
  · simp at h
  · rename_i after hn
    split at h
    · simp at h
    · rename_i hp
      cases h
      have := length_name? hn
      have := length_skipBlanks after
      have := length_past? hp
      omega

/-- What follows an aside is shorter by its end at least. -/
theorem length_aside {c d : Cursor} {finish : List Char} {fault : MarkupFault} {t : Token}
    (h : c.aside finish fault = .ok (t, d)) : d.rest.length + finish.length ≤ c.rest.length := by
  unfold aside at h
  split at h
  · simp at h
  · rename_i hu
    cases h
    exact length_upTo? hu

/-- What follows a literal section is no longer than the text it was read from. -/
theorem length_verbatim {opened : Nat} {c d : Cursor} {t : Token} (h : verbatim opened c = .ok (t, d)) :
    d.rest.length ≤ c.rest.length := by
  unfold verbatim at h
  split at h
  · simp at h
  · rename_i hu
    cases h
    have := length_upTo? hu
    omega

/-- What follows a run of text that does not begin a tag is shorter than the text it was read from. -/
theorem length_text {c d : Cursor} {t : Token} (h : c.text = .ok (t, d)) (hc : ∃ ch rest, ch ≠ '<' ∧ c.rest = ch :: rest) :
    d.rest.length < c.rest.length := by
  obtain ⟨ch, rest, hne, hr⟩ := hc
  simp only [text, takeWhile] at h
  split at h
  · simp at h
  · cases h
    simp only [hr, hne, ne_eq, not_false_eq_true, decide_true, List.dropWhile_cons_of_pos, List.length_cons]
    exact Nat.lt_succ_of_le (length_dropWhile_le _ _)

/-- What follows a token is shorter than the text it was read from. -/
theorem length_token {c d : Cursor} {t : Token} (h : c.token = .ok (t, d)) (hc : c.rest ≠ []) :
    d.rest.length < c.rest.length := by
  unfold token at h
  split at h
  · have := length_aside h
    simp at this
    omega
  · split at h
    · rename_i hp
      have := length_verbatim h
      have := length_past? hp
      simp at this
      omega
    · split at h
      · have := length_aside h
        simp at this
        omega
      · split at h
        · have := length_aside h
          simp at this
          omega
        · split at h
          · rename_i hp
            have := length_endTag h
            have := length_past? hp
            omega
          · split at h
            · rename_i hp
              have := length_startTag h
              have := length_past? hp
              omega
            · rename_i hp
              refine length_text h ?_
              cases hr : c.rest with
              | nil => exact absurd hr hc
              | cons ch rest =>
                refine ⟨ch, rest, ?_, rfl⟩
                rintro rfl
                simp [past?, hr, Text.after?] at hp

end Cursor

/-- What reading a source text came to: the tokens up to the first fault, and that fault, if there is one. -/
structure Scan where
  tokens : List Token
  fault : Option FaultAt
deriving DecidableEq, Repr

/-- Reads tokens from one place to the end of the source. -/
def Cursor.scan (c : Cursor) : Scan :=
  if _stop : c.rest = [] then ⟨[], none⟩
  else
    match _read : c.token with
    | .error e => ⟨[], some e⟩
    | .ok (t, after) =>
      let more := after.scan
      ⟨t :: more.tokens, more.fault⟩
termination_by c.rest.length
decreasing_by exact Cursor.length_token _read _stop

/-- Reads a whole source text. -/
def Scan.ofSource (source : List Char) : Scan :=
  Cursor.scan ⟨0, source⟩

end LiveMarkup
