import LiveMarkup.Markup.Parser

/-!
# The grammar of markup

What markup is, said without a reader. A form of the grammar relates a text that it stands at the beginning of to the text
that follows it, with what it means in between: `Grammar.Value s v rest` says that a value which means `v` stands at the
beginning of `s`, and that `rest` is what comes after it. Forms that end where they can go no further say so of what
follows them (`Grammar.Stops`).

There are two levels. A *lexeme* is a run of text, something that says nothing, or a tag (`Grammar.Lexed`); *content* is
lexemes in which every tag that begins an element is matched by the one that ends it (`Grammar.Content`). Content means a
forest with one text for each run and each literal section. How white space is treated is not a matter of the grammar but
of what is made of its forest (`Forest.read` in `JoinedTexts`).
-/

namespace LiveMarkup

/-- The text ends with another, which stands nowhere in it before. -/
structure Text.UpToFirst (finish whole : List Char) : Prop where
  ends : finish <:+ whole
  first : ∀ before after, whole = before ++ finish ++ after → after = []

/-- The characters mean a text. An ampersand that a letter or `#` follows begins a reference, which goes on to the next
semicolon and stands for one character; every other character stands for itself. -/
inductive Reference.Decoded : List Char → List Char → Prop
  | nil : Decoded [] []
  | reference {name rest meant : List Char} {c : Char} (hname : ';' ∉ name) (hmeaning : meaning? name = some c)
      (hrest : Decoded rest meant) : Decoded ('&' :: (name ++ ';' :: rest)) (c :: meant)
  | plain {c : Char} {rest meant : List Char} (hc : c = '&' → begins rest = false) (hrest : Decoded rest meant) :
      Decoded (c :: rest) (c :: meant)

namespace Grammar

/-- No character of a class stands first. -/
def Stops (p : Char → Bool) (s : List Char) : Prop :=
  ∀ c ∈ s.head?, p c = false

/-- White space, or none. -/
def Spaced (s rest : List Char) : Prop :=
  ∃ blanks : List Char, (∀ c ∈ blanks, Cursor.isBlank c = true) ∧ s = blanks ++ rest

/-- Characters of a name, the first of which may begin one, and as many as there are. -/
structure Name (s written rest : List Char) : Prop where
  spelled : s = written ++ rest
  start : ∃ first more, written = first :: more ∧ QName.isNameStart first = true
  chars : ∀ c ∈ written, QName.isNameChar c = true
  longest : Stops QName.isNameChar rest

/-- A name that is a base name, or a namespace and a base name with a colon between them. -/
structure Named (s : List Char) (q : QName) (rest : List Char) : Prop where
  written : Name s q.qualified.toList rest
  legal : q.isLegal = true

/-- The value of an attribute: anything up to the next quotation mark of the kind it is opened with, or, without quotation
marks, everything up to the next blank or end of tag. -/
inductive Value : List Char → List Char → List Char → Prop
  | quoted {quote : Char} {raw meant rest : List Char} (hquote : quote = '\x22' ∨ quote = '\x27') (hraw : quote ∉ raw)
      (hmeant : Reference.Decoded raw meant) : Value (quote :: (raw ++ quote :: rest)) meant rest
  | bare {raw meant rest : List Char} (hne : raw ≠ []) (hraw : ∀ c ∈ raw, Cursor.isBare c = true)
      (hfault : ∀ c ∈ raw, Cursor.isBareFault c = false) (hrest : Stops Cursor.isBare rest)
      (hmeant : Reference.Decoded raw meant) : Value (raw ++ rest) meant rest

/-- An attribute: a name, and a value if an equals sign follows the name. -/
inductive AttributeForm : List Char → Attribute → List Char → Prop
  | absent {s rest : List Char} {q : QName} (hname : Named s q rest) (hequals : ∀ after, ¬Spaced rest ('=' :: after)) :
      AttributeForm s ⟨q, ""⟩ rest
  | valued {s afterName afterEquals value meant rest : List Char} {q : QName} (hname : Named s q afterName)
      (hequals : Spaced afterName ('=' :: afterEquals)) (hblanks : Spaced afterEquals value)
      (hvalue : Value value meant rest) : AttributeForm s ⟨q, String.ofList meant⟩ rest

/-- What follows the name in a tag that begins an element: attributes, each after white space, and the end of the tag, which
also ends the element if a slash stands in it. -/
inductive TagRest : List Char → List Attribute → Bool → List Char → Prop
  | opened {s rest : List Char} (hend : Spaced s ('>' :: rest)) : TagRest s [] false rest
  | closed {s rest : List Char} (hend : Spaced s ('/' :: '>' :: rest)) : TagRest s [] true rest
  | more {blank : Char} {s here after rest : List Char} {a : Attribute} {attributes : List Attribute} {closed : Bool}
      (hblank : Cursor.isBlank blank = true) (hblanks : Spaced s here) (hattribute : AttributeForm here a after)
      (hrest : TagRest after attributes closed rest) : TagRest (blank :: s) (a :: attributes) closed rest

/-- What a piece of markup contributes. -/
inductive Lexeme
  /-- A text. -/
  | text (meant : List Char)
  /-- Nothing. -/
  | aside
  /-- The beginning of an element; `closed` when it ends at once. -/
  | startTag (name : QName) (attributes : List Attribute) (closed : Bool)
  /-- The end of an element, by the name that is written there. -/
  | endTag (written : List Char)

/-- A piece of markup. An aside goes on to the first place where its end stands, counted from its own beginning: the end may
overlap what it begins with. -/
inductive Lexed : List Char → Lexeme → List Char → Prop
  | text {run meant rest : List Char} (hne : run ≠ []) (hrun : '<' ∉ run) (hrest : Stops (· ≠ '<') rest)
      (hmeant : Reference.Decoded run meant) : Lexed (run ++ rest) (.text meant) rest
  | verbatim {body rest : List Char} (hbody : Text.UpToFirst "]]>".toList (body ++ "]]>".toList)) :
      Lexed ("<![CDATA[".toList ++ (body ++ "]]>".toList ++ rest)) (.text body) rest
  | comment {whole rest : List Char} (hbegin : "<!--".toList <+: whole) (hwhole : Text.UpToFirst "-->".toList whole) :
      Lexed (whole ++ rest) .aside rest
  | declaration {whole rest : List Char} (hbegin : "<!".toList <+: whole) (hcomment : ¬"<!--".toList <+: whole)
      (hsection : ¬"<![CDATA[".toList <+: whole) (hwhole : Text.UpToFirst ">".toList whole) :
      Lexed (whole ++ rest) .aside rest
  | instruction {whole rest : List Char} (hbegin : "<?".toList <+: whole) (hwhole : Text.UpToFirst "?>".toList whole) :
      Lexed (whole ++ rest) .aside rest
  | startTag {s afterName rest : List Char} {q : QName} {attributes : List Attribute} {closed : Bool}
      (hname : Named s q afterName) (htag : TagRest afterName attributes closed rest) :
      Lexed ('<' :: s) (.startTag q attributes closed) rest
  | endTag {s afterName written rest : List Char} (hname : Name s written afterName) (hend : Spaced afterName ('>' :: rest)) :
      Lexed ('<' :: '/' :: s) (.endTag written) rest

/-- A sequence of texts, asides and elements. -/
inductive Content : List Char → Forest → List Char → Prop
  | nil {s : List Char} : Content s .nil s
  | text {s after meant rest : List Char} {next : Forest} (htext : Lexed s (.text meant) after)
      (hnext : Content after next rest) : Content s (.leaf (String.ofList meant) next) rest
  | aside {s after rest : List Char} {next : Forest} (haside : Lexed s .aside after) (hnext : Content after next rest) :
      Content s next rest
  | empty {s after rest : List Char} {q : QName} {attributes : List Attribute} {next : Forest}
      (htag : Lexed s (.startTag q attributes true) after) (hnext : Content after next rest) :
      Content s (.element q attributes .nil next) rest
  | element {s inside beforeEnd after rest : List Char} {q : QName} {attributes : List Attribute} {children next : Forest}
      (hbegin : Lexed s (.startTag q attributes false) inside) (hchildren : Content inside children beforeEnd)
      (hend : Lexed beforeEnd (.endTag q.qualified.toList) after) (hnext : Content after next rest) :
      Content s (.element q attributes children next) rest

variable {s rest : List Char}

theorem stops_cons {p : Char → Bool} {c : Char} : Stops p (c :: rest) ↔ p c = false := by
  constructor
  · intro h
    exact h c rfl
  · intro h x hx
    cases hx
    exact h

theorem Spaced.refl (s : List Char) : Spaced s s :=
  ⟨[], List.forall_mem_nil _, rfl⟩

/-- Whatever a value begins with, it is no blank. -/
theorem Value.stops {meant : List Char} (h : Value s meant rest) : Stops Cursor.isBlank s := by
  cases h with
  | quoted hquote => rcases hquote with rfl | rfl <;> exact stops_cons.mpr (by decide)
  | @bare raw _ _ hne hraw =>
    obtain ⟨x, more, rfl⟩ := List.exists_cons_of_ne_nil hne
    have hx := hraw x List.mem_cons_self
    rw [Cursor.isBare, Bool.not_eq_true', Bool.or_eq_false_iff] at hx
    exact stops_cons.mpr hx.1

/-- What begins with a name begins with a character that may begin one. -/
theorem Named.start {q : QName} (h : Named s q rest) :
    ∃ first more, s = first :: more ∧ QName.isNameStart first = true := by
  obtain ⟨first, more, hwritten, hstart⟩ := h.written.start
  exact ⟨first, more ++ rest, by rw [h.written.spelled, hwritten, List.cons_append], hstart⟩

theorem AttributeForm.start {a : Attribute} (h : AttributeForm s a rest) :
    ∃ first more, s = first :: more ∧ QName.isNameStart first = true := by
  cases h with
  | absent hname => exact hname.start
  | valued hname => exact hname.start

/-- No lexeme is empty. -/
theorem Lexed.ne_nil {l : Lexeme} (h : Lexed s l rest) : s ≠ [] := by
  have hwhole : ∀ {lead whole : List Char}, lead ≠ [] → lead <+: whole → whole ++ rest ≠ [] := by
    intro lead whole hne hlead hnil
    rw [(List.append_eq_nil_iff.mp hnil).1] at hlead
    exact hne (List.prefix_nil.mp hlead)
  cases h with
  | text hne => exact List.append_ne_nil_of_left_ne_nil hne _
  | verbatim => exact List.cons_ne_nil _ _
  | comment hbegin => exact hwhole (by decide) hbegin
  | declaration hbegin => exact hwhole (by decide) hbegin
  | instruction hbegin => exact hwhole (by decide) hbegin
  | startTag => exact List.cons_ne_nil _ _
  | endTag => exact List.cons_ne_nil _ _

end Grammar

end LiveMarkup
