import LiveMarkup.Proofs.ByteText
import LiveMarkup.Proofs.ReadingOn

/-!
# Reading markup by its bytes

Markup may as well be read from its bytes (`ByteReader.parse`). Then places are offsets, what is looked for is looked for byte
by byte, and pieces are cut out of the bytes by the offsets of their ends, which breaks off where no character begins at such
an offset (`Halt.torn`); a loop that comes round with no less to read is stuck (`Halt.stuck`). The bytes from 128 on count as
bytes of names, whatever character they belong to. Where an element ends, the name that it was begun with is cut out again.

Where an offset is a place in the source, what is seen from there is what stands there (`peeks_eq`, `startsWith_eq`, `find_eq`,
`skipWhile_eq`, `name?_eq`), and nothing can be cut out but pieces of the source (`cut_eq_ok_iff`).
-/

namespace LiveMarkup

open Text (bytes byte ofBytes isBoundary indexOf? Agree utf8Length)

/-- Why a reading of bytes comes to no forest. -/
inductive Halt
  /-- A piece was to be cut out that the bytes do not have, or that does not begin and end where characters do. -/
  | torn (start stop : Nat)
  /-- A loop has come round with no less to read. -/
  | stuck (offset : Nat)
  /-- The source is no markup. -/
  | fault (found : FaultAt)
deriving DecidableEq, Repr

/-- Holds of the bytes of blanks. -/
def isBlankByte (b : UInt8) : Bool :=
  b == byte ' ' || b == byte '\t' || b == byte '\n' || b == byte '\r' || b == byte '\x0c'

/-- Holds of the bytes of letters. -/
def isLetterByte (b : UInt8) : Bool :=
  (byte 'A' ≤ b && b ≤ byte 'Z') || (byte 'a' ≤ b && b ≤ byte 'z')

/-- Holds of the bytes that may begin a name. -/
def isNameStartByte (b : UInt8) : Bool :=
  isLetterByte b || b == byte '_' || 0x80 ≤ b

/-- Holds of the bytes that may continue a name. -/
def isNameByte (b : UInt8) : Bool :=
  isLetterByte b || (byte '0' ≤ b && b ≤ byte '9') || b == byte '_' || b == byte '-' || b == byte '.' || b == byte ':' ||
    0x80 ≤ b

/-- Holds of the bytes that a value without quotation marks goes on with. -/
def isBareByte (b : UInt8) : Bool :=
  !(isBlankByte b || b == byte '>')

namespace ByteReader

variable (input : List UInt8)

/-! ## Looking and cutting -/

/-- The bytes from an offset on. -/
def rest (offset : Nat) : Except Halt (List UInt8) :=
  if offset ≤ input.length then .ok (input.drop offset) else .error (.torn offset input.length)

/-- Cuts out the bytes between two offsets, at which characters must begin or the bytes end. -/
def cut (start stop : Nat) : Except Halt (List UInt8) :=
  if start ≤ stop ∧ stop ≤ input.length ∧ isBoundary input start ∧ isBoundary input stop then
    .ok ((input.take stop).drop start)
  else .error (.torn start stop)

/-- Cuts out a piece of the source. -/
def slice (start stop : Nat) : Except Halt Slice := do
  return ⟨start, ofBytes (← cut input start stop)⟩

/-- Whether the byte of a character stands at an offset. -/
def peeks (offset : Nat) (c : Char) : Bool :=
  input[offset]? == some (byte c)

/-- Whether a text stands at an offset. -/
def startsWith (offset : Nat) (lead : List Char) : Except Halt Bool := do
  return (bytes lead).isPrefixOf (← rest input offset)

/-- The offset of the next place where a text stands. -/
def find (offset : Nat) (needle : List Char) : Except Halt (Option Nat) := do
  return (indexOf? (bytes needle) (← rest input offset)).map (offset + ·)

/-- The offset after the bytes of one class. -/
def skipWhile (p : UInt8 → Bool) (offset : Nat) : Nat :=
  offset + ((input.drop offset).takeWhile p).length

/-- The offset after the longest name that stands at an offset. -/
def name? (offset : Nat) : Option Nat :=
  if input[offset]?.any isNameStartByte then some (skipWhile input isNameByte (offset + 1)) else none

/-! ## References -/

/-- What stands for an ampersand and what follows it, and the offset after that. The source has the input at an offset. -/
def reference (base ampersand : Nat) : Except Halt (Char × Nat) := do
  if input[ampersand + 1]?.any (fun b => b == byte '#' || isLetterByte b) then
    match ← find input ampersand [';'] with
    | none => throw (.fault ⟨base + ampersand, .unterminatedReference⟩)
    | some semicolon =>
      let name := ofBytes (← cut input (ampersand + 1) semicolon)
      match Reference.meaning? name with
      | none => throw (.fault ⟨base + ampersand, .invalidReference (String.ofList name)⟩)
      | some meant => return (meant, semicolon + 1)
  else return ('&', ampersand + 1)

/-- The input from an offset on with its references replaced. -/
def decodeFrom (base offset : Nat) : Except Halt (List Char) := do
  match ← find input offset ['&'] with
  | none => return ofBytes (← cut input offset input.length)
  | some ampersand =>
    let plain := ofBytes (← cut input offset ampersand)
    let (meant, next) ← reference input base ampersand
    if _less : input.length - next < input.length - offset then
      return plain ++ meant :: (← decodeFrom base next)
    else throw (.stuck offset)
termination_by input.length - offset

/-- The input with its references replaced. -/
def decode (base : Nat) : Except Halt (List Char) :=
  match indexOf? (bytes ['&']) input with
  | none => return ofBytes input
  | some _ => decodeFrom input base 0

/-! ## Tags -/

/-- A name with at most one colon, and the offset after it. -/
def qualifiedName (kind : NameKind) (offset : Nat) : Except Halt (Slice × QName × Nat) :=
  match name? input offset with
  | none => throw (.fault ⟨offset, .expectedName kind⟩)
  | some stop => do
    let written ← slice input offset stop
    match QName.ofWritten? written.chars with
    | none => throw (.fault ⟨offset, .invalidName kind written.text⟩)
    | some q => return (written, q, stop)

/-- Where a value begins and ends, and the offset after it. -/
def value (offset : Nat) : Except Halt (Nat × Nat × Nat) :=
  if peeks input offset '\x22' then quoted '\x22'
  else if peeks input offset '\x27' then quoted '\x27'
  else do
    let stop := skipWhile input isBareByte offset
    let raw ← slice input offset stop
    if raw.chars.isEmpty || raw.chars.any Cursor.isBareFault then throw (.fault ⟨offset, .invalidBareValue⟩)
    else return (offset, stop, stop)
where
  /-- The value ends at the next quotation mark. -/
  quoted (quote : Char) : Except Halt (Nat × Nat × Nat) := do
    match ← find input (offset + 1) [quote] with
    | none => throw (.fault ⟨offset, .unterminatedValue⟩)
    | some stop => return (offset + 1, stop, stop + 1)

/-- An attribute, and the offset after it. -/
def attributeAt (offset : Nat) : Except Halt (Attribute × Nat) := do
  let (_, name, afterName) ← qualifiedName input .attributeName offset
  let equals := skipWhile input isBlankByte afterName
  if peeks input equals '=' then
    let (start, stop, after) ← value input (skipWhile input isBlankByte (equals + 1))
    let decoded ← decode (← cut input start stop) start
    return (⟨name, String.ofList decoded⟩, after)
  else return (⟨name, ""⟩, afterName)

/-- What follows the name in a tag: attributes, whether the tag also ends the element, and the offset after the tag. -/
def tagRest (opened offset : Nat) : Except Halt (List Attribute × Bool × Nat) := do
  let here := skipWhile input isBlankByte offset
  if input.length ≤ here then throw (.fault ⟨opened, .unterminatedStartTag⟩)
  else if peeks input here '>' then return ([], false, here + 1)
  else if peeks input here '/' then
    if peeks input (here + 1) '>' then return ([], true, here + 1 + 1)
    else throw (.fault ⟨here + 1, .expectedTagEnd⟩)
  else if here = offset then throw (.fault ⟨here, .expectedBlank⟩)
  else
    let (a, after) ← attributeAt input here
    if _less : input.length - after < input.length - offset then
      let (more, closed, stop) ← tagRest opened after
      return (a :: more, closed, stop)
    else throw (.stuck offset)
termination_by input.length - offset

variable (spacing : Spacing) (n : Nesting)

/-- The tag that begins an element. -/
def startTag (offset : Nat) : Except Halt (Nesting × Nat) := do
  let (written, name, afterName) ← qualifiedName input .elementName (offset + 1)
  let (attributes, closed, after) ← tagRest input offset afterName
  return ((n.flush spacing).begin offset written name attributes closed, after)

/-- The tag that ends an element. The name of the element is cut out of the source again. -/
def endTag (offset : Nat) : Except Halt (Nesting × Nat) :=
  match name? input (offset + 2) with
  | none => throw (.fault ⟨offset + 2, .expectedName .elementName⟩)
  | some stop => do
    let after := skipWhile input isBlankByte stop
    if peeks input after '>' then
      let written ← slice input (offset + 2) stop
      match (n.flush spacing).opened with
      | [] => throw (.fault ⟨offset, .unexpectedEndTag written.text⟩)
      | e :: outer =>
        let expected ← slice input e.written.start e.written.stop
        if expected.chars = written.chars then
          return ({ n.flush spacing with
            opened := outer
            siblings := .element e.name e.attributes (.ofList (n.flush spacing).siblings.reverse) :: e.before }, after + 1)
        else throw (.fault ⟨offset, .mismatchedEndTag expected.text written.text⟩)
    else throw (.fault ⟨after, .unterminatedEndTag⟩)

/-! ## The whole source -/

/-- The offset after the next place where a text stands. -/
def skipPast (offset : Nat) (finish : List Char) (fault : MarkupFault) : Except Halt Nat := do
  match ← find input offset finish with
  | none => throw (.fault ⟨offset, fault⟩)
  | some stop => return stop + utf8Length finish

/-- A section that holds text as it is. -/
def verbatim (offset : Nat) : Except Halt (Nesting × Nat) := do
  let body := offset + utf8Length "<![CDATA[".toList
  match ← find input body "]]>".toList with
  | none => throw (.fault ⟨offset, .unterminatedSection⟩)
  | some stop => return (n.heard (ofBytes (← cut input body stop)), stop + 3)

/-- The text between two offsets, with its references replaced. -/
def pushText (start stop : Nat) : Except Halt Nesting :=
  if start = stop then return n
  else do
    let decoded ← decode (← cut input start stop) start
    return n.heard decoded

/-- What a less-than sign begins. -/
def markup (offset : Nat) : Except Halt (Nesting × Nat) := do
  if ← startsWith input offset "<!--".toList then return (n, ← skipPast input offset "-->".toList .unterminatedComment)
  else if ← startsWith input offset "<![CDATA[".toList then verbatim input n offset
  else if ← startsWith input offset "<!".toList then return (n, ← skipPast input offset ">".toList .unterminatedDeclaration)
  else if ← startsWith input offset "<?".toList then return (n, ← skipPast input offset "?>".toList .unterminatedInstruction)
  else if ← startsWith input offset "</".toList then endTag input spacing n offset
  else startTag input spacing n offset

/-- The forest, once the source has been read. The name of an element that is left open is cut out of the source again. -/
def close : Except Halt Forest :=
  match (n.flush spacing).opened with
  | e :: _ => do
    let name ← slice input e.written.start e.written.stop
    throw (.fault ⟨e.offset, .unclosedElement name.text⟩)
  | [] => return .ofList (n.flush spacing).siblings.reverse

/-- Reads the bytes from an offset on, after what has been put together before. -/
def run (n : Nesting) (offset : Nat) : Except Halt Forest := do
  if input.length ≤ offset then close input spacing n
  else
    match ← find input offset ['<'] with
    | none => close input spacing (← pushText input n offset input.length)
    | some lessThan =>
      let heard ← pushText input n offset lessThan
      let (next, after) ← markup input spacing heard lessThan
      if _less : input.length - after < input.length - offset then run next after
      else throw (.stuck offset)
termination_by input.length - offset

/-- Reads the bytes of a whole source. -/
def parse (source : String) (spacing : Spacing) : Except Halt Forest :=
  ByteReader.run source.toUTF8.data.toList spacing .start 0

end ByteReader

variable {source : List Char} {c d : Cursor} {w : Slice}

/-! ## Places in the source -/

/-- The cursor is a place in the source: it holds what follows its offset. -/
def Cursor.Stands (source : List Char) (c : Cursor) : Prop :=
  ∃ before, source = before ++ c.rest ∧ utf8Length before = c.offset

/-- The piece is one of the source, and begins where it says. -/
def Slice.Lies (source : List Char) (w : Slice) : Prop :=
  ∃ before after, source = before ++ w.chars ++ after ∧ utf8Length before = w.start

/-- Before the next place of a character stand others. -/
theorem Cursor.rest_upTo? {x : Char} (hfound : c.upTo? [x] = some (w, d)) :
    c.rest = w.chars ++ x :: d.rest ∧ ∀ y ∈ w.chars, y ≠ x := by
  obtain ⟨⟨before, after⟩, hsplit, heq⟩ := Option.map_eq_some_iff.mp hfound
  obtain ⟨rfl, rfl⟩ := Prod.mk.inj heq
  obtain ⟨hrest, hfirst⟩ := (Text.splitAt?_eq_some_iff (List.cons_ne_nil x [])).mp hsplit
  refine ⟨by rw [hrest, List.append_assoc]; rfl, ?_⟩
  rintro y hy rfl
  exact Text.upToFirst_singleton.mp hfirst hy

/-- A character that is searched for in vain is not in what follows. -/
theorem Cursor.rest_upTo?_eq_none {x : Char} (hfound : c.upTo? [x] = none) : ∀ y ∈ c.rest, y ≠ x := by
  rintro y hy rfl
  rw [Cursor.upTo?, Option.map_eq_none_iff, Text.splitAt?_singleton_eq_none_iff] at hfound
  exact hfound hy

namespace Cursor.Stands

theorem start (source : List Char) : Stands source ⟨0, source⟩ :=
  ⟨[], rfl, rfl⟩

/-- Past a piece of the source is a place in it. -/
theorem move (h : c.Stands source) (piece : List Char) (hrest : c.rest = piece ++ d.rest)
    (hoffset : d.offset = c.offset + utf8Length piece) : d.Stands source := by
  obtain ⟨before, hsource, hbefore⟩ := h
  refine ⟨before ++ piece, ?_, ?_⟩
  · rw [hsource, hrest, List.append_assoc]
  · rw [Text.utf8Length_append, hbefore, hoffset]

/-- What a cursor has before it is a piece of the source, and begins at its offset. -/
theorem lies (h : c.Stands source) {piece rest : List Char} (hrest : c.rest = piece ++ rest) :
    Slice.Lies source ⟨c.offset, piece⟩ := by
  obtain ⟨before, hsource, hbefore⟩ := h
  exact ⟨before, rest, by rw [hsource, hrest, List.append_assoc], hbefore⟩

/-- A cursor stands where a character begins, or the source ends. -/
theorem isBoundary (h : c.Stands source) : Text.isBoundary (bytes source) c.offset = true := by
  obtain ⟨before, hsource, hbefore⟩ := h
  exact Text.isBoundary_iff.mpr ⟨before, c.rest, hsource, hbefore⟩

/-- The bytes of the source are those before the cursor and those after it. -/
theorem length_eq (h : c.Stands source) : (bytes source).length = c.offset + utf8Length c.rest := by
  obtain ⟨before, hsource, hbefore⟩ := h
  rw [hsource, Text.length_bytes, Text.utf8Length_append, hbefore]

/-- The bytes from the place on are those of what it holds. -/
theorem drop (h : c.Stands source) : (bytes source).drop c.offset = bytes c.rest := by
  obtain ⟨before, hsource, hbefore⟩ := h
  rw [hsource, Text.bytes_append, ← hbefore, ← Text.length_bytes, List.drop_left]

/-- The byte at the offset of a cursor is the first of what follows. -/
theorem getElem? (h : c.Stands source) : (bytes source)[c.offset]? = (bytes c.rest).head? := by
  rw [← h.drop, List.head?_drop]

/-- Of two places the one that holds less is the later one. -/
theorem lt (h : c.Stands source) (h' : d.Stands source) (hless : d.rest.length < c.rest.length) :
    (bytes source).length - d.offset < (bytes source).length - c.offset := by
  have hlength := h.length_eq
  have hlength' := h'.length_eq
  obtain ⟨before, hsource, hbefore⟩ := h
  obtain ⟨before', hsource', hbefore'⟩ := h'
  rcases List.append_eq_append_iff.mp (hsource.symm.trans hsource') with ⟨piece, hmore, hrest⟩ | ⟨piece, hmore, hrest⟩
  · cases piece with
    | nil => exact absurd hless (by rw [hrest, List.nil_append]; exact Nat.lt_irrefl _)
    | cons x piece =>
      have hpos := x.utf8Size_pos
      rw [hrest, Text.utf8Length_append, utf8Length] at hlength
      omega
  · rw [hrest, List.length_append] at hless
    omega

/-! Reading goes from place to place, and reads pieces of the source. -/

/-- Passing characters of one class leads to a place in the source. -/
theorem takeWhile (h : c.Stands source) (p : Char → Bool) : (c.takeWhile p).2.Stands source ∧ (c.takeWhile p).1.Lies source :=
  have hrest : c.rest = c.rest.takeWhile p ++ c.rest.dropWhile p := List.takeWhile_append_dropWhile.symm
  ⟨h.move _ hrest rfl, h.lies hrest⟩

/-- Passing blanks leads to a place in the source. -/
theorem skipBlanks (h : c.Stands source) : c.skipBlanks.Stands source :=
  (h.takeWhile isBlank).1

/-- Passing a text that stands here leads to the place after its bytes. -/
theorem past? (h : c.Stands source) {lead : List Char} (hpast : c.past? lead = some d) :
    d.Stands source ∧ d.offset = c.offset + utf8Length lead := by
  have hoffset : d.offset = c.offset + utf8Length lead := by
    obtain ⟨rest, -, rfl⟩ := Option.map_eq_some_iff.mp hpast
    rfl
  exact ⟨h.move _ (rest_of_past? hpast) hoffset, hoffset⟩

/-- Passing all up to a text that comes later leads to the place after its bytes. -/
theorem upTo? (h : c.Stands source) {finish : List Char} (hfound : c.upTo? finish = some (w, d)) :
    d.Stands source ∧ w.Lies source ∧ w.start = c.offset ∧ d.offset = w.stop + utf8Length finish := by
  obtain ⟨⟨before, after⟩, hsplit, heq⟩ := Option.map_eq_some_iff.mp hfound
  obtain ⟨rfl, rfl⟩ := Prod.mk.inj heq
  have hrest := Text.splitAt?_eq_some hsplit
  refine ⟨h.move (before ++ finish) hrest ?_, ?_, rfl, rfl⟩
  · rw [Text.utf8Length_append, Nat.add_assoc]
  · rw [List.append_assoc] at hrest
    exact h.lies hrest

/-- Passing a name leads to the place where it ends. -/
theorem name? (h : c.Stands source) (hname : c.name? = some (w, d)) :
    d.Stands source ∧ w.Lies source ∧ w.start = c.offset ∧ d.offset = w.stop := by
  rw [Cursor.name?] at hname
  split at hname
  · cases hname
  · split at hname
    · cases hname
      exact ⟨(h.takeWhile _).1, (h.takeWhile _).2, rfl, rfl⟩
    · cases hname

end Cursor.Stands

/-! ## Classes -/

/-- A letter is told by its byte. -/
theorem agree_letter : Agree Char.isAlpha isLetterByte := by
  have hupper : Agree Char.isUpper fun b => byte 'A' ≤ b && b ≤ byte 'Z' := by
    refine Text.agree_range (by decide) (by decide) fun c => ?_
    exact decide_eq_true_iff
  have hlower : Agree Char.isLower fun b => byte 'a' ≤ b && b ≤ byte 'z' := by
    refine Text.agree_range (by decide) (by decide) fun c => ?_
    change (decide ('a'.toNat ≤ c.toNat) && decide (c.toNat ≤ 'z'.toNat)) = true ↔ _
    rw [Bool.and_eq_true, decide_eq_true_iff, decide_eq_true_iff]
  exact hupper.or hlower

/-- A digit is told by its byte. -/
theorem agree_digit : Agree Char.isDigit fun b => byte '0' ≤ b && b ≤ byte '9' := by
  refine Text.agree_range (by decide) (by decide) fun c => ?_
  rw [Char.isDigit, Bool.and_eq_true, decide_eq_true_iff, decide_eq_true_iff]
  rfl

/-- What may begin a name is told by its bytes. -/
theorem agree_nameStart : Agree QName.isNameStart isNameStartByte :=
  (agree_letter.or (Text.agree_char (by decide))).or Text.agree_high

/-- What may continue a name is told by its bytes. -/
theorem agree_name : Agree QName.isNameChar isNameByte :=
  (((((agree_letter.or agree_digit).or (Text.agree_char (by decide))).or (Text.agree_char (by decide))).or
    (Text.agree_char (by decide))).or (Text.agree_char (by decide))).or Text.agree_high

/-- A blank is told by its byte. -/
theorem agree_blank : Agree Cursor.isBlank isBlankByte :=
  ((((Text.agree_char (by decide)).or (Text.agree_char (by decide))).or (Text.agree_char (by decide))).or
    (Text.agree_char (by decide))).or (Text.agree_char (by decide))

/-- What a value without quotation marks goes on with is told by its bytes. -/
theorem agree_bare : Agree Cursor.isBare isBareByte :=
  (agree_blank.or (Text.agree_char (by decide))).not

namespace ByteReader

/-! ## Looking and cutting -/

/-- Where a cursor stands the bytes can be cut, and what follows is what follows the cursor. -/
theorem rest_eq (h : c.Stands source) : rest (bytes source) c.offset = .ok (bytes c.rest) := by
  rw [rest, if_pos (by rw [h.length_eq]; omega), h.drop]

/-- A piece of the source can be cut out. -/
theorem cut_eq (h : w.Lies source) : cut (bytes source) w.start w.stop = .ok (bytes w.chars) := by
  obtain ⟨before, after, hsource, hbefore⟩ := h
  have hstop : w.stop = utf8Length (before ++ w.chars) := by rw [Slice.stop, ← hbefore, Text.utf8Length_append]
  have hstart : Text.isBoundary (bytes source) w.start = true :=
    Text.isBoundary_iff.mpr ⟨before, w.chars ++ after, by rw [hsource, List.append_assoc], hbefore⟩
  have hend : Text.isBoundary (bytes source) w.stop = true :=
    Text.isBoundary_iff.mpr ⟨before ++ w.chars, after, hsource, hstop.symm⟩
  have hle : w.stop ≤ (bytes source).length := by
    rw [hsource, hstop, Text.length_bytes, Text.utf8Length_append _ after]
    omega
  rw [cut, if_pos ⟨Nat.le_add_right _ _, hle, hstart, hend⟩, hsource, Text.bytes_append, hstop, ← Text.length_bytes,
    List.take_left, Text.bytes_append, ← hbefore, ← Text.length_bytes, List.drop_left]

/-- What can be cut out of the bytes of a source is what its pieces are encoded by. -/
theorem cut_eq_ok_iff {start stop : Nat} {piece : List UInt8} : cut (bytes source) start stop = .ok piece ↔
    ∃ w : Slice, w.Lies source ∧ w.start = start ∧ w.stop = stop ∧ bytes w.chars = piece := by
  constructor
  · intro h
    have hfits := h
    rw [cut] at hfits
    split at hfits
    · rename_i hbounds
      obtain ⟨hle, -, hstart, hstop⟩ := hbounds
      obtain ⟨before, after, hsource, rfl⟩ := Text.isBoundary_iff.mp hstart
      obtain ⟨before', after', hsource', rfl⟩ := Text.isBoundary_iff.mp hstop
      have hpiece : ∃ chars, before' = before ++ chars ∧ source = before ++ chars ++ after' := by
        rcases List.append_eq_append_iff.mp (hsource.symm.trans hsource') with ⟨chars, rfl, -⟩ | ⟨chars, rfl, -⟩
        · exact ⟨chars, rfl, hsource'⟩
        · have hnil : chars = [] := by
            rw [← Text.utf8Length_eq_zero]
            rw [Text.utf8Length_append] at hle
            omega
          subst hnil
          exact ⟨[], by simp, by simpa using hsource'⟩
      obtain ⟨chars, rfl, hwhole⟩ := hpiece
      have hw : Slice.Lies source ⟨utf8Length before, chars⟩ := ⟨before, after', hwhole, rfl⟩
      have hcut := cut_eq hw
      rw [Slice.stop, ← Text.utf8Length_append, h] at hcut
      exact ⟨_, hw, rfl, (Text.utf8Length_append before chars).symm, (Except.ok.inj hcut).symm⟩
    · cases hfits
  · rintro ⟨w, hw, rfl, rfl, rfl⟩
    exact cut_eq hw

/-- A piece of the source can be cut out of the bytes. -/
theorem slice_eq (h : w.Lies source) : slice (bytes source) w.start w.stop = .ok w := by
  rw [slice, cut_eq h]
  exact congrArg (fun chars => Except.ok (Slice.mk w.start chars)) (Text.ofBytes_bytes w.chars)

/-- A character of one byte is seen where it stands. -/
theorem peeks_eq (h : c.Stands source) {x : Char} (hx : x.toNat < 0x80) :
    peeks (bytes source) c.offset x = (c.past? [x]).isSome := by
  rw [peeks, h.getElem?, Bool.eq_iff_iff, Cursor.isSome_past?, beq_iff_eq]
  cases c.rest with
  | nil => exact ⟨fun h => (nomatch h), fun h => absurd (List.prefix_nil.mp h) (List.cons_ne_nil _ _)⟩
  | cons y rest =>
    obtain ⟨lead, tail, hencoded, -, -⟩ := Text.exists_lead y
    have hagree : (lead == byte x) = (y == x) := Text.agree_char hx y lead (hencoded ▸ List.mem_cons_self)
    rw [Text.bytes_cons, hencoded, List.cons_append, List.head?_cons, Option.some_inj, ← beq_iff_eq, hagree, beq_iff_eq,
      List.cons_prefix_cons, and_iff_left List.nil_prefix, eq_comm]

/-- A text stands at the offset of a cursor exactly if the cursor can pass it. -/
theorem startsWith_eq (h : c.Stands source) (lead : List Char) :
    startsWith (bytes source) c.offset lead = .ok (c.past? lead).isSome := by
  simp only [startsWith, rest_eq h, bind, Except.bind, Text.isPrefixOf_bytes, Cursor.past?, Option.isSome_map]
  rfl

/-- What begins with a character of one byte is found where the cursor finds it. -/
theorem find_eq (h : c.Stands source) {x : Char} (hx : x.toNat < 0x80) (needle : List Char) :
    find (bytes source) c.offset (x :: needle) = .ok ((c.upTo? (x :: needle)).map fun found => found.1.stop) := by
  simp only [find, rest_eq h, bind, Except.bind, Text.indexOf?_bytes hx, Cursor.upTo?, Option.map_map]
  rfl

/-- Bytes of one class are passed like the characters that they belong to. -/
theorem skipWhile_eq (h : c.Stands source) {p : Char → Bool} {p' : UInt8 → Bool} (hp : Agree p p') :
    skipWhile (bytes source) p' c.offset = (c.takeWhile p).2.offset := by
  rw [skipWhile, h.drop, hp.takeWhile, Text.length_bytes]
  rfl

/-- The bytes of blanks are passed like blanks. -/
theorem skipBlanks_eq (h : c.Stands source) : skipWhile (bytes source) isBlankByte c.offset = c.skipBlanks.offset :=
  skipWhile_eq h agree_blank

/-- The first byte at a place belongs to a class if the first character does. -/
theorem any_eq (h : c.Stands source) {p : Char → Bool} {p' : UInt8 → Bool} (hp : Agree p p') :
    (bytes source)[c.offset]?.any p' = c.rest.head?.any p := by
  rw [h.getElem?]
  cases c.rest with
  | nil => rfl
  | cons x rest =>
    obtain ⟨lead, tail, hencoded, -, -⟩ := Text.exists_lead x
    rw [Text.bytes_cons, hencoded]
    exact hp x lead (hencoded ▸ List.mem_cons_self)

/-- A byte of the class makes no difference to where the class is left, so it does not matter if a character was cut by it. -/
theorem skipWhile_succ {input : List UInt8} {p : UInt8 → Bool} {i : Nat} (h : input[i]?.any p = true) :
    skipWhile input p (i + 1) = skipWhile input p i := by
  obtain ⟨b, hb, hp⟩ := (Option.any_eq_true _ _).mp h
  obtain ⟨hlt, rfl⟩ := List.getElem?_eq_some_iff.mp hb
  rw [skipWhile, skipWhile, List.drop_eq_getElem_cons hlt, List.takeWhile_cons_of_pos hp, List.length_cons]
  omega

/-- The bytes of a name are passed like the name. -/
theorem name?_eq (h : c.Stands source) : name? (bytes source) c.offset = c.name?.map fun found => found.2.offset := by
  have hfirst := any_eq h agree_nameStart
  rw [name?, hfirst, Cursor.name?]
  cases hrest : c.rest with
  | nil => rfl
  | cons x rest =>
    rw [List.head?_cons, Option.any_some]
    dsimp only
    cases hx : QName.isNameStart x with
    | false => rfl
    | true =>
      have hname : (bytes source)[c.offset]?.any isNameByte = true := by
        rw [any_eq h agree_name, hrest]
        exact QName.isNameChar_of_isNameStart hx
      rw [if_pos rfl, if_pos rfl, skipWhile_succ hname, skipWhile_eq h agree_name, Option.map_some]

/-- The source ends at a place that holds nothing, and at no other. -/
theorem length_le_iff (h : c.Stands source) : (bytes source).length ≤ c.offset ↔ c.rest = [] := by
  rw [h.length_eq, ← Text.utf8Length_eq_zero]
  omega

/-- Blanks were skipped if that led to another offset. -/
theorem skipBlanks_offset_eq_iff (c : Cursor) :
    c.skipBlanks.offset = c.offset ↔ (c.takeWhile Cursor.isBlank).1.chars = [] := by
  rw [← Text.utf8Length_eq_zero]
  exact Nat.add_eq_left

end ByteReader

end LiveMarkup
