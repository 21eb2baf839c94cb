import LiveMarkup.Proofs.ByteReader

/-!
# Bytes are read as the text is

What is read of the bytes of a source from a place on is what is read of its text from there, and it leads to a place again; a
fault is found at a place (`ByteReader.Reads`). This holds of a name, a reference, a value, an attribute, a tag and of whatever
else a less-than sign begins, so it holds of a round of the loop that reads the source, and of all rounds together
(`ByteReader.run_reads`). Hence nothing is cut out of the bytes but pieces of the source, and every round leaves less to read.
-/

namespace LiveMarkup

open Text (bytes byte ofBytes isBoundary indexOf? Agree utf8Length)

variable {source : List Char} {c d : Cursor} {w : Slice}

namespace ByteReader

/-! ## The same is read -/

/-- What is read of the bytes is what is read of the text: related results, or a fault that is found where a character of the
source begins. -/
inductive Reads (source : List Char) {α β : Type} (R : α → β → Prop) : Except FaultAt α → Except Halt β → Prop
  | ok {a : α} {b : β} (h : R a b) : Reads source R (.ok a) (.ok b)
  | fault {e : FaultAt} (h : isBoundary (bytes source) e.offset = true) : Reads source R (.error e) (.error (.fault e))

/-- A name with at most one colon is read as it is from the characters. -/
theorem qualifiedName_reads (h : c.Stands source) (kind : NameKind) :
    Reads source (fun a b => b = (a.1, a.2.1, a.2.2.offset) ∧ a.2.2.Stands source ∧ a.1.Lies source)
      (c.qualifiedName kind) (qualifiedName (bytes source) kind c.offset) := by
  rw [qualifiedName, Cursor.qualifiedName, name?_eq h]
  cases hname : c.name? with
  | none => exact .fault h.isBoundary
  | some found =>
    obtain ⟨w, d⟩ := found
    obtain ⟨hd, hw, hstart, hstop⟩ := h.name? hname
    have hslice : slice (bytes source) c.offset d.offset = .ok w := by
      rw [← hstart, hstop]
      exact slice_eq hw
    simp only [Option.map_some, hslice, bind, Except.bind]
    cases QName.ofWritten? w.chars with
    | none =>
      dsimp only
      rw [hstart]
      exact .fault h.isBoundary
    | some q => exact .ok ⟨rfl, hd, hw⟩

/-! ## References -/

section References

variable {s more : List Char} {base : Nat}

/-- A place in a piece of the source is one in the source. -/
theorem isBoundary_inside (hs : Slice.Lies source ⟨base, s⟩) (h : c.Stands s) :
    isBoundary (bytes source) (base + c.offset) = true := by
  obtain ⟨before, after, hsource, hbefore⟩ := hs
  obtain ⟨inner, hinner, hlength⟩ := h
  refine Text.isBoundary_iff.mpr ⟨before ++ inner, c.rest ++ after, ?_, ?_⟩
  · simp only [hsource, hinner, List.append_assoc]
  · rw [Text.utf8Length_append, hbefore, hlength]

/-- The place after a character. -/
theorem stands_next {x : Char} (h : c.Stands s) (hrest : c.rest = x :: more) : Cursor.Stands s ⟨c.offset + x.utf8Size, more⟩ :=
  h.move [x] hrest rfl

/-- Whether an ampersand begins a reference is told by the byte after it. -/
theorem begins_eq (h : c.Stands s) (hrest : c.rest = '&' :: more) :
    (bytes s)[c.offset + 1]?.any (fun b => b == byte '#' || isLetterByte b) = Reference.begins more := by
  have hnext : Cursor.Stands s ⟨c.offset + 1, more⟩ := stands_next h hrest
  rw [any_eq hnext ((Text.agree_char (by decide)).or agree_letter)]
  cases more <;> rfl

/-- The semicolon that ends a reference is looked for from the ampersand on. -/
theorem find_semicolon (h : c.Stands s) (hrest : c.rest = '&' :: more) :
    find (bytes s) c.offset [';'] = .ok ((Text.splitAt? [';'] more).map fun found => c.offset + 1 + utf8Length found.1) := by
  have hamp : Text.splitAt? [';'] ('&' :: more) = (Text.splitAt? [';'] more).map fun found => ('&' :: found.1, found.2) := by
    have hother : Text.after? [';'] ('&' :: more) = none := rfl
    rw [Text.splitAt?, hother]
    cases Text.splitAt? [';'] more <;> rfl
  rw [find_eq h (by decide), Cursor.upTo?, hrest, hamp, Option.map_map, Option.map_map]
  refine congrArg Except.ok (congrArg (fun f => Option.map f _) (funext fun found => ?_))
  exact (Nat.add_assoc _ _ _).symm

/-- What an ampersand at an offset stands for with what follows it, and the place after that. -/
def meaningAt (base offset : Nat) (more : List Char) : Except FaultAt (Char × Cursor) :=
  if Reference.begins more then
    match Text.splitAt? [';'] more with
    | none => .error ⟨base + offset, .unterminatedReference⟩
    | some (name, after) =>
      match Reference.meaning? name with
      | none => .error ⟨base + offset, .invalidReference (String.ofList name)⟩
      | some meant => .ok (meant, ⟨offset + utf8Length ('&' :: name ++ [';']), after⟩)
  else .ok ('&', ⟨offset + 1, more⟩)

/-- An ampersand is read with what it stands for, and then the rest. -/
theorem decode_ampersand (base offset : Nat) (more : List Char) :
    Reference.decode (base + offset) ('&' :: more) =
      match meaningAt base offset more with
      | .error e => .error e
      | .ok (meant, next) => (Reference.decode (base + next.offset) next.rest).map (List.cons meant) := by
  rw [meaningAt]
  cases hbegins : Reference.begins more with
  | false =>
    rw [Reference.decode_plain (fun _ => hbegins), if_neg Bool.false_ne_true]
    rfl
  | true =>
    rw [Reference.decode, if_pos ⟨rfl, hbegins⟩, if_pos rfl]
    split
    · rename_i hnone
      rw [hnone]
    · rename_i name after hsome
      rw [hsome]
      dsimp only
      cases Reference.meaning? name with
      | none => rfl
      | some meant =>
        dsimp only
        rw [Nat.add_assoc]
        generalize Reference.decode (base + (offset + utf8Length ('&' :: name ++ [';']))) after = decoded
        cases decoded <;> rfl

/-- The bytes of a reference are read as its text is. -/
theorem reference_reads (hs : Slice.Lies source ⟨base, s⟩) (h : c.Stands s) (hrest : c.rest = '&' :: more) :
    Reads source (fun a b => b = (a.1, a.2.offset) ∧ a.2.Stands s ∧ a.2.rest.length < c.rest.length)
      (meaningAt base c.offset more) (reference (bytes s) base c.offset) := by
  have hlonger : more.length < c.rest.length := by
    rw [hrest]
    exact Nat.lt_succ_self _
  rw [meaningAt, reference, begins_eq h hrest]
  cases hbegins : Reference.begins more with
  | false => exact .ok ⟨rfl, stands_next h hrest, hlonger⟩
  | true =>
    rw [if_pos rfl, if_pos rfl, find_semicolon h hrest]
    cases hsplit : Text.splitAt? [';'] more with
    | none => exact .fault (isBoundary_inside hs h)
    | some found =>
      obtain ⟨name, after⟩ := found
      have hmore := Text.splitAt?_eq_some hsplit
      have hname : Slice.Lies s ⟨c.offset + 1, name⟩ := (stands_next h hrest).lies (by rw [hmore, List.append_assoc])
      have hcut : cut (bytes s) (c.offset + 1) (c.offset + 1 + utf8Length name) = .ok (bytes name) := cut_eq hname
      have hend : c.offset + 1 + utf8Length name + 1 = c.offset + utf8Length ('&' :: name ++ [';']) := by
        rw [Text.utf8Length_append, utf8Length]
        change _ = c.offset + (1 + utf8Length name + 1)
        omega
      simp only [Option.map_some, hcut, bind, Except.bind, Text.ofBytes_bytes, hend]
      cases Reference.meaning? name with
      | none => exact .fault (isBoundary_inside hs h)
      | some meant =>
        refine .ok ⟨rfl, h.move ('&' :: name ++ [';']) ?_ rfl, ?_⟩
        · rw [hrest, hmore]
          rfl
        · exact Nat.lt_of_le_of_lt (by rw [hmore]; exact (List.suffix_append _ _).length_le) hlonger

/-- The references in a piece of the source are replaced as they are in its text. The induction is on what is left of the
piece: what stands before the next ampersand is plain, and what comes of the ampersand is one character. -/
theorem decodeFrom_reads (hs : Slice.Lies source ⟨base, s⟩) (h : c.Stands s) :
    Reads source (fun a b => b = a) (Reference.decode (base + c.offset) c.rest) (decodeFrom (bytes s) base c.offset) := by
  induction hlength : c.rest.length using Nat.strong_induction_on generalizing c with
  | _ length ih =>
    subst hlength
    rw [decodeFrom, find_eq h (by decide)]
    cases hfound : c.upTo? ['&'] with
    | none =>
      have hplain := Cursor.rest_upTo?_eq_none hfound
      have hcut : cut (bytes s) c.offset (bytes s).length = .ok (bytes c.rest) := by
        rw [h.length_eq]
        exact cut_eq (h.lies (List.append_nil c.rest).symm)
      simp only [Option.map_none, hcut, bind, Except.bind, (Reference.Spells.plains hplain).decode_eq, Text.ofBytes_bytes]
      exact .ok rfl
    | some found =>
      obtain ⟨w, d⟩ := found
      obtain ⟨hd, hw, hstart, hoffset⟩ := h.upTo? hfound
      obtain ⟨hrest, hplain⟩ := Cursor.rest_upTo? hfound
      have hamp : Cursor.Stands s ⟨w.stop, '&' :: d.rest⟩ := h.move _ hrest (by rw [Slice.stop, hstart])
      have hcut : cut (bytes s) c.offset w.stop = .ok (bytes w.chars) := hstart ▸ cut_eq hw
      have hdecode : Reference.decode (base + c.offset) c.rest =
          (Reference.decode (base + w.stop) ('&' :: d.rest)).map fun decoded => w.chars ++ decoded := by
        rw [hrest, Reference.Spells.plains hplain, Nat.add_assoc, ← hstart, Slice.stop]
      have hreference := reference_reads hs hamp rfl
      rw [hdecode, decode_ampersand]
      simp only [Option.map_some, hcut, bind, Except.bind, Text.ofBytes_bytes]
      generalize meaningAt base w.stop d.rest = r, reference (bytes s) base w.stop = r' at hreference
      cases hreference with
      | fault hboundary => exact .fault hboundary
      | @ok a b hread =>
        obtain ⟨meant, next⟩ := a
        obtain ⟨rfl, hnext, hshorter⟩ := hread
        have hless : next.rest.length < c.rest.length := by
          refine Nat.lt_of_lt_of_le hshorter ?_
          rw [hrest]
          exact (List.suffix_append _ _).length_le
        have hreads := ih next.rest.length hless hnext rfl
        dsimp only
        rw [dif_pos (h.lt hnext hless)]
        generalize Reference.decode (base + next.offset) next.rest = r, decodeFrom (bytes s) base next.offset = r' at hreads
        cases hreads with
        | ok heq => exact heq ▸ .ok rfl
        | fault hboundary => exact .fault hboundary

/-- The references in a piece are replaced as they are in its characters. -/
theorem decode_reads (hw : w.Lies source) :
    Reads source (fun a b => b = a) (Reference.decode w.start w.chars) (decode (bytes w.chars) w.start) := by
  rw [decode, Text.indexOf?_bytes (by decide)]
  cases hsplit : Text.splitAt? ['&'] w.chars with
  | none =>
    have hplain : ∀ x ∈ w.chars, x ≠ '&' := by
      rintro x hx rfl
      exact Text.splitAt?_singleton_eq_none_iff.mp hsplit hx
    rw [(Reference.Spells.plains hplain).decode_eq]
    exact .ok (Text.ofBytes_bytes w.chars)
  | some found => exact decodeFrom_reads hw (.start w.chars)

end References

/-! ## Tags -/

/-- A value ends at the quotation mark that it begins with. -/
theorem quotedValue_reads {x : Char} {inside : Cursor} (h : c.Stands source) (hx : x.toNat < 0x80) (hsize : x.utf8Size = 1)
    (hpast : c.past? [x] = some inside) :
    Reads source (fun a b => b = (a.1.start, a.1.stop, a.2.offset) ∧ a.2.Stands source ∧ a.1.Lies source)
      (Cursor.quotedValue c.offset x inside) (value.quoted (bytes source) c.offset x) := by
  obtain ⟨hinside, hoffset⟩ := h.past? hpast
  have hoffset' : c.offset + 1 = inside.offset := by
    rw [hoffset, utf8Length, hsize]
    rfl
  rw [Cursor.quotedValue, value.quoted, hoffset', find_eq hinside hx]
  cases hfound : inside.upTo? [x] with
  | none => exact .fault h.isBoundary
  | some found =>
    obtain ⟨w, d⟩ := found
    obtain ⟨hd, hw, hstart, hend⟩ := hinside.upTo? hfound
    have hend' : d.offset = w.stop + 1 := by
      rw [hend, utf8Length, hsize]
      rfl
    simp only [Option.map_some, bind, Except.bind, ← hstart, ← hend']
    exact .ok ⟨rfl, hd, hw⟩

/-- A value is read as it is from the characters. -/
theorem value_reads (h : c.Stands source) :
    Reads source (fun a b => b = (a.1.start, a.1.stop, a.2.offset) ∧ a.2.Stands source ∧ a.1.Lies source) c.value
      (value (bytes source) c.offset) := by
  rw [Cursor.value, value, peeks_eq h (by decide), peeks_eq h (by decide)]
  cases hdouble : c.past? ['\x22'] with
  | some inside => exact quotedValue_reads h (by decide) rfl hdouble
  | none =>
    cases hsingle : c.past? ['\x27'] with
    | some inside => exact quotedValue_reads h (by decide) rfl hsingle
    | none =>
      obtain ⟨hd, hw⟩ := h.takeWhile Cursor.isBare
      have hslice : slice (bytes source) c.offset (c.takeWhile Cursor.isBare).2.offset = .ok (c.takeWhile Cursor.isBare).1 :=
        slice_eq hw
      simp only [Option.isSome_none, Bool.false_eq_true, if_false, Cursor.bareValue, skipWhile_eq h agree_bare, hslice, bind,
        Except.bind]
      split
      · exact .fault h.isBoundary
      · exact .ok ⟨rfl, hd, hw⟩

/-- An attribute is read as it is from the characters. -/
theorem attributeAt_reads (h : c.Stands source) :
    Reads source (fun a b => b = (a.1.meaning, a.2.offset) ∧ a.2.Stands source) c.attributeToken
      (attributeAt (bytes source) c.offset) := by
  have hname := qualifiedName_reads h .attributeName
  rw [Cursor.attributeToken, attributeAt]
  generalize c.qualifiedName .attributeName = r, qualifiedName (bytes source) .attributeName c.offset = r' at hname
  cases hname with
  | fault hboundary => exact .fault hboundary
  | @ok a b hread =>
    obtain ⟨w, q, after⟩ := a
    obtain ⟨rfl, hafter, -⟩ := hread
    simp only [bind, Except.bind, skipBlanks_eq hafter, peeks_eq hafter.skipBlanks (show '='.toNat < 0x80 by decide)]
    cases hequals : after.skipBlanks.past? ['='] with
    | none => exact .ok ⟨rfl, hafter⟩
    | some equals =>
      obtain ⟨hequals, hoffset⟩ := hafter.skipBlanks.past? hequals
      have hoffset' : after.skipBlanks.offset + 1 = equals.offset := hoffset.symm
      have hvalue := value_reads hequals.skipBlanks
      simp only [Option.isSome_some, if_true, hoffset', skipBlanks_eq hequals]
      generalize equals.skipBlanks.value = r, value (bytes source) equals.skipBlanks.offset = r' at hvalue
      cases hvalue with
      | fault hboundary => exact .fault hboundary
      | @ok a b hread =>
        obtain ⟨raw, d⟩ := a
        obtain ⟨rfl, hd, hraw⟩ := hread
        have hdecode := decode_reads hraw
        simp only [cut_eq hraw]
        generalize Reference.decode raw.start raw.chars = r, decode (bytes raw.chars) raw.start = r' at hdecode
        cases hdecode with
        | fault hboundary => exact .fault hboundary
        | ok heq => exact heq ▸ .ok ⟨rfl, hd⟩

/-- The rest of a tag is read as it is from the characters. -/
theorem tagRest_reads {opened : Nat} (hopened : isBoundary (bytes source) opened = true) (h : c.Stands source) :
    Reads source (fun a b => b = (a.1.map AttributeToken.meaning, a.2.1, a.2.2.offset) ∧ a.2.2.Stands source)
      (Cursor.tagRest opened c) (tagRest (bytes source) opened c.offset) := by
  induction hlength : c.rest.length using Nat.strong_induction_on generalizing c with
  | _ length ih =>
    subst hlength
    have hhere := h.skipBlanks
    rw [Cursor.tagRest, tagRest, skipBlanks_eq h]
    dsimp only
    by_cases hempty : c.skipBlanks.rest = []
    · have hpast : ∀ x, c.skipBlanks.past? [x] = none := by
        intro x
        rw [Cursor.past?_eq_none_iff, hempty]
        exact fun hprefix => absurd (List.prefix_nil.mp hprefix) (List.cons_ne_nil _ _)
      rw [hpast, hpast, if_pos ((length_le_iff hhere).mpr hempty), if_pos (List.isEmpty_iff.mpr hempty)]
      exact .fault hopened
    rw [if_neg (mt (length_le_iff hhere).mp hempty), if_neg (mt List.isEmpty_iff.mp hempty), peeks_eq hhere (by decide),
      peeks_eq hhere (by decide)]
    cases hend : c.skipBlanks.past? ['>'] with
    | some after =>
      obtain ⟨hafter, hoffset⟩ := hhere.past? hend
      exact .ok ⟨congrArg (fun i => ([], false, i)) hoffset.symm, hafter⟩
    | none =>
      cases hslash : c.skipBlanks.past? ['/'] with
      | some slash =>
        obtain ⟨hslash, hoffset⟩ := hhere.past? hslash
        have hoffset' : c.skipBlanks.offset + 1 = slash.offset := hoffset.symm
        simp only [Option.isSome_none, Option.isSome_some, Bool.false_eq_true, if_false, if_true, hoffset',
          peeks_eq hslash (show '>'.toNat < 0x80 by decide)]
        cases hend' : slash.past? ['>'] with
        | some after =>
          obtain ⟨hafter, hoffset⟩ := hslash.past? hend'
          exact .ok ⟨congrArg (fun i => ([], true, i)) hoffset.symm, hafter⟩
        | none => exact .fault hslash.isBoundary
      | none =>
        simp only [Option.isSome_none, Bool.false_eq_true, if_false]
        by_cases hspaced : (c.takeWhile Cursor.isBlank).1.chars = []
        · rw [if_pos (List.isEmpty_iff.mpr hspaced), if_pos ((skipBlanks_offset_eq_iff c).mpr hspaced)]
          exact .fault hhere.isBoundary
        rw [if_neg (mt List.isEmpty_iff.mp hspaced), if_neg (mt (skipBlanks_offset_eq_iff c).mp hspaced)]
        have hattribute := attributeAt_reads hhere
        generalize attributeAt (bytes source) c.skipBlanks.offset = r' at hattribute
        split
        · rename_i e hread
          rw [hread] at hattribute
          cases hattribute with
          | fault hboundary => exact .fault hboundary
        · rename_i a after hread
          have hless := Nat.lt_of_lt_of_le (Cursor.length_attributeToken hread) c.length_skipBlanks
          rw [hread] at hattribute
          cases hattribute with
          | ok hmeant =>
            obtain ⟨rfl, hafter⟩ := hmeant
            have hmore := ih after.rest.length hless hafter rfl
            simp only [bind, Except.bind]
            rw [dif_pos (h.lt hafter hless)]
            generalize Cursor.tagRest opened after = r, tagRest (bytes source) opened after.offset = r' at hmore
            cases hmore with
            | fault hboundary => exact .fault hboundary
            | ok hrest =>
              obtain ⟨rfl, hstop⟩ := hrest
              exact .ok ⟨rfl, hstop⟩

end ByteReader

/-! ## Tokens -/

namespace Nesting

/-- What has been put together, with the token that was read taken in. -/
def taking (spacing : Spacing) (n : Nesting) (read : Except FaultAt (Token × Cursor)) : Except FaultAt (Nesting × Cursor) :=
  match read with
  | .error e => .error e
  | .ok (t, after) =>
    match n.step spacing t with
    | .error e => .error e
    | .ok n => .ok (n, after)

/-- The tags of the elements that are not ended stand in the source. -/
def Lies (source : List Char) (n : Nesting) : Prop :=
  ∀ e ∈ n.opened, e.written.Lies source ∧ isBoundary (bytes source) e.offset = true

variable {spacing : Spacing} {n n' : Nesting}

/-- What is taken in was read. -/
theorem taking_eq_ok {read : Except FaultAt (Token × Cursor)} (h : n.taking spacing read = .ok (n', d)) :
    ∃ t, read = .ok (t, d) := by
  unfold taking at h
  split at h
  · cases h
  · rename_i t after
    split at h
    · cases h
    · cases h
      exact ⟨t, rfl⟩

end Nesting

/-- A place that is not the end is read on by taking the next token in. -/
theorem Cursor.readOn_taking {spacing : Spacing} {n : Nesting} (hrest : c.rest ≠ []) :
    c.readOn spacing n =
      match n.taking spacing c.token with
      | .error e => .error e
      | .ok (n', after) => after.readOn spacing n' := by
  cases htoken : c.token with
  | error e => exact readOn_fault hrest htoken
  | ok read =>
    obtain ⟨t, after⟩ := read
    rw [readOn_step hrest htoken, Nesting.taking]
    cases n.step spacing t <;> rfl

namespace ByteReader

section Tokens

variable {spacing : Spacing} {n : Nesting} {inside : Cursor}

/-- What has been put together is the same, and the place after it as well. -/
def Taken (source : List Char) (a : Nesting × Cursor) (b : Nesting × Nat) : Prop :=
  b = (a.1, a.2.offset) ∧ a.2.Stands source ∧ a.1.Lies source

/-- A tag that begins an element is taken in as it is from the characters. -/
theorem startTag_reads (h : c.Stands source) (hn : n.Lies source) (hinside : c.past? "<".toList = some inside) :
    Reads source (Taken source) (n.taking spacing (Cursor.startTag c.offset inside))
      (startTag (bytes source) spacing n c.offset) := by
  obtain ⟨hinside, hoffset⟩ := h.past? hinside
  have hoffset' : c.offset + 1 = inside.offset := hoffset.symm
  have hname := qualifiedName_reads hinside .elementName
  rw [Cursor.startTag, startTag, hoffset']
  generalize inside.qualifiedName .elementName = r, qualifiedName (bytes source) .elementName inside.offset = r' at hname
  cases hname with
  | fault hboundary => exact .fault hboundary
  | @ok a b hread =>
    obtain ⟨w, q, after⟩ := a
    obtain ⟨rfl, hafter, hw⟩ := hread
    have htag := tagRest_reads h.isBoundary hafter
    simp only [bind, Except.bind]
    generalize Cursor.tagRest c.offset after = r, tagRest (bytes source) c.offset after.offset = r' at htag
    cases htag with
    | fault hboundary => exact .fault hboundary
    | @ok a b hread =>
      obtain ⟨attributes, closed, stop⟩ := a
      obtain ⟨rfl, hstop⟩ := hread
      refine .ok ⟨rfl, hstop, ?_⟩
      cases closed with
      | true => exact hn
      | false => exact List.forall_mem_cons.mpr ⟨⟨hw, h.isBoundary⟩, hn⟩

/-- A tag that ends an element is taken in as it is from the characters. -/
theorem endTag_reads (h : c.Stands source) (hn : n.Lies source) (hinside : c.past? "</".toList = some inside) :
    Reads source (Taken source) (n.taking spacing (Cursor.endTag c.offset inside))
      (endTag (bytes source) spacing n c.offset) := by
  obtain ⟨hinside, hoffset⟩ := h.past? hinside
  have hoffset' : c.offset + 2 = inside.offset := hoffset.symm
  rw [Cursor.endTag, endTag, hoffset', name?_eq hinside]
  cases hname : inside.name? with
  | none => exact .fault hinside.isBoundary
  | some found =>
    obtain ⟨w, after⟩ := found
    obtain ⟨hafter, hw, hstart, hstop⟩ := hinside.name? hname
    have hslice : slice (bytes source) inside.offset after.offset = .ok w := by
      rw [← hstart, hstop]
      exact slice_eq hw
    simp only [Option.map_some, skipBlanks_eq hafter, peeks_eq hafter.skipBlanks (show '>'.toNat < 0x80 by decide)]
    cases hend : after.skipBlanks.past? ['>'] with
    | none => exact .fault hafter.skipBlanks.isBoundary
    | some last =>
      obtain ⟨hlast, hoffset⟩ := hafter.skipBlanks.past? hend
      have hlastOffset : after.skipBlanks.offset + 1 = last.offset := hoffset.symm
      simp only [Option.isSome_some, if_true, hslice, bind, Except.bind, Nesting.taking, Nesting.step, Nesting.finish]
      have hopened : (n.flush spacing).opened = n.opened := rfl
      rw [hopened]
      cases hn' : n.opened with
      | nil => exact .fault h.isBoundary
      | cons e outer =>
        rw [Nesting.Lies, hn'] at hn
        obtain ⟨⟨hwritten, -⟩, houter⟩ := List.forall_mem_cons.mp hn
        simp only [slice_eq hwritten]
        by_cases heq : e.written.chars = w.chars
        · rw [if_pos heq, if_pos heq, hlastOffset]
          exact .ok ⟨rfl, hlast, houter⟩
        · rw [if_neg heq, if_neg heq]
          exact .fault h.isBoundary

/-- What says nothing is passed over as it is in the characters. -/
theorem aside_reads (h : c.Stands source) (hn : n.Lies source) {x : Char} (hx : x.toNat < 0x80) (more : List Char)
    (fault : MarkupFault) : Reads source (Taken source) (n.taking spacing (c.aside (x :: more) fault))
      (do return (n, ← skipPast (bytes source) c.offset (x :: more) fault)) := by
  rw [Cursor.aside, skipPast, find_eq h hx]
  cases hfound : c.upTo? (x :: more) with
  | none => exact .fault h.isBoundary
  | some found =>
    obtain ⟨w, after⟩ := found
    obtain ⟨hafter, -, -, hoffset⟩ := h.upTo? hfound
    exact .ok ⟨congrArg (Prod.mk n) hoffset.symm, hafter, hn⟩

/-- A section is taken in as it is from the characters. -/
theorem verbatim_reads (h : c.Stands source) (hn : n.Lies source) (hinside : c.past? "<![CDATA[".toList = some inside) :
    Reads source (Taken source) (n.taking spacing (Cursor.verbatim c.offset inside)) (verbatim (bytes source) n c.offset) := by
  obtain ⟨hinside, hoffset⟩ := h.past? hinside
  have hfind : find (bytes source) inside.offset "]]>".toList =
      .ok ((inside.upTo? "]]>".toList).map fun found => found.1.stop) := find_eq hinside (x := ']') (by decide) [']', '>']
  rw [Cursor.verbatim, verbatim, ← hoffset, hfind]
  cases hfound : inside.upTo? "]]>".toList with
  | none => exact .fault h.isBoundary
  | some found =>
    obtain ⟨w, after⟩ := found
    obtain ⟨hafter, hw, hstart, hend⟩ := hinside.upTo? hfound
    have hcut : cut (bytes source) inside.offset w.stop = .ok (bytes w.chars) := hstart ▸ cut_eq hw
    have hend' : w.stop + 3 = after.offset := hend.symm
    simp only [Option.map_some, hcut, bind, Except.bind, Text.ofBytes_bytes, hend']
    exact .ok ⟨rfl, hafter, hn⟩

/-- What a less-than sign begins is taken in as it is from the characters. -/
theorem markup_reads (h : c.Stands source) (hn : n.Lies source) (hlt : (c.past? "<".toList).isSome = true) :
    Reads source (Taken source) (n.taking spacing c.token) (markup (bytes source) spacing n c.offset) := by
  rw [Cursor.token, markup]
  simp only [startsWith_eq h, bind, Except.bind]
  cases hcomment : (c.past? "<!--".toList).isSome with
  | true => exact aside_reads h hn (x := '-') (by decide) ['-', '>'] .unterminatedComment
  | false =>
    cases hsection : c.past? "<![CDATA[".toList with
    | some body => exact verbatim_reads h hn hsection
    | none =>
      cases hdeclaration : (c.past? "<!".toList).isSome with
      | true => exact aside_reads h hn (x := '>') (by decide) [] .unterminatedDeclaration
      | false =>
        cases hinstruction : (c.past? "<?".toList).isSome with
        | true => exact aside_reads h hn (x := '?') (by decide) ['>'] .unterminatedInstruction
        | false =>
          cases hend : c.past? "</".toList with
          | some name => exact endTag_reads h hn hend
          | none =>
            cases hstart : c.past? "<".toList with
            | some name => exact startTag_reads h hn hstart
            | none =>
              rw [hstart] at hlt
              cases hlt

/-- The end of the source is taken as it is after the characters. -/
theorem close_reads (hn : n.Lies source) :
    Reads source (fun a b => b = a) (n.forest spacing) (close (bytes source) spacing n) := by
  have hopened : (n.flush spacing).opened = n.opened := rfl
  unfold Nesting.forest close
  rw [hopened]
  cases hn' : n.opened with
  | nil => exact .ok rfl
  | cons e outer =>
    rw [Nesting.Lies, hn'] at hn
    obtain ⟨⟨hwritten, hboundary⟩, -⟩ := List.forall_mem_cons.mp hn
    simp only [slice_eq hwritten, bind, Except.bind]
    exact .fault hboundary

end Tokens

/-! ## The whole source -/

section Source

variable {spacing : Spacing} {n : Nesting} {run rest : List Char}

/-- A run of text is read before what follows it. -/
theorem readOn_run (hrest : c.rest = run ++ rest) (hrun : ∀ x ∈ run, x ≠ '<') (hstop : Grammar.Stops (· ≠ '<') rest) :
    c.readOn spacing n =
      match Reference.decode c.offset run with
      | .error e => .error e
      | .ok decoded => Cursor.readOn spacing ⟨c.offset + utf8Length run, rest⟩ (n.heard decoded) := by
  cases run with
  | nil =>
    obtain ⟨offset, _⟩ := c
    obtain rfl : _ = rest := hrest
    rw [Reference.decode]
    dsimp only
    rw [Nesting.heard_nil]
    rfl
  | cons x run =>
    have hne : c.rest ≠ [] := by
      rw [hrest]
      exact List.cons_ne_nil _ _
    have htext : c.token = c.text := Cursor.token_text hrest (hrun x List.mem_cons_self)
    have htake := Cursor.takeWhile_eq hrest (p := (· ≠ '<')) (fun y hy => decide_eq_true (hrun y hy)) hstop
    cases hdecode : Reference.decode c.offset (x :: run) with
    | error e =>
      have htoken : c.token = .error e := by
        rw [htext, Cursor.text, htake]
        simp only [hdecode]
      exact Cursor.readOn_fault hne htoken
    | ok decoded =>
      have htoken : c.token = .ok (.text ⟨c.offset, x :: run⟩ decoded, ⟨c.offset + utf8Length (x :: run), rest⟩) := by
        rw [htext, Cursor.text, htake]
        simp only [hdecode]
      exact Cursor.readOn_token hne htoken rfl

/-- A text is taken in as it is from the characters. -/
theorem pushText_reads (h : c.Stands source) (hrest : c.rest = run ++ rest) :
    Reads source (fun decoded b => b = n.heard decoded) (Reference.decode c.offset run)
      (pushText (bytes source) n c.offset (c.offset + utf8Length run)) := by
  rw [pushText]
  by_cases hempty : run = []
  · subst hempty
    rw [if_pos (show c.offset = c.offset + utf8Length [] from rfl), Reference.decode]
    exact .ok n.heard_nil.symm
  · have hw := h.lies hrest
    have hcut : cut (bytes source) c.offset (c.offset + utf8Length run) = .ok (bytes run) := cut_eq hw
    have hne : c.offset ≠ c.offset + utf8Length run := by
      have hlength := mt Text.utf8Length_eq_zero.mp hempty
      omega
    have hdecode := decode_reads hw
    rw [if_neg hne, hcut]
    simp only [bind, Except.bind]
    generalize Reference.decode c.offset run = r, decode (bytes run) c.offset = r' at hdecode
    cases hdecode with
    | fault hboundary => exact .fault hboundary
    | ok heq => exact heq ▸ .ok rfl

/-- Reading on by bytes comes to what reading on comes to. The induction is on what is left of the source, which each round
makes shorter: a run of text, which may be empty, and what the less-than sign after it begins. -/
theorem run_reads (h : c.Stands source) (hn : n.Lies source) :
    Reads source (fun a b => b = a) (c.readOn spacing n) (ByteReader.run (bytes source) spacing n c.offset) := by
  induction hlength : c.rest.length using Nat.strong_induction_on generalizing c n with
  | _ length ih =>
    subst hlength
    rw [ByteReader.run]
    by_cases hempty : c.rest = []
    · rw [Cursor.readOn_end hempty, if_pos ((length_le_iff h).mpr hempty)]
      exact close_reads hn
    rw [if_neg (mt (length_le_iff h).mp hempty), find_eq h (by decide)]
    cases hfound : c.upTo? ['<'] with
    | none =>
      have hrest : c.rest = c.rest ++ [] := (List.append_nil _).symm
      have htext := pushText_reads (n := n) h hrest
      rw [readOn_run hrest (Cursor.rest_upTo?_eq_none hfound) (fun _ hx => nomatch hx), h.length_eq]
      simp only [Option.map_none, bind, Except.bind]
      generalize Reference.decode c.offset c.rest = r, pushText (bytes source) n c.offset (c.offset + utf8Length c.rest) = r'
        at htext
      cases htext with
      | fault hboundary => exact .fault hboundary
      | ok heq =>
        subst heq
        dsimp only
        rw [Cursor.readOn_end rfl]
        exact close_reads hn
    | some found =>
      obtain ⟨w, d⟩ := found
      obtain ⟨hrest, hplain⟩ := Cursor.rest_upTo? hfound
      obtain ⟨-, -, hstart, -⟩ := h.upTo? hfound
      have hstop : w.stop = c.offset + utf8Length w.chars := by rw [Slice.stop, hstart]
      have hlt : Cursor.Stands source ⟨c.offset + utf8Length w.chars, '<' :: d.rest⟩ := h.move _ hrest rfl
      have htext := pushText_reads (n := n) h hrest
      rw [readOn_run hrest hplain (fun x hx => by cases hx; rfl)]
      simp only [Option.map_some, bind, Except.bind, hstop]
      generalize Reference.decode c.offset w.chars = r, pushText (bytes source) n c.offset (c.offset + utf8Length w.chars) = r'
        at htext
      cases htext with
      | fault hboundary => exact .fault hboundary
      | @ok decoded _ heq =>
        subst heq
        have hmarkup : Reads source (Taken source) ((n.heard decoded).taking spacing (Cursor.token ⟨_, '<' :: d.rest⟩))
            (markup (bytes source) spacing (n.heard decoded) (c.offset + utf8Length w.chars)) := markup_reads hlt hn rfl
        dsimp only at hmarkup ⊢
        rw [Cursor.readOn_taking (List.cons_ne_nil _ _)]
        generalize markup (bytes source) spacing (n.heard decoded) (c.offset + utf8Length w.chars) = r' at hmarkup
        cases htaking : (n.heard decoded).taking spacing (Cursor.token ⟨c.offset + utf8Length w.chars, '<' :: d.rest⟩) with
        | error e =>
          rw [htaking] at hmarkup
          cases hmarkup with
          | fault hboundary => exact .fault hboundary
        | ok read =>
          obtain ⟨next, after⟩ := read
          obtain ⟨t, htoken⟩ := Nesting.taking_eq_ok htaking
          have hless : after.rest.length < c.rest.length := by
            refine Nat.lt_of_lt_of_le (Cursor.length_token htoken (List.cons_ne_nil _ _)) ?_
            rw [hrest]
            exact (List.suffix_append _ _).length_le
          rw [htaking] at hmarkup
          cases hmarkup with
          | ok hread =>
            obtain ⟨rfl, hafter, hnext⟩ := hread
            dsimp only
            rw [dif_pos (h.lt hafter hless)]
            exact ih after.rest.length hless hafter hnext rfl

end Source

end ByteReader

/-- A whole source is read by its bytes as its text is. -/
theorem ByteReader.parse_reads (source : String) (spacing : Spacing) :
    Reads source.toList (fun a b => b = a) ((Scan.ofSource source.toList).forest spacing) (parse source spacing) := by
  have hbytes : source.toUTF8.data.toList = bytes source.toList := Text.toList_toUTF8 source
  rw [Cursor.forest_ofSource, parse, hbytes]
  exact run_reads (.start source.toList) (List.forall_mem_nil _)

/-- A source is read by its bytes. Reading never breaks off because a piece is to be cut out that does not begin and end where
characters do, and no loop comes round with no less to read: either the forest is found that the text stands for, or the fault
that is told, and its place is where a character of the source begins, or the source ends. -/
theorem Forest.bytes_are_cut_between_characters (source : String) (spacing : Spacing) :
    (∀ start stop, ByteReader.parse source spacing ≠ .error (.torn start stop)) ∧
    (∀ offset, ByteReader.parse source spacing ≠ .error (.stuck offset)) ∧
    (∀ f, ByteReader.parse source spacing = .ok f ↔ Forest.parse source spacing = .ok f) ∧
    ∀ e, Forest.parse source spacing = .error e →
      (∃ found, ByteReader.parse source spacing = .error (.fault found) ∧ found.locate source.toList = e) ∧
      ∃ before after : String, source = before ++ after ∧ before.utf8ByteSize = e.position.offset := by
  have hreads := ByteReader.parse_reads source spacing
  rw [Forest.parse]
  generalize (Scan.ofSource source.toList).forest spacing = r, ByteReader.parse source spacing = r' at hreads
  cases hreads with
  | ok heq =>
    subst heq
    refine ⟨?_, ?_, ?_, ?_⟩
    · rintro _ _ ⟨⟩
    · rintro _ ⟨⟩
    · intro f
      constructor <;> rintro ⟨⟩ <;> rfl
    · rintro _ ⟨⟩
  | @fault found hboundary =>
    refine ⟨?_, ?_, ?_, ?_⟩
    · rintro _ _ ⟨⟩
    · rintro _ ⟨⟩
    · intro f
      constructor <;> rintro ⟨⟩
    · rintro _ ⟨⟩
      obtain ⟨before, after, hsource, hlength⟩ := Text.isBoundary_iff.mp hboundary
      refine ⟨⟨found, rfl, rfl⟩, String.ofList before, String.ofList after, ?_, ?_⟩
      · rw [← String.ofList_append, ← hsource, String.ofList_toList]
      · have hle : found.offset ≤ utf8Length source.toList := by
          rw [hsource, Text.utf8Length_append]
          omega
        rw [Text.utf8ByteSize_ofList, hlength]
        exact (Nat.min_eq_left hle).symm

end LiveMarkup
