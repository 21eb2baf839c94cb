import LiveMarkup.Proofs.Positions
import LiveMarkup.Text.Find

/-!
# Texts and their bytes

Where a text is searched by its bytes, nothing is found but what stands in the text. A character begins where a byte stands
that continues no other (`isBoundary_iff`). A class of bytes to which either all bytes of a character belong or none reaches as far
as the class of characters (`Agree.takeWhile`). And what begins with a character of one byte is found at characters only, since
no other byte of a character is less than 128 (`indexOf?_bytes`).
-/

namespace LiveMarkup.Text

/-- The bytes that encode a text. -/
def bytes (s : List Char) : List UInt8 :=
  s.flatMap String.utf8EncodeChar

/-- The byte of a character that is encoded by one. -/
def byte (c : Char) : UInt8 :=
  .ofNat c.toNat

/-- The text that bytes encode. -/
def ofBytes (encoded : List UInt8) : List Char :=
  (decodeUtf8 encoded).1

variable {s t : List Char} {c x : Char} {i : Nat} {p : Char → Bool} {p' : UInt8 → Bool}

/-- The byte of a character of one byte is its number. -/
theorem toNat_byte (h : c.toNat < 0x80) : (byte c).toNat = c.toNat :=
  toNat_ofNat (by omega)

/-- The bytes of a text are those of its first character and of the rest. -/
theorem bytes_cons (c : Char) (s : List Char) : bytes (c :: s) = String.utf8EncodeChar c ++ bytes s :=
  List.flatMap_cons

/-- The bytes of two texts in a row are those of the one and of the other. -/
theorem bytes_append (s t : List Char) : bytes (s ++ t) = bytes s ++ bytes t :=
  List.flatMap_append

/-- The length of a text in bytes is the number of its bytes. -/
theorem length_bytes (s : List Char) : (bytes s).length = utf8Length s :=
  length_flatMap s

/-- The size of a string is the length of its characters in bytes. -/
theorem utf8ByteSize_ofList (s : List Char) : (String.ofList s).utf8ByteSize = utf8Length s := by
  induction s with
  | nil => rfl
  | cons c s ih =>
    rw [String.ofList_cons, String.utf8ByteSize_append, String.utf8ByteSize_singleton, ih, utf8Length]

theorem utf8Length_eq_zero : utf8Length s = 0 ↔ s = [] := by
  cases s with
  | nil => exact iff_of_true rfl rfl
  | cons c s =>
    have hpos := c.utf8Size_pos
    refine iff_of_false ?_ (List.cons_ne_nil c s)
    rw [utf8Length]
    omega

/-- A text is read back from its bytes. -/
theorem ofBytes_bytes (s : List Char) : ofBytes (bytes s) = s :=
  congrArg Prod.fst (decodeUtf8_flatMap s)

/-! ## Where characters begin -/

/-- Whether a character begins at an offset of the bytes, or the bytes end there. -/
def isBoundary (encoded : List UInt8) (i : Nat) : Bool :=
  i == 0 || i == encoded.length || encoded[i]?.any fun b => !(continuation? b).isSome

/-- A character begins at an offset, or the bytes end, unless a later byte of a character stands there. -/
theorem isBoundary_eq_true {encoded : List UInt8} : isBoundary encoded i = true ↔
    i = 0 ∨ i = encoded.length ∨ ∃ b, encoded[i]? = some b ∧ (continuation? b).isSome = false := by
  rw [isBoundary, Bool.or_eq_true, Bool.or_eq_true, beq_iff_eq, beq_iff_eq, Option.any_eq_true, or_assoc]
  simp only [Bool.not_eq_true']

/-- The later bytes of characters are those of one range. -/
theorem isSome_continuation? {b : UInt8} : (continuation? b).isSome = true ↔ 0x80 ≤ b.toNat ∧ b.toNat < 0xC0 := by
  simp only [continuation?, Bool.and_eq_true, decide_eq_true_eq, UInt8.le_iff_toNat_le, UInt8.lt_iff_toNat_lt]
  split
  · simpa
  · simpa using fun h => by simp_all

/-- The later bytes of characters are told by their numbers. -/
theorem isSome_continuation?_ofNat {n : Nat} (h : n < 256) :
    (continuation? (UInt8.ofNat n)).isSome = true ↔ 0x80 ≤ n ∧ n < 0xC0 := by
  rw [isSome_continuation?, toNat_ofNat h]

/-- A character is encoded by a byte that continues none, and bytes that continue it. -/
theorem exists_lead (c : Char) : ∃ lead tail, String.utf8EncodeChar c = lead :: tail ∧ (continuation? lead).isSome = false ∧
    ∀ b ∈ tail, (continuation? b).isSome = true := by
  obtain ⟨n, hn⟩ : ∃ n, c.toNat = n := ⟨_, rfl⟩
  have hvalid : n < 0xD800 ∨ 0xDFFF < n ∧ n < 0x110000 := hn ▸ c.valid
  have hlead : ∀ m, m < 256 → m < 0x80 ∨ 0xC0 ≤ m → (continuation? (UInt8.ofNat m)).isSome = false := by
    intro m hm hout
    rw [← Bool.not_eq_true, isSome_continuation?_ofNat hm]
    omega
  have hlast : ∀ m, (continuation? (UInt8.ofNat (m % 0x40 + 0x80))).isSome = true := by
    intro m
    rw [isSome_continuation?_ofNat (by omega)]
    omega
  by_cases h₁ : n ≤ 0x7F
  · exact ⟨_, _, utf8EncodeChar_one hn h₁, hlead n (by omega) (by omega), List.forall_mem_nil _⟩
  by_cases h₂ : n ≤ 0x7FF
  · refine ⟨_, _, utf8EncodeChar_two hn h₁ h₂, hlead _ (by omega) (by omega), ?_⟩
    exact List.forall_mem_cons.mpr ⟨hlast n, List.forall_mem_nil _⟩
  by_cases h₃ : n ≤ 0xFFFF
  · refine ⟨_, _, utf8EncodeChar_three hn h₁ h₂ h₃, hlead _ (by omega) (by omega), ?_⟩
    exact List.forall_mem_cons.mpr ⟨hlast (n / 64), List.forall_mem_cons.mpr ⟨hlast n, List.forall_mem_nil _⟩⟩
  · refine ⟨_, _, utf8EncodeChar_four hn h₁ h₂ h₃, hlead _ (by omega) (by omega), ?_⟩
    exact List.forall_mem_cons.mpr ⟨hlast (n / 4096), List.forall_mem_cons.mpr ⟨hlast (n / 64),
      List.forall_mem_cons.mpr ⟨hlast n, List.forall_mem_nil _⟩⟩⟩

/-- A character of a number below 128 is encoded by one byte with that number, any other by bytes from 128 on. -/
theorem ascii_or_high (c : Char) : (c.toNat < 0x80 ∧ String.utf8EncodeChar c = [byte c]) ∨
    (0x80 ≤ c.toNat ∧ ∀ b ∈ String.utf8EncodeChar c, 0x80 ≤ b.toNat) := by
  by_cases h : c.toNat ≤ 0x7F
  · exact .inl ⟨by omega, utf8EncodeChar_one rfl h⟩
  · exact .inr ⟨by omega, high_of_mem h⟩

/-- A boundary behind the first character of a text is one of the rest. -/
theorem isBoundary_bytes_cons (hle : c.utf8Size ≤ i) :
    isBoundary (bytes (c :: s)) i = true ↔ isBoundary (bytes s) (i - c.utf8Size) = true := by
  have hsize : (String.utf8EncodeChar c).length = c.utf8Size := String.length_utf8EncodeChar c
  have hpos := c.utf8Size_pos
  have hget : (bytes (c :: s))[i]? = (bytes s)[i - c.utf8Size]? := by
    rw [bytes_cons, List.getElem?_append_right (by omega), hsize]
  have hlength : (bytes (c :: s)).length = c.utf8Size + (bytes s).length := by
    rw [bytes_cons, List.length_append, hsize]
  rw [isBoundary_eq_true, isBoundary_eq_true, hget, hlength]
  constructor
  · rintro (hzero | hend | hbegins)
    · omega
    · exact .inr (.inl (by omega))
    · exact .inr (.inr hbegins)
  · rintro (hzero | hend | hbegins)
    · -- the rest begins with a character, or it is empty
      obtain rfl : i = c.utf8Size := by omega
      cases s with
      | nil => exact .inr (.inl rfl)
      | cons x s =>
        obtain ⟨lead, tail, hencoded, hlead, -⟩ := exists_lead x
        refine .inr (.inr ⟨lead, ?_, hlead⟩)
        rw [bytes_cons, hencoded, Nat.sub_self]
        rfl
    · exact .inr (.inl (by omega))
    · exact .inr (.inr hbegins)

/-- In the bytes of a text, a boundary is where the text can be taken apart. -/
theorem isBoundary_iff : isBoundary (bytes s) i = true ↔ ∃ before after, s = before ++ after ∧ utf8Length before = i := by
  induction s generalizing i with
  | nil =>
    rw [isBoundary_eq_true]
    constructor
    · rintro (hzero | hzero | ⟨b, hb, -⟩)
      · exact ⟨[], [], rfl, hzero.symm⟩
      · exact ⟨[], [], rfl, hzero.symm⟩
      · cases hb
    · rintro ⟨before, after, hs, hi⟩
      obtain ⟨rfl, -⟩ := List.append_eq_nil_iff.mp hs.symm
      exact .inl hi.symm
  | cons c s ih =>
    by_cases hle : c.utf8Size ≤ i
    · rw [isBoundary_bytes_cons hle, ih]
      constructor
      · rintro ⟨before, after, rfl, hlength⟩
        refine ⟨c :: before, after, rfl, ?_⟩
        rw [utf8Length]
        omega
      · rintro ⟨before, after, hs, hlength⟩
        cases before with
        | nil =>
          have hpos := c.utf8Size_pos
          rw [utf8Length] at hlength
          omega
        | cons x before =>
          obtain ⟨rfl, rfl⟩ := List.cons.inj hs
          refine ⟨before, after, rfl, ?_⟩
          rw [utf8Length] at hlength
          omega
    · -- an offset in the first character is a boundary only at its beginning
      have hinside : ∀ b, (bytes (c :: s))[i]? = some b → 0 < i → (continuation? b).isSome = true := by
        intro b hb hpos
        obtain ⟨lead, tail, hencoded, -, htail⟩ := exists_lead c
        have hsize : c.utf8Size = tail.length + 1 := by rw [← String.length_utf8EncodeChar, hencoded, List.length_cons]
        obtain ⟨j, rfl⟩ : ∃ j, i = j + 1 := ⟨i - 1, by omega⟩
        rw [bytes_cons, hencoded, List.cons_append, List.getElem?_cons_succ, List.getElem?_append_left (by omega)] at hb
        exact htail b (List.mem_of_getElem? hb)
      constructor
      · intro h
        refine ⟨[], c :: s, rfl, ?_⟩
        rcases isBoundary_eq_true.mp h with hzero | hend | ⟨b, hb, hcontinues⟩
        · exact hzero.symm
        · rw [length_bytes, utf8Length] at hend
          omega
        · by_contra hne
          have hpos : 0 < i := Nat.pos_of_ne_zero (Ne.symm hne)
          exact absurd (hinside b hb hpos) (Bool.eq_false_iff.mp hcontinues)
      · rintro ⟨before, after, hs, hlength⟩
        cases before with
        | nil => exact isBoundary_eq_true.mpr (.inl hlength.symm)
        | cons x before =>
          obtain ⟨rfl, rfl⟩ := List.cons.inj hs
          rw [utf8Length] at hlength
          omega

/-! ## Classes of characters -/

/-- The bytes of a character all belong to one class exactly if the character belongs to another. -/
def Agree (p : Char → Bool) (p' : UInt8 → Bool) : Prop :=
  ∀ c, ∀ b ∈ String.utf8EncodeChar c, p' b = p c

/-- Classes agree that are told by numbers below 128 in one way, where above these the numbers make no difference. -/
theorem agree_of_number {q : Nat → Bool} (hp : ∀ c, p c = q c.toNat) (hp' : ∀ b, p' b = q b.toNat)
    (hhigh : ∀ m n, 0x80 ≤ m → 0x80 ≤ n → q m = q n) : Agree p p' := by
  intro c b hb
  rw [hp, hp']
  rcases ascii_or_high c with ⟨hlt, hencoded⟩ | ⟨hle, hbytes⟩
  · rw [hencoded, List.mem_singleton] at hb
    rw [hb, toNat_byte hlt]
  · exact hhigh _ _ (hbytes b hb) hle

/-- A class of bytes reaches as far as the class of characters. -/
theorem Agree.takeWhile (h : Agree p p') (s : List Char) : (bytes s).takeWhile p' = bytes (s.takeWhile p) := by
  induction s with
  | nil => rfl
  | cons c s ih =>
    rw [bytes_cons, List.takeWhile_cons]
    cases hc : p c with
    | true =>
      rw [List.takeWhile_append_of_pos (fun b hb => (h c b hb).trans hc), ih, if_pos rfl, bytes_cons]
    | false =>
      obtain ⟨lead, tail, hencoded, -, -⟩ := exists_lead c
      have hlead : ¬p' lead = true := by
        rw [h c lead (hencoded ▸ List.mem_cons_self), hc]
        exact Bool.false_ne_true
      rw [if_neg Bool.false_ne_true, hencoded, List.cons_append, List.takeWhile_cons_of_neg hlead]
      rfl

/-- A character of one byte is told from all others by that byte. -/
theorem agree_char (hx : x.toNat < 0x80) : Agree (· == x) (· == byte x) := by
  refine agree_of_number (q := (· == x.toNat)) ?_ ?_ ?_
  · intro c
    rw [Bool.eq_iff_iff, beq_iff_eq, beq_iff_eq, Char.toNat_inj]
  · intro b
    rw [Bool.eq_iff_iff, beq_iff_eq, beq_iff_eq]
    constructor
    · rintro rfl
      exact toNat_byte hx
    · intro hb
      rw [byte, ← hb, UInt8.ofNat_toNat]
  · intro m n hm hn
    rw [Bool.eq_iff_iff, beq_iff_eq, beq_iff_eq]
    omega

/-- The characters from one to another of one byte are told by their bytes. -/
theorem agree_range {least greatest : Char} (hleast : least.toNat < 0x80) (hgreatest : greatest.toNat < 0x80)
    (hp : ∀ c, p c = true ↔ least.toNat ≤ c.toNat ∧ c.toNat ≤ greatest.toNat) :
    Agree p (fun b => byte least ≤ b && b ≤ byte greatest) := by
  refine agree_of_number (q := fun n => least.toNat ≤ n && n ≤ greatest.toNat) ?_ ?_ ?_
  · intro c
    rw [Bool.eq_iff_iff, hp, Bool.and_eq_true, decide_eq_true_iff, decide_eq_true_iff]
  · intro b
    simp only [UInt8.le_iff_toNat_le, toNat_byte hleast, toNat_byte hgreatest]
  · intro m n hm hn
    have hle : ¬m ≤ greatest.toNat := by omega
    have hle' : ¬n ≤ greatest.toNat := by omega
    rw [decide_eq_false hle, decide_eq_false hle', Bool.and_false, Bool.and_false]

/-- The characters outside ASCII are told by their bytes. -/
theorem agree_high : Agree (fun c => 0x80 ≤ c.toNat) (fun b => 0x80 ≤ b) := by
  refine agree_of_number (q := fun n => 0x80 ≤ n) (fun _ => rfl) (fun _ => rfl) ?_
  intro m n hm hn
  rw [decide_eq_true hm, decide_eq_true hn]

/-- If two classes are told by their bytes, so are both together. -/
theorem Agree.or {q : Char → Bool} {q' : UInt8 → Bool} (h : Agree p p') (h' : Agree q q') :
    Agree (fun c => p c || q c) (fun b => p' b || q' b) := by
  intro c b hb
  change (p' b || q' b) = (p c || q c)
  rw [h c b hb, h' c b hb]

/-- If a class is told by its bytes, so are all other characters. -/
theorem Agree.not (h : Agree p p') : Agree (fun c => !p c) (fun b => !p' b) := by
  intro c b hb
  change (!p' b) = !p c
  rw [h c b hb]

/-! ## Searching -/

/-- The first place where bytes stand in others. -/
def indexOf? (needle : List UInt8) : List UInt8 → Option Nat
  | [] => if needle.isEmpty then some 0 else none
  | b :: rest => if needle.isPrefixOf (b :: rest) then some 0 else (indexOf? needle rest).map (· + 1)

/-- The bytes of a text begin with those of another where the text begins with the other. -/
theorem isPrefixOf_bytes (lead s : List Char) : (bytes lead).isPrefixOf (bytes s) = (after? lead s).isSome := by
  rw [Bool.eq_iff_iff, List.isPrefixOf_iff_prefix, Option.isSome_iff_exists]
  constructor
  · rintro ⟨rest, hrest⟩
    refine ⟨lossy rest, after?_eq_some_iff.mpr ?_⟩
    have hread := lossy_append s []
    rw [List.append_nil, lossy_nil, List.append_nil] at hread
    rw [← hread]
    change lossy (bytes s) = _
    rw [← hrest]
    exact lossy_append lead rest
  · rintro ⟨rest, hrest⟩
    rw [after?_eq_some_iff.mp hrest, bytes_append]
    exact List.prefix_append _ _

/-- What does not begin with any of the bytes that stand in front is found behind them. -/
theorem indexOf?_append {first : UInt8} {needle : List UInt8} (front : List UInt8) (rest : List UInt8)
    (h : ∀ b ∈ front, b ≠ first) :
    indexOf? (first :: needle) (front ++ rest) = (indexOf? (first :: needle) rest).map (· + front.length) := by
  induction front with
  | nil => exact Option.map_id'.symm
  | cons b front ih =>
    obtain ⟨hb, hfront⟩ := List.forall_mem_cons.mp h
    have hnot : (first :: needle).isPrefixOf (b :: (front ++ rest)) = false := by
      rw [List.isPrefixOf, beq_eq_false_iff_ne.mpr (Ne.symm hb), Bool.false_and]
    rw [List.cons_append, indexOf?, hnot, if_neg Bool.false_ne_true, ih hfront, Option.map_map]
    rfl

/-- What begins with a character of one byte is found in the bytes where it stands in the text, since no such byte is a later
one of another character. -/
theorem indexOf?_bytes (hx : x.toNat < 0x80) (needle s : List Char) :
    indexOf? (bytes (x :: needle)) (bytes s) = (splitAt? (x :: needle) s).map fun found => utf8Length found.1 := by
  have hencodedX : String.utf8EncodeChar x = [byte x] := utf8EncodeChar_one rfl (by omega)
  have hneedle : bytes (x :: needle) = byte x :: bytes needle := by
    rw [bytes_cons, hencodedX, List.singleton_append]
  induction s with
  | nil => rw [hneedle]; rfl
  | cons c s ih =>
    obtain ⟨lead, tail, hencoded, -, htail⟩ := exists_lead c
    have hsize : tail.length + 1 = c.utf8Size := by rw [← String.length_utf8EncodeChar, hencoded, List.length_cons]
    have hprefix := isPrefixOf_bytes (x :: needle) (c :: s)
    rw [bytes_cons c, hencoded, List.cons_append] at hprefix ⊢
    rw [indexOf?, hprefix, splitAt?]
    cases hfound : after? (x :: needle) (c :: s) with
    | some after => rfl
    | none =>
      have hskip : ∀ b ∈ tail, b ≠ byte x := by
        rintro b hb rfl
        have hcontinues := (isSome_continuation?_ofNat (by omega)).mp (htail _ hb)
        omega
      rw [Option.isSome_none, if_neg Bool.false_ne_true, hneedle, indexOf?_append tail (bytes s) hskip, ← hneedle, ih]
      cases splitAt? (x :: needle) s with
      | none => rfl
      | some found =>
        simp only [Option.map_some, utf8Length]
        congr 1
        omega

end LiveMarkup.Text
