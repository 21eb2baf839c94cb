import Mathlib.Data.List.DropRight
import Mathlib.Data.List.Forall2
import LiveMarkup.Markup.Position
import LiveMarkup.Proofs.Utf8

/-!
# Which places are told

A place in a text may as well be found in the bytes of the text: the line by the line feeds among the bytes before it, and the
column by reading what of its line stands before it, where bytes that make up no character count as one
(`Position.ofBytes`). Both ways lead to the same place (`Position.locate_eq_ofBytes`), also where the offset lies inside a
character: that character counts, so such a place is one column after the beginning of the character
(`Position.locate_eq`).
-/

namespace LiveMarkup

namespace Text

/-! ## Reading bytes that need not be characters -/

/-- The ranges of the bytes that follow the first byte of a character, if a character can begin with this byte. -/
def following? (lead : Nat) : Option (List (Nat × Nat)) :=
  if lead < 0x80 then some []
  else if lead < 0xC2 then none
  else if lead < 0xE0 then some [(0x80, 0xBF)]
  else if lead < 0xF0 then
    some [(if lead = 0xE0 then 0xA0 else 0x80, if lead = 0xED then 0x9F else 0xBF), (0x80, 0xBF)]
  else if lead < 0xF5 then
    some [(if lead = 0xF0 then 0x90 else 0x80, if lead = 0xF4 then 0x8F else 0xBF), (0x80, 0xBF), (0x80, 0xBF)]
  else none

/-- How many bytes lie in the ranges, one after the other. -/
def inRanges : List (Nat × Nat) → List UInt8 → Nat
  | (least, greatest) :: ranges, b :: rest =>
    if least ≤ b.toNat ∧ b.toNat ≤ greatest then inRanges ranges rest + 1 else 0
  | _, _ => 0

/-- The bytes as characters. Where they break off a character, or begin none, a replacement character stands. -/
def lossy : List UInt8 → List Char
  | [] => []
  | lead :: rest =>
    match following? lead.toNat with
    | none => '\uFFFD' :: lossy rest
    | some ranges =>
      let n := inRanges ranges rest
      if n = ranges.length then (decodeUtf8 (lead :: rest.take n)).1 ++ lossy (rest.drop n)
      else '\uFFFD' :: lossy (rest.drop n)
termination_by bytes => bytes.length
decreasing_by
  · exact Nat.lt_succ_self rest.length
  · exact Nat.lt_succ_of_le (List.drop_sublist n rest).length_le
  · exact Nat.lt_succ_of_le (List.drop_sublist n rest).length_le

theorem lossy_nil : lossy [] = [] := by
  rw [lossy]

/-- The bytes lie in the ranges. -/
def Follow (ranges : List (Nat × Nat)) (bytes : List UInt8) : Prop :=
  List.Forall₂ (fun range b => range.1 ≤ b.toNat ∧ b.toNat ≤ range.2) ranges bytes

variable {ranges : List (Nat × Nat)} {bytes : List UInt8} {c : Char}

/-- What comes after the bytes that may follow makes no difference to how many of them do. -/
theorem Follow.inRanges_append (h : Follow ranges bytes) (rest : List UInt8) :
    inRanges ranges (bytes ++ rest) = ranges.length := by
  induction h with
  | nil => cases rest <;> rfl
  | cons hb _ ih => rw [List.cons_append, inRanges, if_pos hb, ih, List.length_cons]

/-- Of bytes that may follow so do as many as are left. -/
theorem Follow.inRanges_take (h : Follow ranges bytes) {n : Nat} (hn : n ≤ bytes.length) :
    inRanges ranges (bytes.take n) = n := by
  induction h generalizing n with
  | nil =>
    cases Nat.le_zero.mp hn
    rfl
  | cons hb _ ih =>
    cases n with
    | zero => rfl
    | succ n => rw [List.take_succ_cons, inRanges, if_pos hb, ih (Nat.le_of_succ_le_succ hn)]

theorem toNat_ofNat {n : Nat} (h : n < 256) : (UInt8.ofNat n).toNat = n :=
  UInt8.toNat_ofNat_of_lt' h

/-- The last bytes of a character may have any value of the range. -/
theorem Follow.last (n : Nat) : Follow [(0x80, 0xBF)] [UInt8.ofNat (n % 0x40 + 0x80)] := by
  refine .cons ?_ .nil
  rw [toNat_ofNat (by omega)]
  omega

/-- A character is encoded by a byte with which a character can begin, and bytes that can follow it. -/
theorem exists_follow (c : Char) : ∃ lead bytes ranges, String.utf8EncodeChar c = lead :: bytes ∧
    following? lead.toNat = some ranges ∧ Follow ranges bytes := by
  obtain ⟨n, hn⟩ : ∃ n, c.toNat = n := ⟨_, rfl⟩
  have hvalid : n < 0xD800 ∨ 0xDFFF < n ∧ n < 0x110000 := hn ▸ c.valid
  by_cases h₁ : n ≤ 0x7F
  · refine ⟨_, _, [], utf8EncodeChar_one hn h₁, ?_, .nil⟩
    rw [toNat_ofNat (by omega), following?, if_pos (by omega)]
  by_cases h₂ : n ≤ 0x7FF
  · refine ⟨_, _, [(0x80, 0xBF)], utf8EncodeChar_two hn h₁ h₂, ?_, Follow.last n⟩
    rw [toNat_ofNat (by omega), following?, if_neg (by omega), if_neg (by omega), if_pos (by omega)]
  by_cases h₃ : n ≤ 0xFFFF
  · obtain ⟨lead, hlead⟩ : ∃ lead, n / 4096 % 0x10 + 0xE0 = lead := ⟨_, rfl⟩
    have hencoded := utf8EncodeChar_three hn h₁ h₂ h₃
    rw [hlead] at hencoded
    refine ⟨_, _, [(if lead = 0xE0 then 0xA0 else 0x80, if lead = 0xED then 0x9F else 0xBF), (0x80, 0xBF)], hencoded,
      ?_, .cons ?_ (Follow.last n)⟩
    · rw [toNat_ofNat (by omega), following?, if_neg (by omega), if_neg (by omega), if_neg (by omega), if_pos (by omega)]
    · rw [toNat_ofNat (by omega)]
      dsimp only
      constructor <;> split <;> omega
  · obtain ⟨lead, hlead⟩ : ∃ lead, n / 262144 % 0x08 + 0xF0 = lead := ⟨_, rfl⟩
    have hencoded := utf8EncodeChar_four hn h₁ h₂ h₃
    rw [hlead] at hencoded
    refine ⟨_, _, [(if lead = 0xF0 then 0x90 else 0x80, if lead = 0xF4 then 0x8F else 0xBF), (0x80, 0xBF), (0x80, 0xBF)],
      hencoded, ?_, .cons ?_ (.cons ?_ (Follow.last n))⟩
    · rw [toNat_ofNat (by omega), following?, if_neg (by omega), if_neg (by omega), if_neg (by omega), if_neg (by omega),
        if_pos (by omega)]
    · rw [toNat_ofNat (by omega)]
      dsimp only
      constructor <;> split <;> omega
    · rw [toNat_ofNat (by omega)]
      omega

/-- A character is read from its bytes, whatever follows them. -/
theorem lossy_append (s : List Char) (rest : List UInt8) :
    lossy (s.flatMap String.utf8EncodeChar ++ rest) = s ++ lossy rest := by
  induction s with
  | nil => rfl
  | cons c s ih =>
    obtain ⟨lead, bytes, ranges, hencoded, hfollowing, hfollow⟩ := exists_follow c
    have hlength : bytes.length = ranges.length := (List.Forall₂.length_eq hfollow).symm
    have hread : (decodeUtf8 (lead :: bytes)).1 = [c] := by
      have hread := decodeUtf8_utf8EncodeChar c []
      rw [List.append_nil, hencoded] at hread
      rw [hread]
      rfl
    rw [List.flatMap_cons, hencoded, List.append_assoc, List.cons_append, lossy, hfollowing]
    simp only [hfollow.inRanges_append, if_true, ← hlength, List.take_left, List.drop_left, hread, ih]
    rfl

/-- A character that is broken off is read as a replacement character. -/
theorem lossy_take (c : Char) {n : Nat} (hpos : 0 < n) (hlt : n < c.utf8Size) :
    lossy ((String.utf8EncodeChar c).take n) = ['\uFFFD'] := by
  obtain ⟨lead, bytes, ranges, hencoded, hfollowing, hfollow⟩ := exists_follow c
  have hlength : bytes.length = ranges.length := (List.Forall₂.length_eq hfollow).symm
  have hsize : c.utf8Size = bytes.length + 1 := by rw [← String.length_utf8EncodeChar, hencoded, List.length_cons]
  obtain ⟨m, rfl⟩ : ∃ m, n = m + 1 := ⟨n - 1, by omega⟩
  have htake := hfollow.inRanges_take (n := m) (by omega)
  rw [hencoded, List.take_succ_cons, lossy, hfollowing]
  simp only [htake]
  rw [if_neg (by omega), List.drop_eq_nil_of_le (List.length_take_le m bytes), lossy]

/-- All bytes of a character of several bytes are high. -/
theorem high_of_mem (h₁ : ¬c.toNat ≤ 0x7F) : ∀ b ∈ String.utf8EncodeChar c, 0x80 ≤ b.toNat := by
  have hhigh : ∀ {m k : Nat}, m + k < 256 → 0x80 ≤ k → 0x80 ≤ (UInt8.ofNat (m + k)).toNat := by
    intro m k hbound hk
    rw [toNat_ofNat hbound]
    omega
  have hnil : ∀ b ∈ ([] : List UInt8), 0x80 ≤ b.toNat := List.forall_mem_nil _
  by_cases h₂ : c.toNat ≤ 0x7FF
  · rw [utf8EncodeChar_two rfl h₁ h₂]
    simp only [List.forall_mem_cons]
    exact ⟨hhigh (by omega) (by omega), hhigh (by omega) (by omega), hnil⟩
  by_cases h₃ : c.toNat ≤ 0xFFFF
  · rw [utf8EncodeChar_three rfl h₁ h₂ h₃]
    simp only [List.forall_mem_cons]
    exact ⟨hhigh (by omega) (by omega), hhigh (by omega) (by omega), hhigh (by omega) (by omega), hnil⟩
  · rw [utf8EncodeChar_four rfl h₁ h₂ h₃]
    simp only [List.forall_mem_cons]
    exact ⟨hhigh (by omega) (by omega), hhigh (by omega) (by omega), hhigh (by omega) (by omega),
      hhigh (by omega) (by omega), hnil⟩

/-- No character but the line feed is encoded with its byte. -/
theorem lineFeed_notMem (hc : c ≠ '\n') : (0x0A : UInt8) ∉ String.utf8EncodeChar c := by
  intro hmem
  by_cases h₁ : c.toNat ≤ 0x7F
  · rw [utf8EncodeChar_one rfl h₁, List.mem_singleton] at hmem
    have hvalue := congrArg UInt8.toNat hmem
    rw [toNat_ofNat (by omega)] at hvalue
    exact hc (Char.toNat_inj.mp hvalue.symm)
  · exact absurd (high_of_mem h₁ _ hmem) (by decide)

/-- There are as many line feeds among the bytes as among the characters. -/
theorem count_lineFeed (s : List Char) : (s.flatMap String.utf8EncodeChar).count 0x0A = s.count '\n' := by
  induction s with
  | nil => rfl
  | cons c s ih =>
    rw [List.flatMap_cons, List.count_append, ih, List.count_cons, Nat.add_comm]
    by_cases hc : c = '\n'
    · subst hc
      rfl
    · rw [List.count_eq_zero_of_not_mem (lineFeed_notMem hc), if_neg (by simpa using hc)]

/-! ## Whole characters -/

/-- The characters that lie wholly before an offset. -/
def wholeBefore : List Char → Nat → List Char
  | [], _ => []
  | c :: rest, offset => if c.utf8Size ≤ offset then c :: wholeBefore rest (offset - c.utf8Size) else []

/-- They are all the characters up to the one in which the offset lies. -/
theorem exists_wholeBefore (s : List Char) (offset : Nat) : ∃ after, s = wholeBefore s offset ++ after ∧
    utf8Length (wholeBefore s offset) ≤ offset ∧
    ∀ c ∈ after.head?, offset < utf8Length (wholeBefore s offset) + c.utf8Size := by
  induction s generalizing offset with
  | nil => exact ⟨[], rfl, Nat.zero_le _, fun _ h => nomatch h⟩
  | cons c s ih =>
    by_cases hle : c.utf8Size ≤ offset
    · obtain ⟨after, hs, hbefore, hlt⟩ := ih (offset - c.utf8Size)
      rw [wholeBefore, if_pos hle]
      refine ⟨after, by rw [List.cons_append, ← hs], ?_, ?_⟩
      · rw [utf8Length]
        omega
      · intro x hx
        have hx' := hlt x hx
        rw [utf8Length]
        omega
    · rw [wholeBefore, if_neg hle]
      refine ⟨c :: s, rfl, Nat.zero_le _, ?_⟩
      rintro _ ⟨⟩
      rw [utf8Length]
      omega

/-- The length of a text in bytes is the number of its bytes. -/
theorem length_flatMap (s : List Char) : (s.flatMap String.utf8EncodeChar).length = utf8Length s := by
  induction s with
  | nil => rfl
  | cons c s ih => rw [List.flatMap_cons, List.length_append, String.length_utf8EncodeChar, ih, utf8Length]

end Text

namespace Position

open Text (utf8Length lossy wholeBefore)

/-! ## Lines -/

/-- What follows the last place of a value in a list. -/
def lastLine {α : Type} [DecidableEq α] (x : α) (l : List α) : List α :=
  l.rtakeWhile (· ≠ x)

section

variable {α : Type} [DecidableEq α] {x : α}

/-- After the end of a line nothing of the next one has come. -/
theorem lastLine_concat_self (l : List α) : lastLine x (l ++ [x]) = [] :=
  List.rtakeWhile_concat_neg _ _ _ (by simp)

/-- What has no end of a line goes on with the last one. -/
theorem lastLine_append {l l' : List α} (h : x ∉ l') : lastLine x (l ++ l') = lastLine x l ++ l' := by
  induction l' using List.reverseRecOn with
  | nil => rw [List.append_nil, List.append_nil]
  | append_singleton l' y ih =>
    rw [List.mem_append, List.mem_singleton, not_or] at h
    rw [← List.append_assoc, lastLine, List.rtakeWhile_concat_pos _ _ _ (by simpa using Ne.symm h.2)]
    rw [← List.append_assoc, ← ih h.1, lastLine]

end

/-- The last line of the bytes is what its characters are encoded by. -/
theorem lastLine_flatMap (s : List Char) : lastLine (0x0A : UInt8) (s.flatMap String.utf8EncodeChar) =
    (lastLine '\n' s).flatMap String.utf8EncodeChar := by
  induction s using List.reverseRecOn with
  | nil => rfl
  | append_singleton s c ih =>
    rw [List.flatMap_append, List.flatMap_singleton]
    by_cases hc : c = '\n'
    · subst hc
      rw [lastLine_concat_self]
      exact lastLine_concat_self _
    · rw [lastLine_append (Text.lineFeed_notMem hc), lastLine_append (by simpa using Ne.symm hc), ih, List.flatMap_append,
        List.flatMap_singleton]

/-! ## Places -/

/-- The place at an offset, as it is found in bytes. -/
def ofBytes (bytes : List UInt8) (offset : Nat) : Position :=
  let before := bytes.take offset
  ⟨min offset bytes.length, before.count 0x0A + 1, (lossy (lastLine 0x0A before)).length + 1⟩

/-- Without a step the position stays. -/
theorem walk_zero (s : List Char) (line column : Nat) : walk s 0 line column = (line, column) := by
  cases s with
  | nil => rfl
  | cons c s => rw [walk, if_pos rfl]

/-- Whole characters lead from the end of a text to the end of the text with them. -/
theorem walk_append (done before after : List Char) (k : Nat) :
    walk (before ++ after) (utf8Length before + k) (done.count '\n' + 1) ((lastLine '\n' done).length + 1) =
      walk after k ((done ++ before).count '\n' + 1) ((lastLine '\n' (done ++ before)).length + 1) := by
  induction before generalizing done with
  | nil => rw [List.nil_append, utf8Length, Nat.zero_add, List.append_nil]
  | cons c before ih =>
    have hpos : c.utf8Size + utf8Length before + k ≠ 0 := by
      have := c.utf8Size_pos
      omega
    have hrest : c.utf8Size + utf8Length before + k - c.utf8Size = utf8Length before + k := by omega
    have hnext := ih (done ++ [c])
    rw [List.append_assoc, List.singleton_append] at hnext
    rw [List.cons_append, utf8Length, walk, if_neg hpos, hrest, ← hnext]
    by_cases hc : c = '\n'
    · subst hc
      rw [if_pos rfl, lastLine_concat_self, List.count_append]
      rfl
    · have hnotMem : '\n' ∉ [c] := by simpa using Ne.symm hc
      rw [if_neg hc, lastLine_append hnotMem, List.count_append, List.count_eq_zero_of_not_mem hnotMem, List.length_append]
      rfl

/-- The line feed takes up one byte, so no offset lies in it. -/
theorem ne_lineFeed {c : Char} {k : Nat} (hpos : 0 < k) (hlt : k < c.utf8Size) : c ≠ '\n' := by
  rintro rfl
  have hsize : '\n'.utf8Size = 1 := rfl
  omega

/-- A character that is broken off counts, and nothing after it does. -/
theorem walk_cut {c : Char} {k : Nat} (hlt : k < c.utf8Size) (after : List Char) (line column : Nat) :
    walk (c :: after) k line column = (line, column + if 0 < k then 1 else 0) := by
  by_cases hpos : 0 < k
  · have hrest : k - c.utf8Size = 0 := by omega
    rw [walk, if_neg (by omega), if_neg (ne_lineFeed hpos hlt), hrest, walk_zero, if_pos hpos]
  · rw [Nat.eq_zero_of_not_pos hpos, walk_zero, if_neg (Nat.lt_irrefl 0), Nat.add_zero]

/-- The line of a place is that of the whole characters before it. The column counts those of its line, and the character in
which the offset lies, if it lies in one. -/
theorem locate_eq (text : List Char) (offset : Nat) : locate text offset =
    ⟨min offset (utf8Length text), (wholeBefore text offset).count '\n' + 1,
      (lastLine '\n' (wholeBefore text offset)).length + 1 +
        if utf8Length (wholeBefore text offset) < min offset (utf8Length text) then 1 else 0⟩ := by
  obtain ⟨after, htext, hle, hlt⟩ := Text.exists_wholeBefore text offset
  generalize wholeBefore text offset = before at htext hle hlt ⊢
  subst htext
  obtain ⟨k, hk⟩ : ∃ k, min offset (utf8Length (before ++ after)) = utf8Length before + k := by
    refine ⟨min offset (utf8Length (before ++ after)) - utf8Length before, ?_⟩
    rw [Text.utf8Length_append]
    omega
  have hwalk : walk (before ++ after) (utf8Length before + k) 1 1 = _ := walk_append [] before after k
  rw [locate, hk]
  simp only [hwalk, List.nil_append]
  cases after with
  | nil =>
    rw [Text.utf8Length_append, utf8Length] at hk
    rw [walk, if_neg (by omega), Nat.add_zero]
  | cons c after =>
    have hlt' := hlt c rfl
    rw [walk_cut (by omega)]
    simp only [Nat.lt_add_right_iff_pos]

/-- The bytes before an offset are those of the whole characters, and in a character besides them some that are read as one. -/
theorem exists_take (text : List Char) (offset : Nat) : ∃ cut : List UInt8,
    (text.flatMap String.utf8EncodeChar).take offset = (wholeBefore text offset).flatMap String.utf8EncodeChar ++ cut ∧
    0x0A ∉ cut ∧
    (lossy cut).length = if utf8Length (wholeBefore text offset) < min offset (utf8Length text) then 1 else 0 := by
  obtain ⟨after, htext, hle, hlt⟩ := Text.exists_wholeBefore text offset
  generalize wholeBefore text offset = before at htext hle hlt ⊢
  subst htext
  rw [Text.utf8Length_append, List.flatMap_append]
  rw [← Text.length_flatMap before] at hle hlt ⊢
  rw [List.take_append, List.take_of_length_le hle]
  refine ⟨_, rfl, ?_⟩
  cases after with
  | nil =>
    rw [List.flatMap_nil, List.take_nil, utf8Length, if_neg (by omega)]
    exact ⟨List.not_mem_nil, congrArg List.length Text.lossy_nil⟩
  | cons c after =>
    have hk := hlt c rfl
    rw [List.flatMap_cons, List.take_append_of_le_length (by rw [String.length_utf8EncodeChar]; omega), utf8Length]
    by_cases hpos : 0 < offset - (before.flatMap String.utf8EncodeChar).length
    · have hkc : offset - (before.flatMap String.utf8EncodeChar).length < c.utf8Size := by omega
      rw [Text.lossy_take c hpos hkc, if_pos (by omega)]
      exact ⟨fun hmem => Text.lineFeed_notMem (ne_lineFeed hpos hkc) (List.mem_of_mem_take hmem), rfl⟩
    · rw [Nat.eq_zero_of_not_pos hpos, List.take_zero, if_neg (by omega)]
      exact ⟨List.not_mem_nil, congrArg List.length Text.lossy_nil⟩

/-- A place is the same in a text and in its bytes. -/
theorem locate_eq_ofBytes (text : List Char) (offset : Nat) :
    locate text offset = ofBytes (text.flatMap String.utf8EncodeChar) offset := by
  obtain ⟨cut, htake, hcut, hlength⟩ := exists_take text offset
  have hcount : ((text.flatMap String.utf8EncodeChar).take offset).count 0x0A = (wholeBefore text offset).count '\n' := by
    rw [htake, List.count_append, Text.count_lineFeed, List.count_eq_zero_of_not_mem hcut, Nat.add_zero]
  have hcolumn : (lossy (lastLine 0x0A ((text.flatMap String.utf8EncodeChar).take offset))).length =
      (lastLine '\n' (wholeBefore text offset)).length + (lossy cut).length := by
    rw [htake, lastLine_append hcut, lastLine_flatMap, Text.lossy_append, List.length_append]
  rw [locate_eq, ofBytes, hcount, hcolumn, hlength, Text.length_flatMap, Nat.add_right_comm]

/-- The place at an offset, in a text or in its bytes: the offset is at most the length, the line is told by the line feeds
before it, and the column by the characters of the line that lie wholly before it. But in a character the column is one more,
so such a place is told apart from the beginning of the character. -/
theorem locate_counts_cut_character (text : List Char) (offset : Nat) :
    locate text offset = ofBytes (text.flatMap String.utf8EncodeChar) offset ∧
    locate text offset = ⟨min offset (utf8Length text), (wholeBefore text offset).count '\n' + 1,
      (lastLine '\n' (wholeBefore text offset)).length + 1 +
        if utf8Length (wholeBefore text offset) < min offset (utf8Length text) then 1 else 0⟩ :=
  ⟨locate_eq_ofBytes text offset, locate_eq text offset⟩

/-- No character lies wholly before the second byte of this text, and still its column is not that of the first. -/
theorem second_byte_has_next_column :
    wholeBefore ['é'] 1 = [] ∧ locate ['é'] 0 = ⟨0, 1, 1⟩ ∧ locate ['é'] 1 = ⟨1, 1, 2⟩ := by
  decide

end Position

end LiveMarkup
