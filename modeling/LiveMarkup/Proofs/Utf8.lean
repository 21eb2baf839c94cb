import Mathlib.Data.List.Basic
import LiveMarkup.Markup.Json

/-!
# Text is read back from its bytes

The bytes that encode a character are read as that character (`decodeUtf8_utf8EncodeChar`), so a text is read back from its
bytes (`Json.sourceOfBytes_toUTF8`).
-/

namespace LiveMarkup

namespace Text

/-- The number of a character makes up that character again. -/
theorem charAtLeast?_toNat {c : Char} {least : Nat} (h : least ≤ c.toNat) : charAtLeast? least c.toNat = some c := by
  have hvalid : c.toNat.isValidChar := c.valid
  have hback : Char.ofNatAux c.toNat hvalid = c := by
    have h := Char.ofNat_toNat c
    rw [Char.ofNat, dif_pos hvalid] at h
    exact h
  rw [charAtLeast?, dif_pos hvalid, if_pos h, hback]

theorem ofNat_lt_iff {m n : Nat} (hm : m < 256) (hn : n < 256) : UInt8.ofNat m < UInt8.ofNat n ↔ m < n := by
  rw [UInt8.lt_iff_toNat_lt, UInt8.toNat_ofNat_of_lt' hm, UInt8.toNat_ofNat_of_lt' hn]

theorem ofNat_le_iff {m n : Nat} (hm : m < 256) (hn : n < 256) : UInt8.ofNat m ≤ UInt8.ofNat n ↔ m ≤ n := by
  rw [UInt8.le_iff_toNat_le, UInt8.toNat_ofNat_of_lt' hm, UInt8.toNat_ofNat_of_lt' hn]

/-- A byte that begins a character gives the bits that it was made from. -/
theorem toNat_ofNat_add_sub {m k : Nat} (h : m + k < 256) : (UInt8.ofNat (m + k)).toNat - k = m := by
  rw [UInt8.toNat_ofNat_of_lt' h, Nat.add_sub_cancel]

/-- A byte that continues a character gives the six bits that it was made from. -/
theorem continuation?_ofNat {n : Nat} (h : n < 0x40) : continuation? (UInt8.ofNat (n + 0x80)) = some n := by
  have hleast : (0x80 : UInt8) ≤ UInt8.ofNat (n + 0x80) := (ofNat_le_iff (m := 0x80) (by decide) (by omega)).mpr (by omega)
  have hmost : UInt8.ofNat (n + 0x80) < 0xC0 := (ofNat_lt_iff (n := 0xC0) (by omega) (by decide)).mpr (by omega)
  have hvalue : (UInt8.ofNat (n + 0x80)).toNat - 0x80 = n := toNat_ofNat_add_sub (by omega)
  rw [continuation?, decide_eq_true hleast, decide_eq_true hmost, hvalue]
  rfl

/-- A computation goes on with three numbers that are there. This lemma puts them in, since evaluating a sum of them would count
out its factors. -/
theorem bind_three {α : Type} {g : Nat → Nat → Nat → Option α} {a b c : Option Nat} {x y z : Nat} (ha : a = some x)
    (hb : b = some y) (hc : c = some z) : (do let x ← a; let y ← b; let z ← c; g x y z) = g x y z := by
  rw [ha, hb, hc]
  rfl

section Encoding

variable {c : Char} {n : Nat}

/-- The byte of a character below 128. -/
theorem utf8EncodeChar_one (hn : c.toNat = n) (h₁ : n ≤ 0x7F) : String.utf8EncodeChar c = [UInt8.ofNat n] := by
  have hnumber : c.val.toNat = n := hn
  simp only [String.utf8EncodeChar, hnumber, if_pos h₁]

/-- The bytes of a character of two bytes. -/
theorem utf8EncodeChar_two (hn : c.toNat = n) (h₁ : ¬n ≤ 0x7F) (h₂ : n ≤ 0x7FF) :
    String.utf8EncodeChar c = [UInt8.ofNat (n / 64 % 0x20 + 0xC0), UInt8.ofNat (n % 0x40 + 0x80)] := by
  have hnumber : c.val.toNat = n := hn
  simp only [String.utf8EncodeChar, hnumber, if_neg h₁, if_pos h₂]

/-- The bytes of a character of three bytes. -/
theorem utf8EncodeChar_three (hn : c.toNat = n) (h₁ : ¬n ≤ 0x7F) (h₂ : ¬n ≤ 0x7FF) (h₃ : n ≤ 0xFFFF) :
    String.utf8EncodeChar c = [UInt8.ofNat (n / 4096 % 0x10 + 0xE0), UInt8.ofNat (n / 64 % 0x40 + 0x80),
      UInt8.ofNat (n % 0x40 + 0x80)] := by
  have hnumber : c.val.toNat = n := hn
  simp only [String.utf8EncodeChar, hnumber, if_neg h₁, if_neg h₂, if_pos h₃]

/-- The bytes of a character of four bytes. -/
theorem utf8EncodeChar_four (hn : c.toNat = n) (h₁ : ¬n ≤ 0x7F) (h₂ : ¬n ≤ 0x7FF) (h₃ : ¬n ≤ 0xFFFF) :
    String.utf8EncodeChar c = [UInt8.ofNat (n / 262144 % 0x08 + 0xF0), UInt8.ofNat (n / 4096 % 0x40 + 0x80),
      UInt8.ofNat (n / 64 % 0x40 + 0x80), UInt8.ofNat (n % 0x40 + 0x80)] := by
  have hnumber : c.val.toNat = n := hn
  simp only [String.utf8EncodeChar, hnumber, if_neg h₁, if_neg h₂, if_neg h₃]

end Encoding

/-- A character that is encoded is read back, whatever follows it. -/
theorem decodeUtf8_utf8EncodeChar (c : Char) (rest : List UInt8) :
    decodeUtf8 (String.utf8EncodeChar c ++ rest) = (c :: (decodeUtf8 rest).1, (decodeUtf8 rest).2) := by
  obtain ⟨n, hn⟩ : ∃ n, c.toNat = n := ⟨_, rfl⟩
  have hlimit : n < 0x110000 := by
    have hvalid : n.isValidChar := hn ▸ c.valid
    rcases hvalid with hlow | ⟨_, hhigh⟩ <;> omega
  have hmeant : ∀ least, least ≤ n → charAtLeast? least n = some c := by
    intro least hleast
    rw [← hn]
    exact charAtLeast?_toNat (hn ▸ hleast)
  by_cases h₁ : n ≤ 0x7F
  · have hlt : UInt8.ofNat n < 0x80 := (ofNat_lt_iff (n := 0x80) (by omega) (by decide)).mpr (by omega)
    have hvalue : (UInt8.ofNat n).toNat = n := UInt8.toNat_ofNat_of_lt' (Nat.lt_of_le_of_lt h₁ (by decide))
    rw [utf8EncodeChar_one hn h₁, List.singleton_append, decodeUtf8.eq_def]
    simp only [if_pos hlt, hvalue, hmeant 0 (Nat.zero_le n)]
  by_cases h₂ : n ≤ 0x7FF
  · have hbound : n / 64 % 0x20 + 0xC0 < 256 := by omega
    have ha : ¬ UInt8.ofNat (n / 64 % 0x20 + 0xC0) < 0x80 := mt (ofNat_lt_iff (n := 0x80) hbound (by decide)).mp (by omega)
    have hb : ¬ UInt8.ofNat (n / 64 % 0x20 + 0xC0) < 0xC0 := mt (ofNat_lt_iff (n := 0xC0) hbound (by decide)).mp (by omega)
    have hlt : UInt8.ofNat (n / 64 % 0x20 + 0xC0) < 0xE0 := (ofNat_lt_iff (n := 0xE0) hbound (by decide)).mpr (by omega)
    have hvalue := toNat_ofNat_add_sub hbound
    have hsum : n / 64 % 0x20 * 0x40 + n % 0x40 = n := by omega
    have hcontinued := continuation?_ofNat (n := n % 0x40) (by omega)
    rw [utf8EncodeChar_two hn h₁ h₂, List.cons_append, List.singleton_append, decodeUtf8.eq_def]
    simp only [if_neg ha, if_neg hb, if_pos hlt, hvalue, hcontinued, Option.bind_eq_bind, Option.bind_some, hsum,
      hmeant 0x80 (by omega)]
  by_cases h₃ : n ≤ 0xFFFF
  · have hbound : n / 4096 % 0x10 + 0xE0 < 256 := by omega
    have ha : ¬ UInt8.ofNat (n / 4096 % 0x10 + 0xE0) < 0x80 := mt (ofNat_lt_iff (n := 0x80) hbound (by decide)).mp (by omega)
    have hb : ¬ UInt8.ofNat (n / 4096 % 0x10 + 0xE0) < 0xC0 := mt (ofNat_lt_iff (n := 0xC0) hbound (by decide)).mp (by omega)
    have hc : ¬ UInt8.ofNat (n / 4096 % 0x10 + 0xE0) < 0xE0 := mt (ofNat_lt_iff (n := 0xE0) hbound (by decide)).mp (by omega)
    have hlt : UInt8.ofNat (n / 4096 % 0x10 + 0xE0) < 0xF0 := (ofNat_lt_iff (n := 0xF0) hbound (by decide)).mpr (by omega)
    have hvalue := toNat_ofNat_add_sub hbound
    have hsum : n / 4096 % 0x10 * 0x1000 + n / 64 % 0x40 * 0x40 + n % 0x40 = n := by omega
    have hfirst := continuation?_ofNat (n := n / 64 % 0x40) (by omega)
    have hsecond := continuation?_ofNat (n := n % 0x40) (by omega)
    rw [utf8EncodeChar_three hn h₁ h₂ h₃, List.cons_append, List.cons_append, List.singleton_append, decodeUtf8.eq_def]
    simp only [if_neg ha, if_neg hb, if_neg hc, if_pos hlt, hvalue, hfirst, hsecond, Option.bind_eq_bind,
      Option.bind_some, hsum, hmeant 0x800 (by omega)]
  · have hbound : n / 262144 % 0x08 + 0xF0 < 256 := by omega
    have ha : ¬ UInt8.ofNat (n / 262144 % 0x08 + 0xF0) < 0x80 := mt (ofNat_lt_iff (n := 0x80) hbound (by decide)).mp (by omega)
    have hb : ¬ UInt8.ofNat (n / 262144 % 0x08 + 0xF0) < 0xC0 := mt (ofNat_lt_iff (n := 0xC0) hbound (by decide)).mp (by omega)
    have hc : ¬ UInt8.ofNat (n / 262144 % 0x08 + 0xF0) < 0xE0 := mt (ofNat_lt_iff (n := 0xE0) hbound (by decide)).mp (by omega)
    have hd : ¬ UInt8.ofNat (n / 262144 % 0x08 + 0xF0) < 0xF0 := mt (ofNat_lt_iff (n := 0xF0) hbound (by decide)).mp (by omega)
    have hlt : UInt8.ofNat (n / 262144 % 0x08 + 0xF0) < 0xF8 := (ofNat_lt_iff (n := 0xF8) hbound (by decide)).mpr (by omega)
    have hvalue := toNat_ofNat_add_sub hbound
    have hsum : n / 262144 % 0x08 * 0x40000 + n / 4096 % 0x40 * 0x1000 + n / 64 % 0x40 * 0x40 + n % 0x40 = n := by omega
    have hfirst := continuation?_ofNat (n := n / 4096 % 0x40) (by omega)
    have hsecond := continuation?_ofNat (n := n / 64 % 0x40) (by omega)
    have hthird := continuation?_ofNat (n := n % 0x40) (by omega)
    rw [utf8EncodeChar_four hn h₁ h₂ h₃, List.cons_append, List.cons_append, List.cons_append, List.singleton_append,
      decodeUtf8.eq_def]
    simp only [if_neg ha, if_neg hb, if_neg hc, if_neg hd, if_pos hlt]
    rw [bind_three hfirst hsecond hthird, hvalue, hsum, hmeant 0x10000 (by omega)]

/-- The bytes of a text are read back as that text. -/
theorem decodeUtf8_flatMap (s : List Char) : decodeUtf8 (s.flatMap String.utf8EncodeChar) = (s, true) := by
  induction s with
  | nil => rfl
  | cons c s ih => rw [List.flatMap_cons, decodeUtf8_utf8EncodeChar, ih]

/-- The bytes of a string are those of its characters. -/
theorem toList_toUTF8 (s : String) : s.toUTF8.data.toList = s.toList.flatMap String.utf8EncodeChar := by
  rw [String.toUTF8_eq_toByteArray, ← String.utf8Encode_toList, List.utf8Encode, List.toList_data_toByteArray]

end Text

/-- A text is read back from its bytes. -/
theorem Json.sourceOfBytes_toUTF8 (s : String) : sourceOfBytes s.toUTF8.data.toList = s.toList := by
  rw [Text.toList_toUTF8]
  simp only [sourceOfBytes, Text.decodeUtf8_flatMap, if_true]

end LiveMarkup
