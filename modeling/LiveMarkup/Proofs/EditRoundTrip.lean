import Mathlib
import LiveMarkup.Proofs.EditText
import LiveMarkup.Proofs.StoreHistory
import LiveMarkup.Proofs.Utf8
import LiveMarkup.Proofs.WordNumbers

/-!
# Edits and their bytes

Edits that are written are read back, unless their names are illegal; then reading refuses them for just that reason. Edits
that were read have legal names and numbers of 64 bits (`Edit.numbers_lt_of_ofText`), so they come back when they are written
again, in whatever form they were read (`Edit.codec_round_trip`).
-/

namespace LiveMarkup

open Json
open Json.Number (wordLimit)

/-! ## Fields -/

namespace Json

section Fields

variable {α : Type} {read : Json → Except ReadError α} {Q : α → Prop}

/-- Items that are read one by one have what reading gives to each. -/
theorem forall_of_mapM (hread : ∀ v a, v.Fits → read v = .ok a → Q a) {items : List Json} {out : List α}
    (hitems : ∀ v ∈ items, v.Fits) (h : items.mapM read = .ok out) : ∀ a ∈ out, Q a := by
  induction items generalizing out with
  | nil =>
    cases h
    exact List.forall_mem_nil _
  | cons v rest ih =>
    obtain ⟨hv, hrest⟩ := List.forall_mem_cons.mp hitems
    rw [List.mapM_cons] at h
    obtain ⟨a, ha, h⟩ := exists_of_bind_eq_ok h
    obtain ⟨more, hmore, h⟩ := exists_of_bind_eq_ok h
    cases h
    exact List.forall_mem_cons.mpr ⟨hread v a hv ha, ih hrest hmore⟩

/-- What holds of each value that is read holds of all values of a list. -/
theorem forall_of_toList? (hread : ∀ v a, v.Fits → read v = .ok a → Q a) {v : Json} {out : List α} (hv : v.Fits)
    (h : toList? read v = .ok out) : ∀ a ∈ out, Q a := by
  cases v with
  | array items => exact forall_of_mapM hread (fits_array.mp hv) h
  | _ => cases h

/-- A number that is read from a value that fits is one of a word. -/
theorem lt_of_toNat? {v : Json} {n : Nat} (hv : v.Fits) (h : toNat? v = .ok n) : n < wordLimit := by
  unfold toNat? at h
  split at h
  · cases h
    exact hv n rfl
  · cases h

/-- A member that is found fits if all members do. -/
theorem fits_of_member? {key : String} {members : List (String × Json)} {v : Json} (hmembers : ∀ m ∈ members, m.2.Fits)
    (h : member? key members = .ok (some v)) : v.Fits := by
  unfold member? at h
  split at h
  · cases h
  · rename_i other value hfilter
    cases h
    have hmem : (other, v) ∈ members.filter (fun m => m.1 = key) := hfilter ▸ List.mem_singleton_self _
    exact hmembers _ (List.mem_of_mem_filter hmem)
  · cases h

/-- A field that may be left out has what reading gives, or what stands for its absence has it. -/
theorem of_optional (hread : ∀ v a, v.Fits → read v = .ok a → Q a) {absent a : α} {key : String}
    {members : List (String × Json)} (habsent : Q absent) (hmembers : ∀ m ∈ members, m.2.Fits)
    (h : optional read absent key members = .ok a) : Q a := by
  obtain ⟨found, hfound, h⟩ := exists_of_bind_eq_ok h
  cases found with
  | none =>
    cases h
    exact habsent
  | some v => exact hread v a (fits_of_member? hmembers hfound) h

/-- Values that are named by a list of keys fit as they are. -/
theorem fits_of_named {keys : List String} {items : List Json} {members : List (String × Json)}
    (hitems : ∀ v ∈ items, v.Fits) (h : named keys items = .ok members) : ∀ m ∈ members, m.2.Fits := by
  unfold named at h
  split at h
  · cases h
    intro m hm
    exact hitems _ (List.of_mem_zip hm).2
  · cases h

end Fields

end Json

/-! ## Numbers of what is read -/

namespace Record

/-- The count of a record that is read is a number of a word. -/
theorem children_lt_of_ofMembers {isElement : Bool} {members : List (String × Json)} {r : Record}
    (hmembers : ∀ m ∈ members, m.2.Fits) (h : ofMembers isElement members = .ok r) : r.children < wordLimit := by
  cases isElement with
  | true =>
    obtain ⟨space, _, h⟩ := exists_of_bind_eq_ok h
    obtain ⟨base, _, h⟩ := exists_of_bind_eq_ok h
    obtain ⟨attributes, _, h⟩ := exists_of_bind_eq_ok h
    obtain ⟨children, hchildren, h⟩ := exists_of_bind_eq_ok h
    cases h
    exact of_optional (fun _ _ => lt_of_toNat?) (by decide) hmembers hchildren
  | false =>
    obtain ⟨text, _, h⟩ := exists_of_bind_eq_ok h
    cases h
    show 0 < wordLimit
    decide

/-- A record that is read announces a number of children that fits. -/
theorem children_lt_of_ofJson {numbered : Bool} {v : Json} {r : Record} (hv : v.Fits) (h : ofJson numbered v = .ok r) :
    r.children < wordLimit := by
  unfold ofJson at h
  split at h
  · obtain ⟨_, _, h⟩ := exists_of_bind_eq_ok h
    exact children_lt_of_ofMembers (fits_object.mp hv) h
  · obtain ⟨_, _, h⟩ := exists_of_bind_eq_ok h
    obtain ⟨members, hnamed, h⟩ := exists_of_bind_eq_ok h
    have hitems := (List.forall_mem_cons.mp (fits_array.mp hv)).2
    exact children_lt_of_ofMembers (fits_of_named hitems hnamed) h
  · cases h

end Record

/-- A tree that is read has numbers of children that fit. -/
theorem Tree.children_lt_of_ofJson {v : Json} {t : Tree} (hv : v.Fits) (h : ofJson v = .ok t) :
    ∀ r ∈ t.records, r.children < wordLimit := by
  obtain ⟨records, hrecords, h⟩ := exists_of_bind_eq_ok h
  unfold Record.readTree at h
  split at h
  · rename_i hread
    cases h
    rw [Record.read_eq_ok_iff.mp hread]
    exact forall_of_toList? (fun _ _ => Record.children_lt_of_ofJson) hv hrecords
  · cases h

namespace Edit

/-- The numbers of the fields that have been read fit. -/
structure Draft.Fits (d : Draft) : Prop where
  path : ∀ path, d.path = some path → ∀ n ∈ path, n < wordLimit
  tree : ∀ t, d.tree = some t → ∀ r ∈ t.records, r.children < wordLimit

namespace Draft

theorem Fits.empty : Draft.empty.Fits :=
  ⟨fun _ h => (by cases h), fun _ h => (by cases h)⟩

/-- A draft fits with one more field that does. -/
theorem Fits.put {d d' : Draft} (h : d.Fits) {f : Field} {v : Json} (hv : v.Fits) (hput : d.put f v = .ok d') :
    d'.Fits := by
  unfold Draft.put at hput
  split at hput
  · cases hput
  · cases f with
    | path =>
      obtain ⟨path, hpath, hput⟩ := exists_of_bind_eq_ok hput
      cases hput
      refine ⟨?_, h.tree⟩
      rintro _ ⟨⟩
      exact forall_of_toList? (fun _ _ => lt_of_toNat?) hv hpath
    | attributes =>
      obtain ⟨attributes, _, hput⟩ := exists_of_bind_eq_ok hput
      cases hput
      exact ⟨h.path, h.tree⟩
    | text =>
      obtain ⟨text, _, hput⟩ := exists_of_bind_eq_ok hput
      cases hput
      exact ⟨h.path, h.tree⟩
    | tree =>
      obtain ⟨tree, htree, hput⟩ := exists_of_bind_eq_ok hput
      cases hput
      refine ⟨h.path, ?_⟩
      rintro _ ⟨⟩
      exact Tree.children_lt_of_ofJson hv htree

/-- A draft fits with more fields that do. -/
theorem Fits.putAll {d d' : Draft} (h : d.Fits) {fields : List (Field × Json)} (hfields : ∀ m ∈ fields, m.2.Fits)
    (hput : d.putAll fields = .ok d') : d'.Fits := by
  induction fields generalizing d with
  | nil =>
    cases hput
    exact h
  | cons m rest ih =>
    obtain ⟨hm, hrest⟩ := List.forall_mem_cons.mp hfields
    rw [Draft.putAll] at hput
    split at hput
    · cases hput
    · rename_i hfirst
      exact ih (h.put hm hfirst) hrest hput

/-- An edit has the numbers of its fields. -/
theorem Fits.finish {d : Draft} (h : d.Fits) {kind : Kind} {e : Edit} (hfinish : d.finish kind = .ok e) :
    ∀ n ∈ e.numbers, n < wordLimit := by
  have hwith : ∀ path t, d.path = some path → d.tree = some t →
      ∀ n ∈ path ++ t.records.map Record.children, n < wordLimit := by
    intro path t hpath ht
    rw [List.forall_mem_append, List.forall_mem_map]
    exact ⟨h.path path hpath, h.tree t ht⟩
  unfold Draft.finish at hfinish
  split at hfinish
  · cases hfinish
    exact h.path _ rfl
  · cases hfinish
    exact h.path _ rfl
  · cases hfinish
    exact hwith _ _ rfl rfl
  · cases hfinish
    exact h.path _ rfl
  · cases hfinish
    exact hwith _ _ rfl rfl
  · cases hfinish

end Draft

/-- An edit that is read has numbers that fit. -/
theorem numbers_lt_of_ofJson {v : Json} {e : Edit} (hv : v.Fits) (h : ofJson v = .ok e) :
    ∀ n ∈ e.numbers, n < wordLimit := by
  unfold ofJson at h
  split at h
  · rename_i members
    obtain ⟨kind, _, h⟩ := exists_of_bind_eq_ok h
    obtain ⟨draft, hdraft, h⟩ := exists_of_bind_eq_ok h
    refine (Draft.Fits.empty.putAll ?_ hdraft).finish h
    intro m hm
    obtain ⟨member, hmember, hfield⟩ := List.mem_filterMap.mp hm
    obtain ⟨_, _, rfl⟩ := Option.map_eq_some_iff.mp hfield
    exact fits_object.mp hv member hmember
  · obtain ⟨kind, _, h⟩ := exists_of_bind_eq_ok h
    obtain ⟨draft, hdraft, h⟩ := exists_of_bind_eq_ok h
    obtain ⟨edit, hedit, h⟩ := exists_of_bind_eq_ok h
    have hitems := (List.forall_mem_cons.mp (fits_array.mp hv)).2
    split at h
    · cases h
      refine (Draft.Fits.empty.putAll ?_ hdraft).finish hedit
      intro m hm
      exact hitems _ (List.of_mem_zip hm).2
    · cases h
  · cases h

/-- The edits that a text holds have numbers that fit. -/
theorem numbers_lt_of_ofText {text : List Char} {edits : List Edit} (h : ofText text = .ok edits) :
    ∀ e ∈ edits, ∀ n ∈ e.numbers, n < wordLimit := by
  obtain ⟨read, hread, h⟩ := exists_of_bind_eq_ok h
  split at h
  · cases h
    exact forall_of_mapM (fun _ _ => numbers_lt_of_ofJson) (Items.fits_ofText text) hread
  · cases h

/-! ## Round trip -/

/-- Edits are read exactly if they are well formed and their names are legal. -/
theorem decode_eq_ok_iff {text : List Char} {edits : List Edit} :
    decode text = .ok edits ↔ ofText text = .ok edits ∧ checkNames 0 edits = .ok () := by
  constructor
  · intro h
    obtain ⟨read, hread, h⟩ := exists_of_bind_eq_ok h
    obtain ⟨_, hnames, h⟩ := exists_of_bind_eq_ok h
    cases h
    exact ⟨hread, hnames⟩
  · rintro ⟨hread, hnames⟩
    rw [decode, hread]
    simp only [bind, Except.bind, hnames]

/-- The bytes that edits are written in. -/
def encodeBytes (edits : List Edit) : List UInt8 :=
  (encode edits).toUTF8.data.toList

/-- Reading the bytes of edits. -/
def decodeBytes (bytes : List UInt8) : Except ReadError (List Edit) :=
  decode (sourceOfBytes bytes)

/-- Edits whose numbers are words of 64 bits are read back from their bytes if their names are legal; if one is not, reading
fails as the check of the names does. Whatever edits are read from any bytes have legal names, and are read back from the
bytes that they are written in. -/
theorem codec_round_trip :
    (∀ edits : List Edit, (∀ e ∈ edits, ∀ n ∈ e.numbers, n < wordLimit) →
      match checkNames 0 edits with
      | .ok () => decodeBytes (encodeBytes edits) = .ok edits
      | .error fault => decodeBytes (encodeBytes edits) = .error fault) ∧
      ∀ (bytes : List UInt8) (edits : List Edit), decodeBytes bytes = .ok edits →
        checkNames 0 edits = .ok () ∧ decodeBytes (encodeBytes edits) = .ok edits := by
  have hwritten : ∀ edits, decodeBytes (encodeBytes edits) = decode (encode edits).toList := by
    intro edits
    rw [decodeBytes, encodeBytes, sourceOfBytes_toUTF8]
  constructor
  · intro edits hnumbers
    rw [hwritten, decode, ofText_encode hnumbers]
    cases hnames : checkNames 0 edits with
    | ok _ => simp only [bind, Except.bind, hnames]
    | error fault => simp only [bind, Except.bind, hnames]
  · intro bytes edits h
    obtain ⟨hread, hnames⟩ := decode_eq_ok_iff.mp h
    refine ⟨hnames, ?_⟩
    rw [hwritten]
    exact decode_encode hnames (numbers_lt_of_ofText hread)

/-- Edits of all kinds, with what is left out where it is empty and what is not. -/
def ofEachKind : List Edit :=
  [.setAttributes [0] [⟨⟨"xlink", "href"⟩, "a\"b"⟩], .setText [0, 1] "\n", .append [] (.element ⟨"", "p"⟩ [] (.leaf "hi" .nil)),
    .remove [2], .replace [0] (.element ⟨"svg", "g"⟩ [⟨⟨"", "id"⟩, ""⟩] .nil)]

theorem ofEachKind_read_back : decodeBytes (encodeBytes ofEachKind) = .ok ofEachKind ∧
    decodeBytes (encodeBytes (ofEachKind ++ [.append [] (.element ⟨"", "b c"⟩ [] .nil)])) =
      .error (.illegalName 5 .elementName ⟨"", "b c"⟩) := by
  have hnumbers : ∀ e ∈ ofEachKind, ∀ n ∈ e.numbers, n < wordLimit := by decide
  have hnumbers' : ∀ e ∈ ofEachKind ++ [.append [] (.element ⟨"", "b c"⟩ [] .nil)], ∀ n ∈ e.numbers, n < wordLimit := by
    decide
  have hnames : checkNames 0 ofEachKind = .ok () := by cbv
  have hnames' : checkNames 0 (ofEachKind ++ [.append [] (.element ⟨"", "b c"⟩ [] .nil)]) =
      .error (.illegalName 5 .elementName ⟨"", "b c"⟩) := by cbv
  have hlegal := codec_round_trip.1 ofEachKind hnumbers
  have hillegal := codec_round_trip.1 _ hnumbers'
  rw [hnames] at hlegal
  rw [hnames'] at hillegal
  exact ⟨hlegal, hillegal⟩

end Edit

end LiveMarkup
