import Mathlib.Data.Multiset.Range
import Mathlib.Data.Multiset.AddSub
import Mathlib.Data.Multiset.Filter
import LiveMarkup.Store.Slots

/-!
# What slots hold

The slots of a store are seen as the multiset of their keys and values (`Slots.entries`). Storing a value adds one entry,
taking a value out removes one, and a change exchanges one; every other entry stays. This holds of slots whose list of
vacant ones is right (`Slots.Sound`).
-/

namespace LiveMarkup.Slots

variable {α : Type}

/-- The entry in a slot, if it is occupied. -/
def entryAt (s : Slots α) (i : Nat) : Option (SlotKey × α) :=
  match s.slots[i]? with
  | some slot => slot.value.map fun a => (⟨i, slot.generation⟩, a)
  | none => none

/-- The keys that fit a slot, with the values they stand for. -/
def entries (s : Slots α) : Multiset (SlotKey × α) :=
  (Multiset.range s.slots.size).filterMap s.entryAt

/-- The list of vacant slots names each of them once and no occupied one, and the occupied ones are counted right. -/
structure Sound (s : Slots α) : Prop where
  nodup_vacant : s.vacant.Nodup
  mem_vacant : ∀ i, i ∈ s.vacant ↔ ∃ slot, s.slots[i]? = some slot ∧ slot.value = none
  count_eq : s.count = s.entries.card

/-- The entry in a slot is the key that fits it, with its value. -/
theorem entryAt_eq_some_iff {s : Slots α} {i : Nat} {k : SlotKey} {a : α} :
    s.entryAt i = some (k, a) ↔ i = k.index ∧ s.get? k = some a := by
  obtain ⟨index, generation⟩ := k
  constructor
  · intro h
    simp only [entryAt] at h
    split at h
    · rename_i slot hs
      obtain ⟨b, hb, he⟩ := Option.map_eq_some_iff.mp h
      simp only [Prod.mk.injEq, SlotKey.mk.injEq] at he
      obtain ⟨⟨rfl, rfl⟩, rfl⟩ := he
      simp [get?, hs, hb]
    · cases h
  · rintro ⟨rfl, h⟩
    simp only [get?] at h
    split at h
    · rename_i slot hs
      split at h
      · rename_i hg
        simp [entryAt, hs, h, hg]
      · cases h
    · cases h

/-- An entry is a key that fits a slot, with the value in it. -/
theorem mem_entries {s : Slots α} {k : SlotKey} {a : α} : (k, a) ∈ s.entries ↔ s.get? k = some a := by
  simp only [entries, Multiset.mem_filterMap, Multiset.mem_range, entryAt_eq_some_iff]
  constructor
  · rintro ⟨_, _, rfl, h⟩
    exact h
  · intro h
    refine ⟨k.index, ?_, rfl, h⟩
    simp only [get?] at h
    split at h
    · rename_i hs
      exact (Array.getElem?_eq_some_iff.mp hs).1
    · simp at h

/-- No two entries have the same key. -/
theorem nodup_keys (s : Slots α) : (s.entries.map Prod.fst).Nodup := by
  have hn : s.entries.Nodup := by
    refine Multiset.Nodup.filterMap s.entryAt ?_ (Multiset.nodup_range _)
    rintro i j ⟨k, a⟩ hi hj
    rw [Option.mem_def, entryAt_eq_some_iff] at hi hj
    rw [hi.1, hj.1]
  refine hn.map_on ?_
  rintro ⟨k, a⟩ hx ⟨_, b⟩ hy rfl
  rw [mem_entries] at hx hy
  rw [hx] at hy
  cases hy
  rfl

/-- There are no more entries than slots. -/
theorem card_entries_le (s : Slots α) : s.entries.card ≤ s.slots.size := by
  have hlist : s.entries = ((List.range s.slots.size).filterMap s.entryAt : Multiset (SlotKey × α)) := rfl
  rw [hlist, Multiset.coe_card]
  exact (List.length_filterMap_le _ _).trans_eq List.length_range

/-- Functions that agree on a multiset make the same of it. -/
theorem filterMap_congr {β γ : Type} {f g : β → Option γ} {m : Multiset β} (h : ∀ x ∈ m, f x = g x) :
    m.filterMap f = m.filterMap g := by
  induction m using Quotient.inductionOn with
  | h l => exact congrArg _ (List.filterMap_congr h)

/-- Slots that differ in one slot only have the same entries besides the one there. -/
theorem entries_of_agree {s t : Slots α} {i : Nat} (hi : i < s.slots.size) (hsize : t.slots.size = s.slots.size)
    (h : ∀ j, j ≠ i → t.slots[j]? = s.slots[j]?) :
    ∃ rest, s.entries = (s.entryAt i).toList + rest ∧ t.entries = (t.entryAt i).toList + rest := by
  have hr : i ::ₘ (Multiset.range s.slots.size).erase i = Multiset.range s.slots.size :=
    Multiset.cons_erase (Multiset.mem_range.mpr hi)
  have hsplit : ∀ u : Slots α, u.slots.size = s.slots.size →
      u.entries = (u.entryAt i).toList + ((Multiset.range s.slots.size).erase i).filterMap u.entryAt := by
    intro u hu
    rw [entries, hu, ← hr]
    cases hv : u.entryAt i with
    | none => simp [Multiset.filterMap_cons_none _ _ hv]
    | some e => simp [Multiset.filterMap_cons_some _ _ _ hv]
  refine ⟨_, hsplit s rfl, ?_⟩
  have hrest : ∀ j ∈ (Multiset.range s.slots.size).erase i, t.entryAt j = s.entryAt j := by
    intro j hj
    have hne : j ≠ i := by
      rintro rfl
      exact (Multiset.nodup_range _).notMem_erase hj
    simp only [entryAt, h j hne]
  rw [hsplit t hsize, filterMap_congr hrest]

/-- No slots at all are sound. -/
theorem Sound.empty : (empty : Slots α).Sound :=
  ⟨List.nodup_nil, by simp [Slots.empty], rfl⟩

/-- A vacant slot is a slot. -/
theorem Sound.lt_size {s : Slots α} (hs : s.Sound) {i : Nat} (hi : i ∈ s.vacant) : i < s.slots.size := by
  obtain ⟨slot, h, _⟩ := (hs.mem_vacant i).mp hi
  exact (Array.getElem?_eq_some_iff.mp h).1

/-- There is no entry in a vacant slot. -/
theorem Sound.entryAt_vacant {s : Slots α} (hs : s.Sound) {i : Nat} (hi : i ∈ s.vacant) : s.entryAt i = none := by
  obtain ⟨slot, h, hv⟩ := (hs.mem_vacant i).mp hi
  simp [entryAt, h, hv]

/-- Storing a value adds the entry of its key. -/
theorem Sound.entries_insert {s : Slots α} (hs : s.Sound) (a : α) :
    (s.insert a).1.entries = ((s.insert a).2, a) ::ₘ s.entries := by
  unfold insert
  cases hv : s.vacant with
  | nil =>
    have hold : ∀ i ∈ Multiset.range s.slots.size,
        entryAt ⟨s.slots.push ⟨0, some a⟩, [], s.count + 1⟩ i = s.entryAt i := by
      intro i hi
      have hne : i ≠ s.slots.size := Nat.ne_of_lt (Multiset.mem_range.mp hi)
      simp [entryAt, Array.getElem?_push, hne]
    have hnew : entryAt ⟨s.slots.push ⟨0, some a⟩, [], s.count + 1⟩ s.slots.size = some (⟨s.slots.size, 0⟩, a) := by
      simp [entryAt]
    simp only [entries, Array.size_push, Multiset.range_succ]
    rw [Multiset.filterMap_cons_some _ _ _ hnew, filterMap_congr hold]
  | cons i vacant =>
    have hi : i ∈ s.vacant := by simp [hv]
    have hlt := hs.lt_size hi
    obtain ⟨rest, hold, hnew⟩ := entries_of_agree (s := s)
      (t := ⟨s.slots.setIfInBounds i ⟨(s.slots[i]?.map Slot.generation).getD 0, some a⟩, vacant, s.count + 1⟩) hlt
      (by simp) (by
        intro j hj
        simp [hj.symm])
    rw [hs.entryAt_vacant hi] at hold
    have he : entryAt ⟨s.slots.setIfInBounds i ⟨(s.slots[i]?.map Slot.generation).getD 0, some a⟩, vacant, s.count + 1⟩ i =
        some (⟨i, (s.slots[i]?.map Slot.generation).getD 0⟩, a) := by
      simp [entryAt, hlt]
    rw [he] at hnew
    rw [hnew, hold]
    simp

/-- Storing a value keeps slots sound. -/
theorem Sound.insert {s : Slots α} (hs : s.Sound) (a : α) : (s.insert a).1.Sound := by
  have hcount : (s.insert a).1.count = (s.insert a).1.entries.card := by
    rw [hs.entries_insert, Multiset.card_cons, ← hs.count_eq]
    unfold Slots.insert
    cases s.vacant <;> rfl
  refine ⟨?_, ?_, hcount⟩
  · unfold Slots.insert
    cases hv : s.vacant with
    | nil => exact List.nodup_nil
    | cons i vacant =>
      have := hs.nodup_vacant
      rw [hv] at this
      exact (List.nodup_cons.mp this).2
  · intro j
    unfold Slots.insert
    cases hv : s.vacant with
    | nil =>
      have hnone := hs.mem_vacant j
      rw [hv] at hnone
      simp only [List.not_mem_nil, false_iff, not_exists, not_and] at hnone ⊢
      intro slot hslot
      rw [Array.getElem?_push] at hslot
      split at hslot
      · cases hslot
        simp
      · exact hnone slot hslot
    | cons i vacant =>
      have hnodup := hs.nodup_vacant
      have hmem := hs.mem_vacant j
      have hlt := hs.lt_size (i := i) (by simp [hv])
      rw [hv] at hnodup hmem
      rw [List.mem_cons] at hmem
      by_cases hj : j = i
      · subst hj
        simp [hlt, (List.nodup_cons.mp hnodup).1]
      · simp only [hj, false_or] at hmem
        rw [hmem]
        simp [Ne.symm hj]

/-- The slot that a key fits. -/
theorem getElem?_of_get? {s : Slots α} {k : SlotKey} {a : α} (h : s.get? k = some a) :
    s.slots[k.index]? = some ⟨k.generation, some a⟩ := by
  simp only [get?] at h
  split at h
  · rename_i slot hs
    split at h
    · rename_i hg
      rw [hs, ← hg, ← h]
    · simp at h
  · simp at h

/-- A slot that a key fits is put another way: its entry is exchanged for what is put there. -/
theorem entries_set {s : Slots α} {k : SlotKey} {a : α} {rest : Multiset (SlotKey × α)} (slot : Slot α)
    (vacant : List Nat) (count : Nat) (h : s.entries = (k, a) ::ₘ rest) :
    (⟨s.slots.setIfInBounds k.index slot, vacant, count⟩ : Slots α).entries =
      (slot.value.map fun b => ((⟨k.index, slot.generation⟩ : SlotKey), b)).toList + rest := by
  have hget : s.get? k = some a := mem_entries.mp (by simp [h])
  have hslot := getElem?_of_get? hget
  have hlt := (Array.getElem?_eq_some_iff.mp hslot).1
  obtain ⟨others, hold, hnew⟩ := entries_of_agree (s := s) (t := ⟨s.slots.setIfInBounds k.index slot, vacant, count⟩)
    hlt (by simp) (by
      intro j hj
      simp [hj.symm])
  have hat : s.entryAt k.index = some (k, a) := entryAt_eq_some_iff.mpr ⟨rfl, hget⟩
  rw [hat, h] at hold
  have hrest : rest = others := by simpa using hold
  rw [hnew, hrest]
  simp [entryAt, hlt]

/-- Changing a value exchanges its entry. -/
theorem entries_modify {s : Slots α} {k : SlotKey} {a : α} {rest : Multiset (SlotKey × α)} (f : α → α)
    (h : s.entries = (k, a) ::ₘ rest) : (s.modify k f).entries = (k, f a) ::ₘ rest := by
  have hget : s.get? k = some a := mem_entries.mp (by simp [h])
  simp only [modify, hget]
  rw [entries_set ⟨k.generation, some (f a)⟩ s.vacant s.count h]
  simp

/-- Changing a value keeps slots sound. -/
theorem Sound.modify {s : Slots α} (hs : s.Sound) (k : SlotKey) (f : α → α) : (s.modify k f).Sound := by
  cases hget : s.get? k with
  | none => simpa [Slots.modify, hget] using hs
  | some a =>
    obtain ⟨rest, hrest⟩ := Multiset.exists_cons_of_mem (mem_entries.mpr hget)
    have hslot := getElem?_of_get? hget
    have hlt := (Array.getElem?_eq_some_iff.mp hslot).1
    refine ⟨?_, ?_, ?_⟩
    · simpa [Slots.modify, hget] using hs.nodup_vacant
    · intro i
      simp only [Slots.modify, hget, hs.mem_vacant i]
      by_cases hi : i = k.index
      · subst hi
        have hv := (Array.getElem?_eq_some_iff.mp hslot).2
        simp [hlt, hv]
      · simp [Ne.symm hi]
    · rw [entries_modify f hrest, Multiset.card_cons]
      simp only [Slots.modify, hget]
      rw [hs.count_eq, hrest, Multiset.card_cons]

/-- A value that is there can be taken out: its entry goes, and the slots stay sound. -/
theorem Sound.remove? {s : Slots α} (hs : s.Sound) {k : SlotKey} {a : α} {rest : Multiset (SlotKey × α)}
    (h : s.entries = (k, a) ::ₘ rest) : ∃ s', s.remove? k = some (s', a) ∧ s'.entries = rest ∧ s'.Sound := by
  have hget : s.get? k = some a := mem_entries.mp (by simp [h])
  have hslot := getElem?_of_get? hget
  have hlt := (Array.getElem?_eq_some_iff.mp hslot).1
  have hentries := entries_set ⟨k.generation + 1, none⟩ (k.index :: s.vacant) (s.count - 1) h
  rw [Option.map_none, Option.toList_none, Multiset.coe_nil, Multiset.zero_add] at hentries
  refine ⟨⟨s.slots.setIfInBounds k.index ⟨k.generation + 1, none⟩, k.index :: s.vacant, s.count - 1⟩,
    by simp only [Slots.remove?, hget], hentries, ?_, ?_, ?_⟩
  · refine List.nodup_cons.mpr ⟨?_, hs.nodup_vacant⟩
    intro hv
    obtain ⟨slot, hfound, hnone⟩ := (hs.mem_vacant k.index).mp hv
    rw [hslot] at hfound
    cases hfound
    simp at hnone
  · intro i
    rw [List.mem_cons, hs.mem_vacant i]
    by_cases hi : i = k.index
    · subst hi
      simp [hlt]
    · simp [Ne.symm hi, hi]
  · rw [hentries]
    simp only [hs.count_eq, h, Multiset.card_cons, Nat.add_sub_cancel]

end LiveMarkup.Slots
