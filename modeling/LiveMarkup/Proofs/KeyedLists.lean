import Mathlib.Order.Lattice
import Mathlib.Data.List.Nodup
import LiveMarkup.Keyed

/-!
# What is stored in keyed lists

Storing a value under a key changes what is found under this key only (`find?_insert`). In a list in ascending key order,
which stays so (`sorted_insert`), the entries are the pairs of a key and what is found under it (`find?_eq_some_iff`), and
two such lists in which the same is found are the same (`eq_of_find?_eq`).
-/

namespace LiveMarkup.Keyed

variable {κ α : Type} [LinearOrder κ]

/-- The keys ascend. -/
def Sorted (m : List (κ × α)) : Prop :=
  m.Pairwise fun entry later => entry.1 < later.1

omit [LinearOrder κ] in
/-- What is found is one of the entries. -/
theorem mem_of_find? [DecidableEq κ] {k : κ} {a : α} {m : List (κ × α)} (h : find? k m = some a) : (k, a) ∈ m := by
  induction m with
  | nil => simp [find?] at h
  | cons entry rest ih =>
    obtain ⟨j, b⟩ := entry
    by_cases hj : j = k
    · obtain rfl : b = a := by simpa [find?, hj] using h
      simp [hj]
    · exact List.mem_cons_of_mem _ (ih (by simpa [find?, hj] using h))

omit [LinearOrder κ] in
/-- Nothing is found exactly if no entry has the key. -/
theorem find?_eq_none_iff [DecidableEq κ] {k : κ} {m : List (κ × α)} : find? k m = none ↔ ∀ entry ∈ m, entry.1 ≠ k := by
  induction m with
  | nil => simp [find?]
  | cons entry rest ih => by_cases hj : entry.1 = k <;> simp [find?, hj, ih]

omit [LinearOrder κ] in
/-- What comes first in two lists counts. -/
theorem find?_append [DecidableEq κ] (k : κ) (m m' : List (κ × α)) :
    find? k (m ++ m') = (find? k m).or (find? k m') := by
  induction m with
  | nil => rfl
  | cons entry rest ih => by_cases hj : entry.1 = k <;> simp [find?, hj, ih]

omit [LinearOrder κ] in
/-- Values change, and keys stay. -/
theorem find?_map [DecidableEq κ] {β : Type} (f : α → β) (k : κ) (m : List (κ × α)) :
    find? k (m.map fun entry => (entry.1, f entry.2)) = (find? k m).map f := by
  induction m with
  | nil => rfl
  | cons entry rest ih => by_cases hj : entry.1 = k <;> simp [find?, hj, ih]

omit [LinearOrder κ] in
/-- Only the key that is forgotten is not found any more. -/
theorem find?_erase [DecidableEq κ] (k j : κ) (m : List (κ × α)) :
    find? j (erase k m) = if j = k then none else find? j m := by
  induction m with
  | nil => simp [erase, find?]
  | cons entry rest ih =>
    rw [erase] at ih ⊢
    by_cases hk : entry.1 = k
    · rw [List.filter_cons_of_neg (by simp [hk]), ih]
      by_cases hj : j = k
      · simp [hj]
      · simp [find?, hj, hk, Ne.symm hj]
    · rw [List.filter_cons_of_pos (by simp [hk]), find?, ih]
      by_cases hj : entry.1 = j
      · simp [find?, hj ▸ hk, hj]
      · simp [find?, hj]

/-- Only what is found under the key changes. -/
theorem find?_insert (k j : κ) (a : α) (m : List (κ × α)) :
    find? j (insert k a m) = if j = k then some a else find? j m := by
  have hfirst (rest : List (κ × α)) : find? j ((k, a) :: rest) = if j = k then some a else find? j rest := by
    simp only [find?, eq_comm]
  induction m with
  | nil => exact hfirst []
  | cons entry rest ih =>
    obtain ⟨i, b⟩ := entry
    rw [insert]
    split
    · exact hfirst _
    · rename_i hnot
      split
      · rename_i hgt
        rw [find?, ih]
        by_cases hj : j = k
        · simp [hj, hgt.ne]
        · simp [find?, hj]
      · rename_i hnot'
        obtain rfl : i = k := le_antisymm (not_lt.mp hnot) (not_lt.mp hnot')
        rw [hfirst, find?]
        by_cases hj : j = i
        · simp [hj]
        · simp [hj, Ne.symm hj]

/-- Of the values that are stored under a key the last counts. -/
theorem find?_insertAll (k : κ) (m entries : List (κ × α)) :
    find? k (insertAll m entries) = (find? k entries.reverse).or (find? k m) := by
  induction entries generalizing m with
  | nil => rfl
  | cons entry rest ih =>
    have hfirst : find? k (insert entry.1 entry.2 m) = (find? k [entry]).or (find? k m) := by
      rw [find?_insert]
      by_cases hk : k = entry.1
      · simp [find?, hk]
      · simp [find?, hk, Ne.symm hk]
    rw [insertAll, List.foldl_cons, ← insertAll, ih, List.reverse_cons, find?_append, hfirst, Option.or_assoc]

omit [LinearOrder κ] in
/-- An entry is the one that has been stored, or it was there before. -/
theorem mem_insert [LT κ] [DecidableLT κ] {k : κ} {a : α} {m : List (κ × α)} {entry : κ × α} (h : entry ∈ insert k a m) :
    entry = (k, a) ∨ entry ∈ m := by
  induction m with
  | nil => exact .inl (List.mem_singleton.mp h)
  | cons first rest ih =>
    rw [insert] at h
    split at h
    · exact List.mem_cons.mp h
    · split at h
      · rcases List.mem_cons.mp h with rfl | h
        · exact .inr List.mem_cons_self
        · exact (ih h).imp_right (List.mem_cons_of_mem _)
      · exact (List.mem_cons.mp h).imp_right (List.mem_cons_of_mem _)

omit [LinearOrder κ] in
/-- What is there after entries have been put in is one of them or was there. -/
theorem mem_insertAll [LT κ] [DecidableLT κ] {m entries : List (κ × α)} {entry : κ × α} (h : entry ∈ insertAll m entries) :
    entry ∈ entries ∨ entry ∈ m := by
  induction entries generalizing m with
  | nil => exact .inr h
  | cons first rest ih =>
    rcases ih h with hrest | hinsert
    · exact .inl (List.mem_cons_of_mem _ hrest)
    · rcases mem_insert hinsert with rfl | hm
      · exact .inl List.mem_cons_self
      · exact .inr hm

theorem sorted_nil : Sorted ([] : List (κ × α)) :=
  List.Pairwise.nil

/-- Putting in an entry keeps the keys in order. -/
theorem sorted_insert {m : List (κ × α)} (h : Sorted m) (k : κ) (a : α) : Sorted (insert k a m) := by
  induction m with
  | nil => exact List.pairwise_singleton _ _
  | cons first rest ih =>
    obtain ⟨hfirst, hrest⟩ := List.pairwise_cons.mp h
    rw [insert]
    split
    · rename_i hlt
      refine List.pairwise_cons.mpr ⟨?_, h⟩
      intro entry hentry
      rcases List.mem_cons.mp hentry with rfl | hentry
      · exact hlt
      · exact hlt.trans (hfirst entry hentry)
    · rename_i hnot
      split
      · rename_i hgt
        refine List.pairwise_cons.mpr ⟨?_, ih hrest⟩
        intro entry hentry
        rcases mem_insert hentry with rfl | hentry
        · exact hgt
        · exact hfirst entry hentry
      · rename_i hnot'
        obtain rfl : first.1 = k := le_antisymm (not_lt.mp hnot) (not_lt.mp hnot')
        exact List.pairwise_cons.mpr ⟨hfirst, hrest⟩

/-- Putting in entries keeps the keys in order. -/
theorem sorted_insertAll {m : List (κ × α)} (h : Sorted m) (entries : List (κ × α)) : Sorted (insertAll m entries) := by
  induction entries generalizing m with
  | nil => exact h
  | cons entry rest ih => exact ih (sorted_insert h _ _)

variable {m m' : List (κ × α)} {k : κ}

theorem nodup_keys_of_sorted (h : Sorted m) : (m.map Prod.fst).Nodup :=
  List.pairwise_map.mpr (h.imp fun hlt => hlt.ne)

omit [LinearOrder κ] in
/-- Where no key comes twice, the entries are what is found under their keys. -/
theorem find?_eq_some_iff_of_nodup [DecidableEq κ] {a : α} (h : (m.map Prod.fst).Nodup) :
    find? k m = some a ↔ (k, a) ∈ m := by
  refine ⟨mem_of_find?, ?_⟩
  intro hmem
  induction m with
  | nil => cases hmem
  | cons first rest ih =>
    rw [List.map_cons, List.nodup_cons] at h
    rcases List.mem_cons.mp hmem with rfl | hmem
    · simp [find?]
    · have hne : first.1 ≠ k := fun heq => h.1 (heq ▸ List.mem_map_of_mem hmem)
      rw [find?, if_neg hne, ih h.2 hmem]

/-- In a list in key order the entries are what is found under their keys. -/
theorem find?_eq_some_iff (h : Sorted m) {a : α} : find? k m = some a ↔ (k, a) ∈ m :=
  find?_eq_some_iff_of_nodup (nodup_keys_of_sorted h)

omit [LinearOrder κ] in
/-- Where no key comes twice, the order of the entries makes no difference to what is found. -/
theorem find?_perm [DecidableEq κ] (h : m.Perm m') (hkeys : (m.map Prod.fst).Nodup) :
    find? k m = find? k m' := by
  have hkeys' : (m'.map Prod.fst).Nodup := (h.map Prod.fst).nodup_iff.mp hkeys
  refine Option.ext fun a => ?_
  rw [find?_eq_some_iff_of_nodup hkeys, find?_eq_some_iff_of_nodup hkeys', h.mem_iff]

/-- Two lists in key order in which the same is found are the same. -/
theorem eq_of_find?_eq (hm : Sorted m) (hm' : Sorted m') (h : ∀ k, find? k m = find? k m') : m = m' := by
  have hperm : m.Perm m' := by
    refine (List.perm_ext_iff_of_nodup (List.Nodup.of_map _ (nodup_keys_of_sorted hm))
      (List.Nodup.of_map _ (nodup_keys_of_sorted hm'))).mpr ?_
    intro entry
    rw [← find?_eq_some_iff hm, ← find?_eq_some_iff hm', h]
  refine hperm.eq_of_pairwise ?_ hm hm'
  intro entry later _ _ hlt hgt
  exact absurd (hlt.trans hgt) (lt_irrefl _)

/-- Storing what is there already changes nothing. -/
theorem insert_of_find? {a : α} (hm : Sorted m) (h : find? k m = some a) : insert k a m = m := by
  refine eq_of_find?_eq (sorted_insert hm k a) hm fun j => ?_
  rw [find?_insert]
  split
  · rename_i hj
    rw [hj, h]
  · rfl

end LiveMarkup.Keyed
