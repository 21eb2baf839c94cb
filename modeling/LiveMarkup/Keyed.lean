/-!
# Keyed lists

A finite map is a list of key and value pairs in ascending key order, so that two maps with the same entries are equal
and every walk over a map has one order.
-/

namespace LiveMarkup.Keyed

variable {κ α : Type}

/-- The value stored under a key. -/
def find? [DecidableEq κ] (k : κ) : List (κ × α) → Option α
  | [] => none
  | (j, a) :: rest => if j = k then some a else find? k rest

/-- Stores a value under a key, in place of the one stored there. -/
def insert [LT κ] [DecidableLT κ] (k : κ) (a : α) : List (κ × α) → List (κ × α)
  | [] => [(k, a)]
  | (j, b) :: rest =>
    if k < j then (k, a) :: (j, b) :: rest
    else if j < k then (j, b) :: insert k a rest
    else (k, a) :: rest

/-- Forgets a key. -/
def erase [DecidableEq κ] (k : κ) (m : List (κ × α)) : List (κ × α) :=
  m.filter fun entry => entry.1 ≠ k

/-- Stores every pair of a list in turn; of two pairs with one key the later stays. -/
def insertAll [LT κ] [DecidableLT κ] (m entries : List (κ × α)) : List (κ × α) :=
  entries.foldl (fun m entry => insert entry.1 entry.2 m) m

/-- A value is found under the key it was stored under. -/
theorem find?_insert_self [LT κ] [DecidableLT κ] [DecidableEq κ] [Std.Irrefl (α := κ) (· < ·)] (k : κ) (a : α) (m : List (κ × α)) :
    find? k (insert k a m) = some a := by
  induction m with
  | nil => simp [insert, find?]
  | cons entry rest ih =>
    obtain ⟨j, b⟩ := entry
    simp only [insert]
    split
    · simp [find?]
    · split
      · rename_i hjk
        have hne : j ≠ k := fun h => Std.Irrefl.irrefl k (h ▸ hjk)
        simp [find?, hne, ih]
      · simp [find?]

/-- Forgetting a key that is stored makes the map shorter. -/
theorem length_erase_lt [DecidableEq κ] {k : κ} {a : α} {m : List (κ × α)} (h : find? k m = some a) :
    (erase k m).length < m.length := by
  induction m with
  | nil => simp [find?] at h
  | cons entry rest ih =>
    obtain ⟨j, b⟩ := entry
    by_cases hj : j = k
    · simp only [erase, hj, ne_eq, not_true_eq_false, decide_false, Bool.false_eq_true, not_false_eq_true,
        List.filter_cons_of_neg, List.length_cons]
      exact Nat.lt_succ_of_le (List.length_filter_le _ _)
    · have hr : find? k rest = some a := by simpa [find?, hj] using h
      have := ih hr
      simp only [erase] at this ⊢
      simpa [hj] using this

end LiveMarkup.Keyed
