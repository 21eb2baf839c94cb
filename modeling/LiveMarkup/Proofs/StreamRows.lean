import Mathlib.Data.List.DropRight
import Mathlib.Data.List.InsertIdx
import Mathlib.Data.List.Perm.Subperm
import LiveMarkup.Rendered.Stream

/-!
# Rows that are put in

Among rows with different ids there is one place at most for a row that is put in, and the ids stay different
(`DistinctIds.place`). An insertion takes the first row that has come for its id and has not been taken, so the insertions for
one id take the rows that have come for it one after the other, whatever the insertions for other ids do (`filter_leftover`).
What a further insertion does follows from this (`insertRows_concat`).
-/

namespace LiveMarkup.Rendered

/-- No two rows show one id. -/
def DistinctIds (rows : List Row) : Prop :=
  (rows.filterMap rowId?).Nodup

instance (rows : List Row) : Decidable (DistinctIds rows) :=
  inferInstanceAs (Decidable (rows.filterMap rowId?).Nodup)

/-- The number of insertions for an id. -/
def countOf (id : String) (inserts : List Insert) : Nat :=
  inserts.countP fun item => item.id = id

/-- The row that one more insertion for an id takes. -/
def nextRow? (incoming : List Row) (inserts : List Insert) (id : String) : Option Row :=
  (incoming.filter (rowHas id))[countOf id inserts]?

/-- The rows with a row in the place of the one with the id of an insertion, or else at the position of the insertion. -/
def Insert.place (item : Insert) (row : Row) (rows : List Row) : List Row :=
  if rows.any (rowHas item.id) then rows.map fun r => if rowHas item.id r then row else r
  else insertAt item.position row rows

/-- The first rows, as many as the limit of an insertion says, or the last ones if it is negative. -/
def Insert.cut (item : Insert) (rows : List Row) : List Row :=
  match item.limit with
  | none => rows
  | some n => if n < 0 then rows.rtake n.natAbs else rows.take n.natAbs

variable {rows rows' incoming rest : List Row} {inserts : List Insert} {item : Insert} {row r : Row} {id : String}

/-! ## Ids -/

/-- A row has the id that is found first in its dynamics, and no other. -/
theorem rowHas_iff : rowHas id row = true ↔ rowId? row = some id := by
  rw [rowHas, beq_iff_eq]

/-- An id is one of the rows' if one of them has it. -/
theorem mem_ids : id ∈ rows.filterMap rowId? ↔ ∃ r ∈ rows, rowHas id r := by
  simp only [List.mem_filterMap, rowHas_iff]

/-- A row has at most one id. -/
theorem rowHas_of_ne {other : String} (h : rowHas id row = true) (hne : other ≠ id) : rowHas other row = false := by
  rw [← Bool.not_eq_true, rowHas_iff, rowHas_iff.mp h]
  exact fun he => hne (Option.some.inj he).symm

/-- Among rows with different ids a row is the only one with its id. -/
theorem DistinctIds.filter_eq (h : DistinctIds rows) (hrow : row ∈ rows) (hid : rowHas id row = true) :
    rows.filter (rowHas id) = [row] := by
  obtain ⟨before, after, rfl⟩ := List.append_of_mem hrow
  rw [DistinctIds, List.filterMap_append, List.filterMap_cons_some (rowHas_iff.mp hid), List.nodup_append] at h
  obtain ⟨_, hafter, hbefore⟩ := h
  have hnone : ∀ l : List Row, id ∉ l.filterMap rowId? → l.filter (rowHas id) = [] := by
    intro l hl
    refine List.filter_eq_nil_iff.mpr ?_
    intro r hr hr'
    exact hl (mem_ids.mpr ⟨r, hr, hr'⟩)
  have hb := hnone before fun hb => hbefore id hb id List.mem_cons_self rfl
  have ha := hnone after (List.nodup_cons.mp hafter).1
  rw [List.filter_append, hb, List.filter_cons_of_pos hid, ha, List.nil_append]

/-- Ids stay distinct when rows are left out. -/
theorem DistinctIds.sublist (h : DistinctIds rows) (hsub : rows'.Sublist rows) : DistinctIds rows' :=
  List.Nodup.sublist (hsub.filterMap rowId?) h

/-! ## One insertion -/

/-- If no row can be taken for an id, none has it. -/
theorem takeRow?_eq_none (h : takeRow? id rows = none) : rows.filter (rowHas id) = [] := by
  induction rows with
  | nil => rfl
  | cons r rest ih =>
    rw [takeRow?] at h
    split at h
    · cases h
    · rename_i hr
      split at h
      · cases h
      · rename_i hrest
        rw [List.filter_cons_of_neg hr, ih hrest]

/-- The row that is taken is the first with the id, and the others are left in their order. -/
theorem takeRow?_eq_some (h : takeRow? id rows = some (row, rest)) : rowHas id row = true ∧
    ∃ before after, rows = before ++ row :: after ∧ rest = before ++ after ∧ before.filter (rowHas id) = [] := by
  induction rows generalizing rest with
  | nil => cases h
  | cons r rows ih =>
    rw [takeRow?] at h
    split at h
    · rename_i hr
      cases h
      exact ⟨hr, [], rows, rfl, rfl, rfl⟩
    · rename_i hr
      split at h
      · rename_i found left htake
        cases h
        obtain ⟨hrow, before, after, rfl, rfl, hbefore⟩ := ih htake
        exact ⟨hrow, r :: before, after, rfl, rfl, by rw [List.filter_cons_of_neg hr, hbefore]⟩
      · cases h

/-- If no row can be exchanged for an id, none has it. -/
theorem exchange?_eq_none (h : exchange? id row rows = none) : rows.any (rowHas id) = false := by
  induction rows with
  | nil => rfl
  | cons r rest ih =>
    rw [exchange?] at h
    split at h
    · cases h
    · rename_i hr
      split at h
      · cases h
      · rename_i hrest
        rw [List.any_cons, ih hrest, Bool.or_false, Bool.eq_false_iff]
        exact hr

/-- The row comes in the place of the first with the id. -/
theorem exchange?_eq_some (h : exchange? id row rows = some rows') : ∃ before old after,
    rows = before ++ old :: after ∧ rows' = before ++ row :: after ∧ rowHas id old = true := by
  induction rows generalizing rows' with
  | nil => cases h
  | cons r rest ih =>
    rw [exchange?] at h
    split at h
    · rename_i hr
      cases h
      exact ⟨[], r, rest, rfl, rfl, hr⟩
    · split at h
      · rename_i exchanged hrest
        cases h
        obtain ⟨before, old, after, rfl, rfl, hold⟩ := ih hrest
        exact ⟨r :: before, old, after, rfl, rfl, hold⟩
      · cases h

/-- The rows that are there stay as they are before and after the one that is put in. -/
theorem exists_split_of_insertAt (position : Int) (row : Row) (rows : List Row) : ∃ before after,
    rows = before ++ after ∧ insertAt position row rows = before ++ row :: after := by
  have hinsert : ∀ (n : Nat) (rows : List Row), n ≤ rows.length → ∃ before after,
      rows = before ++ after ∧ rows.insertIdx n row = before ++ row :: after := by
    intro n rows hn
    induction n generalizing rows with
    | zero => exact ⟨[], rows, rfl, rfl⟩
    | succ n ih =>
      cases rows with
      | nil => cases hn
      | cons r rows =>
        obtain ⟨before, after, hrows, hinsert⟩ := ih rows (Nat.le_of_succ_le_succ hn)
        exact ⟨r :: before, after, congrArg (r :: ·) hrows, congrArg (r :: ·) hinsert⟩
  unfold insertAt
  split
  · exact hinsert _ _ (by omega)
  · exact ⟨rows, [], (List.append_nil rows).symm, rfl⟩

/-- The rows after one has come in are those that were there and that one, wherever it came in. -/
theorem perm_insertAt (position : Int) (row : Row) (rows : List Row) :
    (insertAt position row rows).Perm (row :: rows) := by
  obtain ⟨before, after, rfl, hinsert⟩ := exists_split_of_insertAt position row rows
  rw [hinsert]
  exact List.perm_middle

/-- Changing each row makes no difference to where a row comes in. -/
theorem map_insertAt (f : Row → Row) (position : Int) (row : Row) (rows : List Row) :
    (insertAt position row rows).map f = insertAt position (f row) (rows.map f) := by
  unfold insertAt
  rw [List.length_map]
  split
  · exact List.map_insertIdx ..
  · rw [List.map_append, List.map_singleton]

/-- A row without a property leaves those that have it as they are. -/
theorem filter_insertAt {q : Row → Bool} (position : Int) (rows : List Row) (hrow : q row = false) :
    (insertAt position row rows).filter q = rows.filter q := by
  obtain ⟨before, after, rfl, hinsert⟩ := exists_split_of_insertAt position row rows
  rw [hinsert, List.filter_append, List.filter_cons_of_neg (by simp [hrow]), ← List.filter_append]

/-- Exchanging the rows with an id changes nothing if there are none. -/
theorem map_of_filter_eq_nil (h : rows.filter (rowHas id) = []) :
    rows.map (fun r => if rowHas id r then row else r) = rows := by
  conv_rhs => rw [← List.map_id rows]
  refine List.map_congr_left ?_
  intro r hr
  exact if_neg (List.filter_eq_nil_iff.mp h r hr)

/-- Carrying out one insertion, once it has its row. -/
theorem exchange?_getD (h : DistinctIds rows) :
    (exchange? item.id row rows).getD (insertAt item.position row rows) = item.place row rows := by
  unfold Insert.place
  cases hexchange : exchange? item.id row rows with
  | none =>
    rw [exchange?_eq_none hexchange]
    rfl
  | some exchanged =>
    obtain ⟨before, old, after, rfl, rfl, hold⟩ := exchange?_eq_some hexchange
    have hany : (before ++ old :: after).any (rowHas item.id) = true :=
      List.any_eq_true.mpr ⟨old, List.mem_append_right _ List.mem_cons_self, hold⟩
    have honly := congrArg List.length (h.filter_eq (List.mem_append_right before List.mem_cons_self) hold)
    rw [List.filter_append, List.filter_cons_of_pos hold, List.length_append, List.length_cons] at honly
    have hbefore : before.filter (rowHas item.id) = [] := List.length_eq_zero_iff.mp (by simp at honly; omega)
    have hafter : after.filter (rowHas item.id) = [] := List.length_eq_zero_iff.mp (by simp at honly; omega)
    rw [if_pos hany, List.map_append, List.map_cons, if_pos hold, map_of_filter_eq_nil hbefore,
      map_of_filter_eq_nil hafter]
    rfl

/-- Carrying out a limit is cutting the rows. -/
theorem applyLimit_eq (item : Insert) (rows : List Row) : applyLimit item.limit rows = item.cut rows := by
  unfold applyLimit Insert.cut
  cases item.limit with
  | none => rfl
  | some n =>
    simp only
    by_cases hn : n < 0
    · rw [if_pos hn, if_neg (by omega), List.rtake]
    · rw [if_neg hn, if_pos (by omega)]
      congr 1
      omega

/-- Cutting rows leaves some of them, in order. -/
theorem cut_sublist (item : Insert) (rows : List Row) : (item.cut rows).Sublist rows := by
  unfold Insert.cut
  split
  · exact List.Sublist.refl rows
  · split
    · exact List.drop_sublist _ _
    · exact List.take_sublist _ _

/-- Without a limit no rows are cut. -/
theorem cut_of_limit_eq_none (h : item.limit = none) : item.cut rows = rows := by
  rw [Insert.cut.eq_def, h]

/-- A row that comes in keeps the ids apart. -/
theorem DistinctIds.place (h : DistinctIds rows) (hrow : rowHas item.id row = true) :
    DistinctIds (item.place row rows) := by
  unfold Insert.place
  split
  · -- where the row comes in, there was one with the same id
    have hids : (rows.map fun r => if rowHas item.id r then row else r).filterMap rowId? = rows.filterMap rowId? := by
      rw [List.filterMap_map]
      refine List.filterMap_congr ?_
      intro r _
      rw [Function.comp_apply]
      split
      · rename_i hr
        rw [rowHas_iff.mp hrow, rowHas_iff.mp hr]
      · rfl
    rw [DistinctIds, hids]
    exact h
  · rename_i hnone
    rw [DistinctIds, ((perm_insertAt item.position row rows).filterMap rowId?).nodup_iff,
      List.filterMap_cons_some (rowHas_iff.mp hrow), List.nodup_cons]
    refine ⟨?_, h⟩
    intro hid
    obtain ⟨r, hr, hr'⟩ := mem_ids.mp hid
    exact hnone (List.any_eq_true.mpr ⟨r, hr, hr'⟩)

/-- The rows after one has taken its place are among those that were there and that one. -/
theorem place_subperm (item : Insert) (row : Row) (h : DistinctIds rows) :
    (item.place row rows).Subperm (row :: rows) := by
  rw [← exchange?_getD h]
  cases hexchange : exchange? item.id row rows with
  | none => exact (perm_insertAt item.position row rows).subperm
  | some exchanged =>
    obtain ⟨before, old, after, rfl, rfl, _⟩ := exchange?_eq_some hexchange
    have hsub : (row :: (before ++ after)).Sublist (row :: (before ++ old :: after)) :=
      ((List.sublist_cons_self old after).append_left before).cons_cons row
    exact (List.perm_middle.subperm).trans hsub.subperm

/-! ## One insertion after the other -/

/-- The rows that are left when insertions have taken theirs. -/
def leftover (incoming : List Row) : List Insert → List Row
  | [] => incoming
  | item :: rest =>
    match takeRow? item.id incoming with
    | none => leftover incoming rest
    | some (_, incoming) => leftover incoming rest

/-- What the first of several insertions does. -/
theorem insertRows_cons (h : DistinctIds rows) (incoming : List Row) (item : Insert) (rest : List Insert) :
    insertRows rows incoming (item :: rest) =
      match takeRow? item.id incoming with
      | none => insertRows rows incoming rest
      | some (row, left) => insertRows (item.cut (item.place row rows)) left rest := by
  rw [insertRows]
  cases takeRow? item.id incoming with
  | none => rfl
  | some found => simp only [exchange?_getD h, applyLimit_eq]

/-- Insertions can be carried out in two lots, where the second finds the rows that the first has left. -/
theorem insertRows_append (rows incoming : List Row) (inserts more : List Insert) :
    insertRows rows incoming (inserts ++ more) =
      insertRows (insertRows rows incoming inserts) (leftover incoming inserts) more := by
  induction inserts generalizing rows incoming with
  | nil => rfl
  | cons item rest ih =>
    cases htake : takeRow? item.id incoming with
    | none => simp only [List.cons_append, insertRows, leftover, htake, ih]
    | some found => simp only [List.cons_append, insertRows, leftover, htake, ih]

/-- Insertions for an id take the rows that have come for it one after the other. -/
theorem filter_leftover (incoming : List Row) (inserts : List Insert) (id : String) :
    (leftover incoming inserts).filter (rowHas id) = (incoming.filter (rowHas id)).drop (countOf id inserts) := by
  induction inserts generalizing incoming with
  | nil => rfl
  | cons item rest ih =>
    rw [leftover, countOf, List.countP_cons]
    split
    · rename_i hnone
      rw [ih]
      by_cases hid : item.id = id
      · -- nothing has come for the id
        rw [← hid, takeRow?_eq_none hnone, List.drop_nil, List.drop_nil]
      · simp only [hid, decide_false, Bool.false_eq_true, if_false, Nat.add_zero, countOf]
    · rename_i row left htake
      obtain ⟨hrow, before, after, rfl, rfl, hbefore⟩ := takeRow?_eq_some htake
      rw [ih]
      by_cases hid : item.id = id
      · subst hid
        simp only [List.filter_append, hbefore, List.nil_append, List.filter_cons_of_pos hrow, decide_true, if_true,
          List.drop_succ_cons, countOf]
      · have hother := rowHas_of_ne hrow (Ne.symm hid)
        simp only [List.filter_append, List.filter_cons_of_neg (Bool.eq_false_iff.mp hother), hid, decide_false,
          Bool.false_eq_true, if_false, Nat.add_zero, countOf]

/-- The row that one more insertion takes is the first that is left for its id. -/
theorem takeRow?_leftover (incoming : List Row) (inserts : List Insert) (id : String) :
    (takeRow? id (leftover incoming inserts)).map Prod.fst = nextRow? incoming inserts id := by
  have hhead : (takeRow? id (leftover incoming inserts)).map Prod.fst =
      ((leftover incoming inserts).filter (rowHas id)).head? := by
    cases htake : takeRow? id (leftover incoming inserts) with
    | none =>
      rw [takeRow?_eq_none htake]
      rfl
    | some found =>
      obtain ⟨row, left⟩ := found
      obtain ⟨hrow, before, after, hrows, _, hbefore⟩ := takeRow?_eq_some htake
      rw [hrows, List.filter_append, hbefore, List.filter_cons_of_pos hrow]
      rfl
  rw [hhead, filter_leftover, List.head?_drop, nextRow?]

/-- Ids stay distinct when rows are inserted. -/
theorem distinctIds_insertRows (h : DistinctIds rows) (incoming : List Row) (inserts : List Insert) :
    DistinctIds (insertRows rows incoming inserts) := by
  induction inserts generalizing rows incoming with
  | nil => exact h
  | cons item rest ih =>
    rw [insertRows_cons h]
    split
    · exact ih h incoming
    · rename_i row left htake
      exact ih ((h.place (takeRow?_eq_some htake).1).sublist (cut_sublist item _)) left

/-- What one more insertion does. -/
theorem insertRows_concat (h : DistinctIds rows) (incoming : List Row) (inserts : List Insert) (item : Insert) :
    insertRows rows incoming (inserts ++ [item]) =
      match nextRow? incoming inserts item.id with
      | none => insertRows rows incoming inserts
      | some row => item.cut (item.place row (insertRows rows incoming inserts)) := by
  rw [insertRows_append, insertRows, ← takeRow?_leftover]
  cases takeRow? item.id (leftover incoming inserts) with
  | none => rfl
  | some found =>
    obtain ⟨row, left⟩ := found
    simp only [Option.map_some, insertRows, applyLimit_eq, exchange?_getD (distinctIds_insertRows h incoming inserts)]

/-- Each row of the outcome was there or has come for an insertion, and it has been taken only once. -/
theorem insertRows_subperm (h : DistinctIds rows) (incoming : List Row) (inserts : List Insert) :
    (insertRows rows incoming inserts).Subperm
      (rows ++ incoming.filter fun row => inserts.any fun item => rowHas item.id row) := by
  induction inserts generalizing rows incoming with
  | nil => exact (List.sublist_append_left _ _).subperm
  | cons item rest ih =>
    have hmono : ∀ l : List Row, (l.filter fun row => rest.any fun item => rowHas item.id row).Sublist
        (l.filter fun row => (item :: rest).any fun item => rowHas item.id row) := by
      intro l
      refine List.monotone_filter_right l ?_
      intro r hr
      simp only [List.any_cons, hr, Bool.or_true]
    rw [insertRows_cons h]
    split
    · exact (ih h incoming).trans ((hmono incoming).append_left rows).subperm
    · rename_i row left htake
      obtain ⟨hrow, before, after, rfl, rfl, _⟩ := takeRow?_eq_some htake
      have hplaced := (cut_sublist item (item.place row rows)).subperm.trans (place_subperm item row h)
      have hcut := (h.place hrow).sublist (cut_sublist item (item.place row rows))
      have hperm : (row :: rows ++ (before ++ after).filter fun row => (item :: rest).any fun item => rowHas item.id row).Perm
          (rows ++ (before ++ row :: after).filter fun row => (item :: rest).any fun item => rowHas item.id row) := by
        rw [List.filter_append, List.filter_append, List.filter_cons_of_pos (by simp [hrow]), List.cons_append,
          ← List.append_assoc, ← List.append_assoc]
        exact List.perm_middle.symm
      refine ((ih hcut _).trans ?_).trans hperm.subperm
      exact ((List.subperm_append_right _).mpr hplaced).trans ((hmono _).append_left _).subperm

end LiveMarkup.Rendered
