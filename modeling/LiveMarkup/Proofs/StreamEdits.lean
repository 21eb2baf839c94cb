import Mathlib.Data.List.Induction
import LiveMarkup.Proofs.StreamRows

/-!
# Edits of streamed rows

An update of a stream leaves some of the rows that are there and then puts rows in among them. Without limits the outcome has
a form of its own: the rows that were left stay where they are, the last row that was taken for an id standing in the place of
the row with that id, and an id that was not among them gets its place when it is first inserted (`insertRows_eq_arranged`).
With limits, what each insertion does is known from what the ones before it have done (`applyStream_edits`).
-/

namespace LiveMarkup.Rendered

/-! ## What edits come to -/

/-- The rows that are there when the insertions begin. -/
def Stream.remaining (s : Stream) (rows : List Row) : List Row :=
  if s.reset then [] else rows.filter fun row => s.deletes.all fun id => !rowHas id row

/-- Whether an insertion is for the id of the row. -/
def Stream.names (s : Stream) (row : Row) : Bool :=
  s.inserts.any fun item => rowHas item.id row

/-- The last row that insertions take for an id. -/
def lastRow? (incoming : List Row) (inserts : List Insert) (id : String) : Option Row :=
  ((incoming.filter (rowHas id)).take (countOf id inserts)).getLast?

/-- The first insertion for each id. -/
def firstInserts : List Insert → List Insert
  | [] => []
  | item :: rest => item :: (firstInserts rest).filter fun later => later.id ≠ item.id

/-- Whether no row is taken for the id of the row. -/
def untouched (incoming : List Row) (inserts : List Insert) (row : Row) : Bool :=
  (rowId? row).all fun id => (lastRow? incoming inserts id).isNone

/-- The row that stands in the place of a row when all rows have been taken. -/
def renewed (incoming : List Row) (inserts : List Insert) (row : Row) : Row :=
  ((rowId? row).bind (lastRow? incoming inserts)).getD row

/-- The rows that are taken for ids that no row has, each with the position at which it comes in. -/
def newcomers (rows incoming : List Row) (inserts : List Insert) : List (Int × Row) :=
  (firstInserts inserts).filterMap fun item =>
    if rows.any (rowHas item.id) then none
    else (lastRow? incoming inserts item.id).map fun row => (item.position, row)

/-- Rows with other rows put in among them, one after the other. -/
def putIn (rows : List Row) (new : List (Int × Row)) : List Row :=
  new.foldl (fun rows entry => insertAt entry.1 entry.2 rows) rows

/-- The rows after insertions without limits. -/
def arranged (rows incoming : List Row) (inserts : List Insert) : List Row :=
  putIn (rows.map (renewed incoming inserts)) (newcomers rows incoming inserts)

variable {rows incoming : List Row} {inserts : List Insert} {item : Insert} {row r : Row} {id : String}

/-! ## Insertions without limits -/

/-- Leaving out all insertions of an id but the first loses no id. -/
theorem mem_firstInserts : (∃ item ∈ firstInserts inserts, item.id = id) ↔ ∃ item ∈ inserts, item.id = id := by
  induction inserts with
  | nil => exact Iff.rfl
  | cons first rest ih =>
    rw [firstInserts]
    by_cases hid : first.id = id
    · exact iff_of_true ⟨first, List.mem_cons_self, hid⟩ ⟨first, List.mem_cons_self, hid⟩
    · simp only [List.mem_cons, List.mem_filter, decide_eq_true_eq, or_and_right, exists_or, exists_eq_left, hid,
        false_or, ← ih]
      refine exists_congr fun item => ⟨fun h => ⟨h.1.1, h.2⟩, fun h => ⟨⟨h.1, ?_⟩, h.2⟩⟩
      exact fun he => hid (he.symm.trans h.2)

/-- One more insertion is kept if there is none of its id before it. -/
theorem firstInserts_concat (inserts : List Insert) (item : Insert) : firstInserts (inserts ++ [item]) =
    if ∃ earlier ∈ inserts, earlier.id = item.id then firstInserts inserts else firstInserts inserts ++ [item] := by
  induction inserts with
  | nil => rfl
  | cons first rest ih =>
    rw [List.cons_append, firstInserts, ih]
    by_cases hfirst : first.id = item.id
    · have hsome : ∃ earlier ∈ first :: rest, earlier.id = item.id := ⟨first, List.mem_cons_self, hfirst⟩
      rw [if_pos hsome]
      split
      · rfl
      · rw [List.filter_append, List.filter_cons_of_neg (by simp [hfirst]), List.filter_nil, List.append_nil, firstInserts]
    · have hiff : (∃ earlier ∈ first :: rest, earlier.id = item.id) ↔ ∃ earlier ∈ rest, earlier.id = item.id := by
        simp [hfirst]
      rw [if_congr hiff rfl rfl]
      split
      · rfl
      · rw [List.filter_append, List.filter_cons_of_pos (by simp [Ne.symm hfirst]), List.filter_nil, firstInserts,
          List.cons_append]

/-- There is no insertion of an id exactly if their number is zero. -/
theorem countOf_eq_zero_iff : countOf id inserts = 0 ↔ ¬ ∃ item ∈ inserts, item.id = id := by
  simp [countOf, List.countP_eq_zero]

/-- One more insertion counts for its own id. -/
theorem countOf_concat (id : String) (inserts : List Insert) (item : Insert) :
    countOf id (inserts ++ [item]) = countOf id inserts + if item.id = id then 1 else 0 := by
  simp [countOf, List.countP_append, List.countP_cons]

/-- The row that is taken for an id in the end has the id. -/
theorem rowHas_of_lastRow? (h : lastRow? incoming inserts id = some row) : rowHas id row = true :=
  (List.mem_filter.mp (List.mem_of_mem_take (List.mem_of_getLast? h))).2

/-- With one more insertion the row that is taken for its id in the end is the next one, if there is one. -/
theorem lastRow?_concat (incoming : List Row) (inserts : List Insert) (item : Insert) (id : String) :
    lastRow? incoming (inserts ++ [item]) id =
      if item.id = id then (nextRow? incoming inserts id).or (lastRow? incoming inserts id)
      else lastRow? incoming inserts id := by
  rw [lastRow?, countOf_concat]
  split
  · rw [List.take_add_one, List.getLast?_append, nextRow?, lastRow?]
    cases (incoming.filter (rowHas id))[countOf id inserts]? with
    | none => rfl
    | some row => rfl
  · rfl

/-- With one more insertion that has its row this row is the last for its id. -/
theorem lastRow?_concat_of_nextRow? (h : nextRow? incoming inserts item.id = some row) (id : String) :
    lastRow? incoming (inserts ++ [item]) id = if item.id = id then some row else lastRow? incoming inserts id := by
  rw [lastRow?_concat]
  split
  · rename_i hid
    rw [← hid, h, Option.some_or]
  · rfl

/-- Where one more row would be taken for an id each insertion before has had one. -/
theorem exists_lastRow?_of_nextRow? (h : nextRow? incoming inserts id = some row) (hid : ∃ item ∈ inserts, item.id = id) :
    ∃ earlier, lastRow? incoming inserts id = some earlier := by
  have hcount : countOf id inserts ≠ 0 := fun h0 => countOf_eq_zero_iff.mp h0 hid
  have hlength := (List.getElem?_eq_some_iff.mp h).1
  rw [lastRow?, ← Option.ne_none_iff_exists']
  intro hnone
  have htake := congrArg List.length (List.getLast?_eq_none_iff.mp hnone)
  rw [List.length_take, List.length_nil] at htake
  omega

/-- Without an insertion of an id no row is taken for it. -/
theorem lastRow?_eq_none (incoming : List Row) (hid : ¬ ∃ item ∈ inserts, item.id = id) : lastRow? incoming inserts id = none := by
  rw [lastRow?, countOf_eq_zero_iff.mpr hid]
  rfl

/-! ### The rows that are put in -/

/-- The rows after all have come in are those that were there and those that came. -/
theorem mem_putIn {new : List (Int × Row)} : r ∈ putIn rows new ↔ r ∈ rows ∨ ∃ entry ∈ new, entry.2 = r := by
  induction new generalizing rows with
  | nil => simp [putIn]
  | cons entry rest ih =>
    rw [putIn, List.foldl_cons, ← putIn, ih, (perm_insertAt _ _ _).mem_iff, List.mem_cons, List.exists_mem_cons_iff,
      eq_comm, or_assoc, or_left_comm]

/-- The last row that comes in comes in among all others. -/
theorem putIn_concat (rows : List Row) (new : List (Int × Row)) (entry : Int × Row) :
    putIn rows (new ++ [entry]) = insertAt entry.1 entry.2 (putIn rows new) := by
  rw [putIn, List.foldl_append, putIn, List.foldl_cons, List.foldl_nil]

/-- Changing each row makes no difference to where rows come in. -/
theorem map_putIn (f : Row → Row) (rows : List Row) (new : List (Int × Row)) :
    (putIn rows new).map f = putIn (rows.map f) (new.map fun entry => (entry.1, f entry.2)) := by
  induction new generalizing rows with
  | nil => rfl
  | cons entry rest ih => rw [putIn, List.foldl_cons, ← putIn, ih, map_insertAt, List.map_cons, putIn, putIn, List.foldl_cons]

/-- Rows that are left out anyway make no difference when they come in. -/
theorem filter_putIn {q : Row → Bool} {new : List (Int × Row)} (rows : List Row) (hnew : ∀ entry ∈ new, q entry.2 = false) :
    (putIn rows new).filter q = rows.filter q := by
  induction new generalizing rows with
  | nil => rfl
  | cons entry rest ih =>
    rw [putIn, List.foldl_cons, ← putIn, ih _ fun entry hentry => hnew entry (List.mem_cons_of_mem _ hentry),
      filter_insertAt _ _ (hnew entry List.mem_cons_self)]

/-! ### Where rows stand -/

/-- A newcomer is the last row for an id that no row had, at the position of the first insertion. -/
theorem mem_newcomers {entry : Int × Row} : entry ∈ newcomers rows incoming inserts ↔
    ∃ item ∈ firstInserts inserts, rows.any (rowHas item.id) = false ∧
      lastRow? incoming inserts item.id = some entry.2 ∧ item.position = entry.1 := by
  simp only [newcomers, List.mem_filterMap]
  refine exists_congr fun item => and_congr_right fun _ => ?_
  cases hany : rows.any (rowHas item.id) with
  | true => simp
  | false =>
    simp only [Bool.false_eq_true, if_false, Option.map_eq_some_iff, true_and]
    constructor
    · rintro ⟨row, hrow, rfl⟩
      exact ⟨hrow, rfl⟩
    · rintro ⟨hrow, hposition⟩
      exact ⟨entry.2, hrow, by rw [hposition]⟩

/-- The row in the place of a row has the id of that row. -/
theorem rowHas_renewed (incoming : List Row) (inserts : List Insert) (id : String) (row : Row) :
    rowHas id (renewed incoming inserts row) = rowHas id row := by
  unfold renewed
  cases hrow : rowId? row with
  | none => rfl
  | some k =>
    rw [Option.bind_some]
    cases hlast : lastRow? incoming inserts k with
    | none => rfl
    | some last => rw [Option.getD_some, rowHas, rowHas, rowHas_iff.mp (rowHas_of_lastRow? hlast), hrow]

/-- A row is renewed by the last row that is taken for its id. -/
theorem renewed_eq (hrow : rowHas id row = true) :
    renewed incoming inserts row = (lastRow? incoming inserts id).getD row := by
  rw [renewed, rowHas_iff.mp hrow, Option.bind_some]

/-- The last row that has been taken for an id is among the rows, and the other rows with the id were there. -/
theorem mem_arranged_of_lastRow? (h : lastRow? incoming inserts id = some row) : row ∈ arranged rows incoming inserts := by
  rw [arranged, mem_putIn]
  by_cases hany : rows.any (rowHas id) = true
  · obtain ⟨r, hr, hr'⟩ := List.any_eq_true.mp hany
    exact .inl (List.mem_map.mpr ⟨r, hr, by rw [renewed_eq hr', h, Option.getD_some]⟩)
  · have hid : ∃ item ∈ inserts, item.id = id := by
      by_contra hid
      cases (lastRow?_eq_none incoming hid).symm.trans h
    obtain ⟨item, hitem, rfl⟩ := mem_firstInserts.mpr hid
    exact .inr ⟨(item.position, row), mem_newcomers.mpr ⟨item, hitem, Bool.eq_false_iff.mpr hany, h, rfl⟩, rfl⟩

/-- An id is there in the end exactly if a row had it or a row was taken for it. -/
theorem any_arranged (rows incoming : List Row) (inserts : List Insert) (id : String) :
    (arranged rows incoming inserts).any (rowHas id) = true ↔
      rows.any (rowHas id) = true ∨ ∃ row, lastRow? incoming inserts id = some row := by
  constructor
  · intro hany
    obtain ⟨r, hr, hr'⟩ := List.any_eq_true.mp hany
    rcases mem_putIn.mp hr with hr | ⟨entry, hentry, rfl⟩
    · obtain ⟨row, hrow, rfl⟩ := List.mem_map.mp hr
      rw [rowHas_renewed] at hr'
      exact .inl (List.any_eq_true.mpr ⟨row, hrow, hr'⟩)
    · obtain ⟨item, _, _, hlast, _⟩ := mem_newcomers.mp hentry
      have hid : item.id = id := by
        by_contra hne
        rw [rowHas_of_ne (rowHas_of_lastRow? hlast) (Ne.symm hne)] at hr'
        cases hr'
      exact .inr ⟨entry.2, hid ▸ hlast⟩
  · rintro (hany | ⟨row, hlast⟩)
    · obtain ⟨r, hr, hr'⟩ := List.any_eq_true.mp hany
      refine List.any_eq_true.mpr ⟨renewed incoming inserts r, ?_, by rw [rowHas_renewed, hr']⟩
      exact mem_putIn.mpr (.inl (List.mem_map_of_mem hr))
    · exact List.any_eq_true.mpr ⟨row, mem_arranged_of_lastRow? hlast, rowHas_of_lastRow? hlast⟩

/-- What stands in the place of a row when one more row has been taken. -/
theorem renewed_concat (hnext : nextRow? incoming inserts item.id = some row) (r : Row) :
    renewed incoming (inserts ++ [item]) r =
      if rowHas item.id (renewed incoming inserts r) then row else renewed incoming inserts r := by
  rw [rowHas_renewed]
  split
  · rename_i hr
    rw [renewed_eq hr, lastRow?_concat_of_nextRow? hnext, if_pos rfl, Option.getD_some]
  · rename_i hr
    unfold renewed
    cases hid : rowId? r with
    | none => rfl
    | some id =>
      rw [Option.bind_some, Option.bind_some, lastRow?_concat_of_nextRow? hnext, if_neg]
      intro he
      exact hr (rowHas_iff.mpr (he ▸ hid))

/-- A row that is taken for an id that a row has is no newcomer, but it may stand in the place of one. -/
theorem newcomers_concat_of_any (hnext : nextRow? incoming inserts item.id = some row)
    (hany : (arranged rows incoming inserts).any (rowHas item.id) = true) :
    newcomers rows incoming (inserts ++ [item]) = (newcomers rows incoming inserts).map fun entry =>
      (entry.1, if rowHas item.id entry.2 then row else entry.2) := by
  have hfirst : newcomers rows incoming (inserts ++ [item]) = (firstInserts inserts).filterMap fun first =>
      if rows.any (rowHas first.id) then none
      else (lastRow? incoming (inserts ++ [item]) first.id).map fun row => (first.position, row) := by
    rw [newcomers, firstInserts_concat]
    split
    · rfl
    · rename_i hfresh
      have hthere : rows.any (rowHas item.id) = true := by
        refine ((any_arranged rows incoming inserts item.id).mp hany).resolve_right ?_
        rintro ⟨earlier, hearlier⟩
        cases (lastRow?_eq_none incoming hfresh).symm.trans hearlier
      rw [List.filterMap_append, List.filterMap_cons_none, List.filterMap_nil, List.append_nil]
      rw [if_pos hthere]
  rw [hfirst, newcomers, List.map_filterMap]
  refine List.filterMap_congr ?_
  intro first hmem
  cases rows.any (rowHas first.id) with
  | true => rfl
  | false =>
    rw [lastRow?_concat_of_nextRow? hnext]
    by_cases hid : item.id = first.id
    · rw [hid] at hnext
      obtain ⟨earlier, hearlier⟩ := exists_lastRow?_of_nextRow? hnext (mem_firstInserts.mp ⟨first, hmem, rfl⟩)
      have hhas := rowHas_of_lastRow? hearlier
      simp [hid, hearlier, hhas]
    · cases hearlier : lastRow? incoming inserts first.id with
      | none => simp [hid]
      | some earlier =>
        have hhas := rowHas_of_ne (rowHas_of_lastRow? hearlier) hid
        simp [hid, hhas]

/-- An insertion for an id that a row has changes this row only. -/
theorem arranged_concat_of_any (hnext : nextRow? incoming inserts item.id = some row)
    (hany : (arranged rows incoming inserts).any (rowHas item.id) = true) :
    arranged rows incoming (inserts ++ [item]) =
      (arranged rows incoming inserts).map fun r => if rowHas item.id r then row else r := by
  rw [arranged, arranged, map_putIn, List.map_map, newcomers_concat_of_any hnext hany]
  congr 1
  exact List.map_congr_left fun r _ => renewed_concat hnext r

/-- An insertion for an id that no row has puts its row in. -/
theorem arranged_concat_of_not_any (hnext : nextRow? incoming inserts item.id = some row)
    (hany : (arranged rows incoming inserts).any (rowHas item.id) = false) :
    arranged rows incoming (inserts ++ [item]) = insertAt item.position row (arranged rows incoming inserts) := by
  have hnone := mt (any_arranged rows incoming inserts item.id).mpr (by simp [hany])
  obtain ⟨hrows, hlast⟩ := not_or.mp hnone
  have hfresh : ¬ ∃ earlier ∈ inserts, earlier.id = item.id :=
    fun hid => hlast (exists_lastRow?_of_nextRow? hnext hid)
  have hsame : ∀ id, item.id ≠ id → lastRow? incoming (inserts ++ [item]) id = lastRow? incoming inserts id := by
    intro id hid
    rw [lastRow?_concat, if_neg hid]
  have hrenewed : rows.map (renewed incoming (inserts ++ [item])) = rows.map (renewed incoming inserts) := by
    refine List.map_congr_left ?_
    intro r hr
    unfold renewed
    cases hid : rowId? r with
    | none => rfl
    | some id =>
      rw [Option.bind_some, Option.bind_some, hsame]
      rintro rfl
      exact hrows (List.any_eq_true.mpr ⟨r, hr, rowHas_iff.mpr hid⟩)
  have hnewcomers : newcomers rows incoming (inserts ++ [item]) =
      newcomers rows incoming inserts ++ [(item.position, row)] := by
    rw [newcomers, firstInserts_concat, if_neg hfresh, List.filterMap_append, newcomers]
    congr 1
    · refine List.filterMap_congr ?_
      intro first hmem
      rw [hsame]
      intro hid
      exact hfresh (mem_firstInserts.mp ⟨first, hmem, hid.symm⟩)
    · rw [List.filterMap_cons_some, List.filterMap_nil]
      rw [if_neg hrows, lastRow?_concat, if_pos rfl, hnext, Option.some_or, Option.map_some]
  rw [arranged, hrenewed, hnewcomers, putIn_concat, arranged]

/-- An insertion for which no row is left changes nothing. -/
theorem arranged_concat_of_none (hnext : nextRow? incoming inserts item.id = none) :
    arranged rows incoming (inserts ++ [item]) = arranged rows incoming inserts := by
  have hlast : lastRow? incoming (inserts ++ [item]) = lastRow? incoming inserts := by
    funext id
    rw [lastRow?_concat]
    split
    · rename_i hid
      rw [← hid, hnext, Option.none_or]
    · rfl
  have hnewcomers : newcomers rows incoming (inserts ++ [item]) = newcomers rows incoming inserts := by
    rw [newcomers, hlast, firstInserts_concat]
    split
    · rfl
    · rename_i hfresh
      rw [List.filterMap_append, List.filterMap_cons_none, List.filterMap_nil, List.append_nil, newcomers]
      rw [lastRow?_eq_none incoming hfresh, Option.map_none, ite_self]
  have hrenewed : renewed incoming (inserts ++ [item]) = renewed incoming inserts := by
    funext r
    rw [renewed, renewed, hlast]
  rw [arranged, hrenewed, hnewcomers, arranged]

/-- Without limits, insertions come to this arrangement. -/
theorem insertRows_eq_arranged (h : DistinctIds rows) (incoming : List Row) {inserts : List Insert}
    (hlimits : ∀ item ∈ inserts, item.limit = none) :
    insertRows rows incoming inserts = arranged rows incoming inserts := by
  induction inserts using List.reverseRecOn with
  | nil =>
    have hrenewed : ∀ r, renewed incoming [] r = r := by
      intro r
      unfold renewed
      cases rowId? r with
      | none => rfl
      | some id => rfl
    have hmap : rows.map (renewed incoming []) = rows :=
      (List.map_congr_left fun r _ => hrenewed r).trans (List.map_id rows)
    exact hmap.symm
  | append_singleton inserts item ih =>
    have hbefore := ih fun earlier hearlier => hlimits earlier (List.mem_append_left _ hearlier)
    have hlimit := hlimits item (List.mem_append_right _ List.mem_cons_self)
    rw [insertRows_concat h, hbefore]
    cases hnext : nextRow? incoming inserts item.id with
    | none => rw [arranged_concat_of_none hnext]
    | some row =>
      simp only [cut_of_limit_eq_none hlimit, Insert.place]
      cases hany : (arranged rows incoming inserts).any (rowHas item.id) with
      | true => rw [arranged_concat_of_any hnext hany, if_pos rfl]
      | false => rw [arranged_concat_of_not_any hnext hany, if_neg Bool.false_ne_true]

/-! ## Whole updates -/

/-- Deleting leaves the rows that have none of the ids. -/
theorem deleteRows_eq (rows : List Row) (ids : List String) :
    deleteRows rows ids = rows.filter fun row => ids.all fun id => !rowHas id row := by
  induction ids generalizing rows with
  | nil => simp [deleteRows]
  | cons id rest ih =>
    rw [deleteRows, List.foldl_cons, ← deleteRows, ih, List.filter_filter]
    refine List.filter_congr ?_
    intro r _
    rw [List.all_cons, Bool.and_comm]

/-- Carrying out a stream is deleting and then inserting. -/
theorem applyStream_eq (rows incoming : List Row) (s : Stream) :
    applyStream rows incoming s = insertRows (s.remaining rows) incoming s.inserts := by
  rw [applyStream, deleteRows_eq, Stream.remaining]
  split
  · rfl
  · rfl

/-- Ids stay distinct when rows are deleted. -/
theorem DistinctIds.remaining (h : DistinctIds rows) (s : Stream) : DistinctIds (s.remaining rows) := by
  unfold Stream.remaining
  split
  · exact List.nodup_nil
  · exact h.sublist List.filter_sublist

/-- Rows for whose ids none is taken stay as they are. -/
theorem filter_arranged (rows incoming : List Row) (inserts : List Insert) :
    (arranged rows incoming inserts).filter (untouched incoming inserts) =
      rows.filter (untouched incoming inserts) := by
  have hstays : ∀ r, untouched incoming inserts r = true → renewed incoming inserts r = r := by
    intro r hr
    unfold untouched at hr
    unfold renewed
    cases hid : rowId? r with
    | none => rfl
    | some id =>
      rw [hid, Option.all_some, Option.isNone_iff_eq_none] at hr
      rw [Option.bind_some, hr]
      rfl
  have hsame : ∀ r, untouched incoming inserts (renewed incoming inserts r) = untouched incoming inserts r := by
    intro r
    have hids : rowId? (renewed incoming inserts r) = rowId? r := by
      ext id
      rw [← rowHas_iff, ← rowHas_iff, rowHas_renewed]
    rw [untouched, hids, untouched]
  rw [arranged, filter_putIn, List.filter_map]
  · have hpred : (untouched incoming inserts ∘ renewed incoming inserts) = untouched incoming inserts := funext hsame
    rw [hpred]
    conv_rhs => rw [← List.map_id (rows.filter _)]
    exact List.map_congr_left fun r hr => hstays r (List.mem_filter.mp hr).2
  · intro entry hentry
    obtain ⟨item, _, _, hlast, _⟩ := mem_newcomers.mp hentry
    rw [untouched, rowHas_iff.mp (rowHas_of_lastRow? hlast), Option.all_some, hlast]
    rfl

/-- What an update of their stream does to rows with different ids: the ids stay different, and each row of the outcome was
there or has come for an insertion, which took it away from the other insertions. One more insertion takes the next row that
has come for its id, places it and cuts the rows to its limit. Without limits the outcome is the arrangement of the rows that
the update leaves: those for whose ids no row is taken stay as they are, and each other id has the last row taken for it. -/
theorem applyStream_edits (h : DistinctIds rows) (incoming : List Row) (s : Stream) :
    DistinctIds (applyStream rows incoming s) ∧
    (applyStream rows incoming s).Subperm (s.remaining rows ++ incoming.filter s.names) ∧
    (s.inserts = [] → applyStream rows incoming s = s.remaining rows) ∧
    (∀ item, applyStream rows incoming { s with inserts := s.inserts ++ [item] } =
      match nextRow? incoming s.inserts item.id with
      | none => applyStream rows incoming s
      | some row => item.cut (item.place row (applyStream rows incoming s))) ∧
    ((∀ item ∈ s.inserts, item.limit = none) →
      applyStream rows incoming s = arranged (s.remaining rows) incoming s.inserts ∧
      (applyStream rows incoming s).filter (untouched incoming s.inserts) =
        (s.remaining rows).filter (untouched incoming s.inserts) ∧
      ∀ id row, lastRow? incoming s.inserts id = some row →
        (applyStream rows incoming s).filter (rowHas id) = [row]) := by
  have hremaining := h.remaining s
  have hdistinct : DistinctIds (applyStream rows incoming s) := by
    rw [applyStream_eq]
    exact distinctIds_insertRows hremaining incoming s.inserts
  refine ⟨hdistinct, ?_, ?_, ?_, ?_⟩
  · rw [applyStream_eq]
    exact insertRows_subperm hremaining incoming s.inserts
  · intro hinserts
    rw [applyStream_eq, hinserts, insertRows]
  · intro item
    rw [applyStream_eq, applyStream_eq]
    exact insertRows_concat hremaining incoming s.inserts item
  · intro hlimits
    have harranged : applyStream rows incoming s = arranged (s.remaining rows) incoming s.inserts := by
      rw [applyStream_eq]
      exact insertRows_eq_arranged hremaining incoming hlimits
    refine ⟨harranged, ?_, ?_⟩
    · rw [harranged, filter_arranged]
    · intro id row hlast
      refine hdistinct.filter_eq ?_ (rowHas_of_lastRow? hlast)
      rw [harranged]
      exact mem_arranged_of_lastRow? hlast

/-! ### A playlist -/

/-- A row for a song. -/
def song (number : Nat) (title : String) : Row :=
  [.text s!" id=\"song-{number}\"", .text title]

/-- Two songs. -/
def playlist : List Row :=
  [song 1 "One", song 2 "Two"]

/-- Rows that come for two songs, one of them twice. -/
def newSongs : List Row :=
  [song 3 "Three", song 2 "Deux", song 2 "Zwei"]

/-- An update that deletes the first song, puts a third one before the others and renews the second one twice. -/
def songEdits : Stream :=
  ⟨"songs", [⟨"song-3", 0, none⟩, ⟨"song-2", 0, none⟩, ⟨"song-2", 0, none⟩], ["song-1"], false⟩

/-- The second song has the last title that has come for it and stands behind the third; a further insertion with a limit
then leaves the last row only. -/
theorem playlist_is_edited : DistinctIds playlist ∧ (∀ item ∈ songEdits.inserts, item.limit = none) ∧
    applyStream playlist newSongs songEdits = [song 3 "Three", song 2 "Zwei"] ∧
    (applyStream playlist newSongs songEdits).filter (rowHas "song-2") = [song 2 "Zwei"] ∧
    applyStream playlist (newSongs ++ [song 4 "Four"])
      { songEdits with inserts := songEdits.inserts ++ [⟨"song-4", -1, some (-1)⟩] } = [song 4 "Four"] := by
  have hdistinct : DistinctIds playlist := by decide
  have hlimits : ∀ item ∈ songEdits.inserts, item.limit = none := by decide
  obtain ⟨_, _, _, _, hplain⟩ := applyStream_edits hdistinct newSongs songEdits
  obtain ⟨harranged, _, hlast⟩ := hplain hlimits
  obtain ⟨_, _, _, hstep, _⟩ := applyStream_edits hdistinct (newSongs ++ [song 4 "Four"]) songEdits
  refine ⟨hdistinct, hlimits, ?_, hlast "song-2" (song 2 "Zwei") rfl, ?_⟩
  · rw [harranged]
    rfl
  · rw [hstep]
    rfl

end LiveMarkup.Rendered
