import Mathlib.Data.List.Basic
import LiveMarkup.Markup.Listing

/-!
# Listings are read back

The listing of a tree announces exactly the nodes that it lists (`Record.check_records`), and builds up the tree again
(`Record.build_records`). So every tree is read back from its listing (`Record.read_records`). No other list of records is
read: what passes the check is the listing of the trees that it builds up (`Record.read_eq_ok_iff`).
-/

namespace LiveMarkup

/-- A forest has no more nodes at its top than it lists. -/
theorem Forest.length_le_records (f : Forest) : f.length ≤ f.records.length := by
  induction f with
  | nil => exact Nat.le_refl 0
  | leaf text next ih =>
    simp only [length, records, List.length_cons]
    omega
  | element name attributes children next _ ih =>
    simp only [length, records, List.length_cons, List.length_append]
    omega

/-- A listing has as many records as the forest has nodes. -/
theorem Forest.length_records (f : Forest) : f.records.length = f.size := by
  induction f with
  | nil => rfl
  | leaf text next ih => rw [records, size, List.length_cons, ih]
  | element name attributes children next ihc ihn =>
    rw [records, size, List.length_cons, List.length_append, ihc, ihn]

namespace Record

/-- The numbers of children in a listing are no larger than the number of nodes. -/
theorem children_le_size {f : Forest} {r : Record} (h : r ∈ f.records) : r.children ≤ f.size := by
  induction f with
  | nil => cases h
  | leaf text next ih =>
    rcases List.mem_cons.mp h with rfl | hnext
    · exact Nat.zero_le _
    · exact Nat.le_succ_of_le (ih hnext)
  | element name attributes children next ihc ihn =>
    have hlength : children.length ≤ children.size := by
      rw [← Forest.length_records]
      exact children.length_le_records
    rw [Forest.size]
    rcases List.mem_cons.mp h with rfl | hrest
    · have hcount : (element name attributes children.length).children = children.length := rfl
      omega
    · rcases List.mem_append.mp hrest with hchildren | hnext
      · have := ihc hchildren
        omega
      · have := ihn hnext
        omega

/-- The nodes of a forest are all that it owes. -/
theorem check_records (f : Forest) (position : Nat) {owed : Nat} {rest : List Record} (h : owed ≤ rest.length) :
    check position (f.length + owed) (f.records ++ rest) = check (position + f.records.length) owed rest := by
  induction f generalizing position owed rest with
  | nil =>
    rw [Forest.length, Forest.records, Nat.zero_add]
    rfl
  | leaf text next ih =>
    have hlength := next.length_le_records
    have hroom : next.length + owed + (leaf text).children ≤ (next.records ++ rest).length := by
      have hcount : (leaf text).children = 0 := rfl
      rw [List.length_append]
      omega
    calc check position (next.length + 1 + owed) (.leaf text :: next.records ++ rest)
      _ = check position (next.length + owed + 1) (.leaf text :: (next.records ++ rest)) := by
        rw [Nat.add_right_comm, List.cons_append]
      _ = check (position + 1) (next.length + owed) (next.records ++ rest) := by
        rw [check, if_pos hroom]
        rfl
      _ = check (position + 1 + next.records.length) owed rest := ih (position + 1) h
      _ = check (position + (next.records.length + 1)) owed rest := by
        rw [Nat.add_assoc, Nat.add_comm 1]
  | element name attributes children next ihc ihn =>
    have hbelow := children.length_le_records
    have hlength := next.length_le_records
    have hroom : next.length + owed + children.length ≤ (children.records ++ (next.records ++ rest)).length := by
      rw [List.length_append, List.length_append]
      omega
    have hnext : next.length + owed ≤ (next.records ++ rest).length := by
      rw [List.length_append]
      omega
    calc check position (next.length + 1 + owed)
          (.element name attributes children.length :: (children.records ++ next.records) ++ rest)
      _ = check position (next.length + owed + 1)
          (.element name attributes children.length :: (children.records ++ (next.records ++ rest))) := by
        rw [Nat.add_right_comm, List.cons_append, List.append_assoc]
      _ = check (position + 1) (next.length + owed + children.length) (children.records ++ (next.records ++ rest)) := by
        rw [check]
        exact if_pos hroom
      _ = check (position + 1 + children.records.length) (next.length + owed) (next.records ++ rest) := by
        rw [Nat.add_comm _ children.length]
        exact ihc (position + 1) hnext
      _ = check (position + 1 + children.records.length + next.records.length) owed rest := ihn _ h
      _ = check (position + ((children.records ++ next.records).length + 1)) owed rest := by
        rw [List.length_append]
        congr 1
        omega

/-- The listing of a forest builds up its trees. -/
theorem build_records (f : Forest) (rest : List Record) : build (f.records ++ rest) = f.toList ++ build rest := by
  induction f generalizing rest with
  | nil => rfl
  | leaf text next ih =>
    rw [Forest.records, Forest.toList, List.cons_append, List.cons_append, build, ih]
  | element name attributes children next ihc ihn =>
    have hbelow : build (children.records ++ (next.records ++ rest)) = children.toList ++ (next.toList ++ build rest) := by
      rw [ihc, ihn]
    have hcount : children.length = children.toList.length := children.length_toList.symm
    rw [Forest.records, Forest.toList, List.cons_append, List.cons_append, List.append_assoc, build, hbelow, hcount,
      List.take_left, List.drop_left, Forest.ofList_toList]

/-- A tree is read back from its listing. -/
theorem read_records (t : Tree) : read t.records = .ok t := by
  have hlength : t.forest.length = 1 := by
    cases t <;> rfl
  have hcheck : check 0 1 t.records = .ok () := by
    have h := check_records t.forest 0 (Nat.zero_le ([] : List Record).length)
    rw [hlength, List.append_nil] at h
    exact h
  have hbuild : build t.records = [t] := by
    have h := build_records t.forest []
    rw [List.append_nil, Tree.forest, Forest.toList_cons] at h
    exact h
  simp only [read, hcheck, hbuild]

/-- The records of trees in a row are their records one after the other. -/
theorem records_append (trees more : List Tree) :
    (Forest.ofList (trees ++ more)).records = (Forest.ofList trees).records ++ (Forest.ofList more).records := by
  induction trees with
  | nil => rfl
  | cons t trees ih =>
    have hcons : ∀ l, Forest.ofList (t :: l) = Forest.cons t (Forest.ofList l) := fun l => rfl
    rw [List.cons_append, hcons, hcons]
    cases t with
    | leaf text => simp only [Forest.cons, Forest.records, ih, List.cons_append]
    | element name attributes children =>
      simp only [Forest.cons, Forest.records, ih, List.cons_append, List.append_assoc]

/-- Records that pass the check build up as many trees as are owed, and are the listing of these trees. -/
theorem records_build {position owed : Nat} {records : List Record} (h : check position owed records = .ok ()) :
    (build records).length = owed ∧ (Forest.ofList (build records)).records = records := by
  induction records generalizing position owed with
  | nil =>
    cases owed with
    | zero => exact ⟨rfl, rfl⟩
    | succ owed => cases h
  | cons record rest ih =>
    cases owed with
    | zero => cases h
    | succ owed =>
      rw [check] at h
      by_cases hroom : owed + record.children ≤ rest.length
      · obtain ⟨hlength, hrecords⟩ := ih ((if_pos hroom).symm.trans h)
        cases record with
        | leaf text =>
          refine ⟨congrArg (· + 1) hlength, ?_⟩
          show Record.leaf text :: (Forest.ofList (build rest)).records = _
          rw [hrecords]
        | element name attributes count =>
          have hcount : count ≤ (build rest).length := by
            rw [hlength]
            exact Nat.le_add_left count owed
          have hchildren : (Forest.ofList ((build rest).take count)).length = count := by
            rw [← Forest.length_toList, Forest.toList_ofList, List.length_take, Nat.min_eq_left hcount]
          refine ⟨?_, ?_⟩
          · have hdrop : ((build rest).drop count).length = owed := by
              rw [List.length_drop, hlength]
              exact Nat.add_sub_cancel owed count
            exact congrArg (· + 1) hdrop
          · show Record.element name attributes (Forest.ofList ((build rest).take count)).length ::
              ((Forest.ofList ((build rest).take count)).records ++
                (Forest.ofList ((build rest).drop count)).records) = _
            rw [hchildren, ← records_append, List.take_append_drop, hrecords]
      · cases (if_neg hroom).symm.trans h

/-- A list of records is read as a tree exactly if it is the listing of this tree. -/
theorem read_eq_ok_iff {records : List Record} {t : Tree} : read records = .ok t ↔ t.records = records := by
  constructor
  · intro h
    unfold read at h
    split at h
    · cases h
    · rename_i hcheck
      obtain ⟨hlength, hrecords⟩ := records_build hcheck
      split at h
      · rename_i u rest hbuild
        cases h
        rw [hbuild, List.length_cons, Nat.add_eq_right, List.length_eq_zero_iff] at hlength
        rw [hbuild, hlength] at hrecords
        rw [← hrecords, Tree.records]
        cases t <;> rfl
      · cases h
  · rintro rfl
    exact read_records t

end Record

end LiveMarkup
