import Mathlib.Algebra.Group.Nat.Defs
import Mathlib.Data.List.Nodup
import LiveMarkup.Proofs.Slots

/-!
# The history of slots

What happens to slots is a list of events: keys are issued for values that are stored, and freed when these are taken out.
In each slot the events alternate, and its generation counts how often it was vacated (`Slots.Traced`). As long as no slot is
vacated as often as there are generations, no key is issued twice (`Traced.nodup`), and a key stands for a value exactly if
it was issued and has not been freed (`Traced.isSome_get?_iff`).
-/

namespace LiveMarkup

/-- What happens to the value of a key. -/
inductive SlotEvent
  /-- The value is stored. -/
  | issued (key : SlotKey)
  /-- The value is taken out. -/
  | freed (key : SlotKey)
deriving DecidableEq, Repr

namespace SlotEvent

/-- The slot in which it happens. -/
def index : SlotEvent → Nat
  | issued key => key.index
  | freed key => key.index

/-- Whether it vacates the slot. -/
def vacates : SlotEvent → Bool
  | issued _ => false
  | freed _ => true

/-- What happens to the values of a slot up to a generation, which is the first after them. -/
def past (i : Nat) : (generation : Nat) → List SlotEvent
  | 0 => []
  | n + 1 => past i n ++ [issued ⟨i, UInt32.ofNat n⟩, freed ⟨i, UInt32.ofNat n⟩]

/-- The number of times that a slot is vacated. -/
def frees (events : List SlotEvent) (i : Nat) : Nat :=
  events.countP fun e => e.index = i ∧ e.vacates = true

/-- What happens in one slot. -/
def within (events : List SlotEvent) (i : Nat) : List SlotEvent :=
  events.filter fun e => e.index = i

variable {events more : List SlotEvent} {i : Nat}

/-- What happens in a slot in the course of all events happens in the course of the first ones and then of the others. -/
theorem within_append : within (events ++ more) i = within events i ++ within more i :=
  List.filter_append ..

/-- Every event is one of those in its slot. -/
theorem mem_within {e : SlotEvent} : e ∈ within events e.index ↔ e ∈ events := by
  simp [within]

/-- Up to a generation a slot has been vacated as many times. -/
theorem vacates_past (n : Nat) : (past i n).countP vacates = n := by
  induction n with
  | zero => rfl
  | succ n ih =>
    rw [past, List.countP_append, ih]
    rfl

/-- The number of times that a slot is vacated is the number of vacating events in it. -/
theorem frees_eq : frees events i = (within events i).countP vacates := by
  rw [within, List.countP_filter, frees]
  refine List.countP_congr ?_
  intro e _
  simp [and_comm]

/-- Generations below all that can be counted are told apart by their numbers. -/
theorem ofNat_eq_iff {m : Nat} (hm : m < 2 ^ 32) (g : UInt32) : UInt32.ofNat m = g ↔ m = g.toNat := by
  constructor
  · rintro rfl
    exact (UInt32.toNat_ofNat_of_lt' hm).symm
  · rintro rfl
    exact UInt32.ofNat_toNat

/-- The keys of a slot that were issued up to a generation. -/
theorem issued_mem_past {n : Nat} (hn : n ≤ 2 ^ 32) {g : UInt32} : issued ⟨i, g⟩ ∈ past i n ↔ g.toNat < n := by
  induction n with
  | zero => simp [past]
  | succ n ih =>
    rw [past, List.mem_append, ih (by omega)]
    simp only [List.mem_cons, issued.injEq, SlotKey.mk.injEq, true_and, reduceCtorEq, List.not_mem_nil, or_false]
    rw [eq_comm, ofNat_eq_iff (by omega)]
    omega

/-- The keys of a slot that were freed up to a generation. -/
theorem freed_mem_past {n : Nat} (hn : n ≤ 2 ^ 32) {g : UInt32} : freed ⟨i, g⟩ ∈ past i n ↔ g.toNat < n := by
  induction n with
  | zero => simp [past]
  | succ n ih =>
    rw [past, List.mem_append, ih (by omega)]
    simp only [List.mem_cons, freed.injEq, SlotKey.mk.injEq, true_and, reduceCtorEq, List.not_mem_nil, or_false, false_or]
    rw [eq_comm, ofNat_eq_iff (by omega)]
    omega

/-- No event comes twice as long as generations do not wrap around. -/
theorem nodup_past {n : Nat} (hn : n ≤ 2 ^ 32) : (past i n).Nodup := by
  induction n with
  | zero => exact List.nodup_nil
  | succ n ih =>
    have hlt : (UInt32.ofNat n).toNat = n := UInt32.toNat_ofNat_of_lt' (Nat.lt_of_succ_le hn)
    rw [past, List.nodup_append]
    refine ⟨ih (by omega), by simp, ?_⟩
    rintro e he f hf rfl
    simp only [List.mem_cons, List.not_mem_nil, or_false] at hf
    rcases hf with rfl | rfl
    · have := (issued_mem_past (by omega)).mp he
      omega
    · have := (freed_mem_past (by omega)).mp he
      omega

end SlotEvent

open SlotEvent (issued freed past frees within)

namespace Slots

variable {α : Type} {s s' s'' : Slots α} {events more : List SlotEvent} {k : SlotKey}

/-- Values are stored, changed and taken out, one after the other. -/
inductive Steps : Slots α → List SlotEvent → Slots α → Prop
  | refl (s : Slots α) : Steps s [] s
  | insert {s s' : Slots α} {events : List SlotEvent} (before : Steps s events s') (a : α) :
      Steps s (events ++ [issued (s'.insert a).2]) (s'.insert a).1
  | modify {s s' : Slots α} {events : List SlotEvent} (before : Steps s events s') (k : SlotKey) (f : α → α) :
      Steps s events (s'.modify k f)
  | remove {s s' s'' : Slots α} {events : List SlotEvent} {k : SlotKey} {a : α} (before : Steps s events s')
      (removed : s'.remove? k = some (s'', a)) : Steps s (events ++ [freed k]) s''

/-- Events that lead from one state to another, and others from there on, lead on in a row. -/
theorem Steps.trans (h : Steps s events s') (h' : Steps s' more s'') : Steps s (events ++ more) s'' := by
  induction h' with
  | refl => rwa [List.append_nil]
  | insert _ a ih =>
    rw [← List.append_assoc]
    exact ih.insert a
  | modify _ k f ih => exact ih.modify k f
  | remove _ removed ih =>
    rw [← List.append_assoc]
    exact ih.remove removed

/-- What may have happened in a slot. -/
def Lived (i : Nat) (events : List SlotEvent) : Option (Slot α) → Prop
  | none => events = []
  | some slot => ∃ n, slot.generation = UInt32.ofNat n ∧
      events = past i n ++ if slot.value.isSome then [issued ⟨i, slot.generation⟩] else []

/-- Slots are sound, and these events have led to them from none. -/
structure Traced (s : Slots α) (events : List SlotEvent) : Prop where
  sound : s.Sound
  lived : ∀ i, Lived i (within events i) s.slots[i]?

theorem Traced.empty : Traced (empty : Slots α) [] :=
  ⟨Sound.empty, fun _ => rfl⟩

/-- Events in one slot concern that slot only. -/
theorem lived_of_agree {t : Slots α} {j : Nat} (h : ∀ i, Lived i (within events i) s.slots[i]?)
    (hother : ∀ i, i ≠ j → t.slots[i]? = s.slots[i]?) (hmore : ∀ e ∈ more, e.index = j)
    (hj : Lived j (within events j ++ more) t.slots[j]?) (i : Nat) : Lived i (within (events ++ more) i) t.slots[i]? := by
  rw [SlotEvent.within_append]
  by_cases hi : i = j
  · subst hi
    have hall : within more i = more := by
      refine List.filter_eq_self.mpr ?_
      intro e he
      exact decide_eq_true (hmore e he)
    rw [hall]
    exact hj
  · have hnone : within more i = [] := by
      refine List.filter_eq_nil_iff.mpr ?_
      intro e he hindex
      rw [hmore e he] at hindex
      exact hi (of_decide_eq_true hindex).symm
    rw [hnone, List.append_nil, hother i hi]
    exact h i

/-- Where no slot is vacant a value comes into a new one. -/
theorem insert_of_nil (h : s.vacant = []) (a : α) :
    s.insert a = (⟨s.slots.push ⟨0, some a⟩, [], s.count + 1⟩, ⟨s.slots.size, 0⟩) := by
  rw [Slots.insert, h]

/-- Where slots are vacant a value comes into the one that was vacated last, in its generation. -/
theorem insert_of_cons {i : Nat} {vacant : List Nat} {slot : Slot α} (h : s.vacant = i :: vacant)
    (hslot : s.slots[i]? = some slot) (a : α) :
    s.insert a =
      (⟨s.slots.setIfInBounds i ⟨slot.generation, some a⟩, vacant, s.count + 1⟩, ⟨i, slot.generation⟩) := by
  rw [Slots.insert, h]
  simp only [hslot, Option.map_some, Option.getD_some]

/-- A value that is stored begins to live in its slot. -/
theorem Traced.insert (h : s.Traced events) (a : α) : (s.insert a).1.Traced (events ++ [issued (s.insert a).2]) := by
  refine ⟨h.sound.insert a, ?_⟩
  cases hv : s.vacant with
  | nil =>
    rw [insert_of_nil hv]
    have hold := h.lived s.slots.size
    rw [Array.getElem?_eq_none (Nat.le_refl _)] at hold
    refine lived_of_agree (j := s.slots.size) h.lived ?_ (by simp [SlotEvent.index]) ?_
    · intro i hi
      simp [Array.getElem?_push, hi]
    · rw [Array.getElem?_push_size, show within events s.slots.size = [] from hold]
      exact ⟨0, rfl, rfl⟩
  | cons i vacant =>
    obtain ⟨slot, hslot, hnone⟩ := (h.sound.mem_vacant i).mp (by simp [hv])
    have hlt := (Array.getElem?_eq_some_iff.mp hslot).1
    have hold := h.lived i
    rw [hslot] at hold
    obtain ⟨n, hgeneration, hevents⟩ := hold
    rw [insert_of_cons hv hslot]
    refine lived_of_agree (j := i) h.lived ?_ (by simp [SlotEvent.index]) ?_
    · intro j hj
      simp [hj.symm]
    · rw [Array.getElem?_setIfInBounds_self_of_lt hlt]
      refine ⟨n, hgeneration, ?_⟩
      rw [hevents, hnone]
      simp

/-- Changing a value is no event. -/
theorem Traced.modify (h : s.Traced events) (k : SlotKey) (f : α → α) : (s.modify k f).Traced events := by
  refine ⟨h.sound.modify k f, ?_⟩
  unfold Slots.modify
  split
  · rename_i a hget
    have hslot := getElem?_of_get? hget
    have hlt := (Array.getElem?_eq_some_iff.mp hslot).1
    have hold := h.lived k.index
    rw [hslot] at hold
    rw [← List.append_nil events]
    refine lived_of_agree (j := k.index) h.lived ?_ (List.forall_mem_nil _) ?_
    · intro j hj
      simp [hj.symm]
    · rw [Array.getElem?_setIfInBounds_self_of_lt hlt, List.append_nil]
      exact hold
  · exact h.lived

/-- A value that is taken out ends to live in its slot. -/
theorem Traced.remove (h : s.Traced events) {a : α} (hremove : s.remove? k = some (s', a)) :
    s'.Traced (events ++ [freed k]) := by
  have hget : s.get? k = some a := by
    unfold remove? at hremove
    split at hremove
    · rename_i hget
      cases hremove
      exact hget
    · cases hremove
  obtain ⟨rest, hrest⟩ := Multiset.exists_cons_of_mem (mem_entries.mpr hget)
  obtain ⟨t, ht, _, hsound⟩ := h.sound.remove? hrest
  rw [hremove] at ht
  cases ht
  refine ⟨hsound, ?_⟩
  simp only [remove?, hget] at hremove
  cases hremove
  have hslot := getElem?_of_get? hget
  have hlt := (Array.getElem?_eq_some_iff.mp hslot).1
  have hold := h.lived k.index
  rw [hslot] at hold
  obtain ⟨n, hgeneration, hevents⟩ := hold
  refine lived_of_agree (j := k.index) h.lived ?_ (by simp [SlotEvent.index]) ?_
  · intro j hj
    simp [hj.symm]
  · rw [Array.getElem?_setIfInBounds_self_of_lt hlt]
    refine ⟨n + 1, ?_, ?_⟩
    · show k.generation + 1 = UInt32.ofNat (n + 1)
      rw [show k.generation = UInt32.ofNat n from hgeneration, UInt32.ofNat_add]
      rfl
    · rw [hevents, past, ← show k.generation = UInt32.ofNat n from hgeneration]
      simp

/-- Steps from slots with a history add to it. -/
theorem Traced.steps (h : s.Traced events) (hsteps : Steps s more s') : s'.Traced (events ++ more) := by
  induction hsteps with
  | refl => rwa [List.append_nil]
  | insert _ a ih =>
    rw [← List.append_assoc]
    exact ih.insert a
  | modify _ k f ih => exact ih.modify k f
  | remove _ removed ih =>
    rw [← List.append_assoc]
    exact ih.remove removed

/-! ## Keys and their values -/

/-- What has happened in the slot of a key, if it was not vacated too often. -/
theorem Traced.mem_iff (h : s.Traced events) (hfrees : frees events k.index < 2 ^ 32) :
    (issued k ∈ events ↔ ∃ slot, s.slots[k.index]? = some slot ∧
      (k.generation < slot.generation ∨ k.generation = slot.generation ∧ slot.value.isSome)) ∧
    (freed k ∈ events ↔ ∃ slot, s.slots[k.index]? = some slot ∧ k.generation < slot.generation) := by
  obtain ⟨i, g⟩ := k
  have hissued : issued ⟨i, g⟩ ∈ within events i ↔ issued ⟨i, g⟩ ∈ events := SlotEvent.mem_within
  have hfreed : freed ⟨i, g⟩ ∈ within events i ↔ freed ⟨i, g⟩ ∈ events := SlotEvent.mem_within
  have hi := h.lived i
  rw [SlotEvent.frees_eq] at hfrees
  simp only at hfrees
  rw [← hissued, ← hfreed]
  cases hslot : s.slots[i]? with
  | none =>
    rw [hslot] at hi
    rw [show within events i = [] from hi]
    simp
  | some slot =>
    rw [hslot] at hi
    obtain ⟨n, hgeneration, hevents⟩ := hi
    have hcount : (within events i).countP SlotEvent.vacates = n := by
      rw [hevents, List.countP_append, SlotEvent.vacates_past]
      split <;> rfl
    rw [hcount] at hfrees
    have htoNat : slot.generation.toNat = n := ((SlotEvent.ofNat_eq_iff hfrees _).mp hgeneration.symm).symm
    rw [hevents, List.mem_append, List.mem_append, SlotEvent.issued_mem_past hfrees.le,
      SlotEvent.freed_mem_past hfrees.le]
    simp only [Option.some.injEq, exists_eq_left', UInt32.lt_iff_toNat_lt, htoNat]
    constructor
    · split
      · rename_i hsome
        simp [hsome]
      · rename_i hsome
        simp [hsome]
    · split <;> simp

/-- A key stands for a value exactly if it was issued and has not been freed. -/
theorem Traced.isSome_get?_iff (h : s.Traced events) (hfrees : frees events k.index < 2 ^ 32) :
    (s.get? k).isSome ↔ issued k ∈ events ∧ freed k ∉ events := by
  obtain ⟨hissued, hfreed⟩ := h.mem_iff hfrees
  rw [hissued, hfreed, get?]
  cases s.slots[k.index]? with
  | none => simp
  | some slot =>
    simp only [Option.some.injEq, exists_eq_left']
    by_cases hgeneration : slot.generation = k.generation
    · rw [if_pos hgeneration, hgeneration]
      simp [UInt32.lt_irrefl]
    · rw [if_neg hgeneration]
      simp only [Option.isSome_none, Bool.false_eq_true, Ne.symm hgeneration, false_and, or_false, false_iff, not_and,
        not_not, imp_self]

/-- A key that stands for a value was issued. -/
theorem Traced.issued_mem (h : s.Traced events) (hget : (s.get? k).isSome) : issued k ∈ events := by
  obtain ⟨a, ha⟩ := Option.isSome_iff_exists.mp hget
  have hlived := h.lived k.index
  rw [getElem?_of_get? ha] at hlived
  obtain ⟨n, _, hevents⟩ := hlived
  refine SlotEvent.mem_within.mp ?_
  show issued k ∈ within events k.index
  rw [hevents]
  simp

/-- No key is issued or freed twice. -/
theorem Traced.nodup (h : s.Traced events) (hfrees : ∀ i, frees events i < 2 ^ 32) : events.Nodup := by
  have hwithin : ∀ i, (within events i).Nodup := by
    intro i
    have hi := h.lived i
    cases hslot : s.slots[i]? with
    | none =>
      rw [hslot] at hi
      rw [show within events i = [] from hi]
      exact List.nodup_nil
    | some slot =>
      rw [hslot] at hi
      obtain ⟨n, hgeneration, hevents⟩ := hi
      have hcount := hfrees i
      rw [SlotEvent.frees_eq, hevents, List.countP_append, SlotEvent.vacates_past] at hcount
      have hn : n < 2 ^ 32 := by omega
      have htoNat : slot.generation.toNat = n := ((SlotEvent.ofNat_eq_iff hn _).mp hgeneration.symm).symm
      rw [hevents, List.nodup_append]
      refine ⟨SlotEvent.nodup_past hn.le, by split <;> simp, ?_⟩
      rintro e he f hf rfl
      split at hf
      · rw [List.mem_singleton.mp hf, SlotEvent.issued_mem_past hn.le] at he
        omega
      · cases hf
  refine List.nodup_iff_count_le_one.mpr ?_
  intro e
  have hcount := List.nodup_iff_count_le_one.mp (hwithin e.index) e
  rw [within, List.count_filter (by simp)] at hcount
  exact hcount

/-! ## Generations -/

/-- The generation of a slot; a slot that is still to come begins with the first. -/
def generation (s : Slots α) (i : Nat) : UInt32 :=
  (s.slots[i]?.map Slot.generation).getD 0

/-- Values are only changed and taken out. -/
def Clears (s s' : Slots α) : Prop :=
  ∃ events, Steps s events s' ∧ ∀ e ∈ events, e.vacates = true

/-- Values are only changed and stored. -/
def Fills (s s' : Slots α) : Prop :=
  ∃ events, Steps s events s' ∧ ∀ e ∈ events, e.vacates = false

namespace Clears

theorem refl (s : Slots α) : Clears s s :=
  ⟨[], .refl s, List.forall_mem_nil _⟩

theorem trans (h : Clears s s') (h' : Clears s' s'') : Clears s s'' := by
  obtain ⟨events, hsteps, hevents⟩ := h
  obtain ⟨more, hsteps', hmore⟩ := h'
  exact ⟨events ++ more, hsteps.trans hsteps', List.forall_mem_append.mpr ⟨hevents, hmore⟩⟩

/-- Changing a value in place takes nothing out. -/
theorem modify (s : Slots α) (k : SlotKey) (f : α → α) : Clears s (s.modify k f) :=
  ⟨[], (Steps.refl s).modify k f, List.forall_mem_nil _⟩

/-- Taking out a value only takes something out. -/
theorem remove {a : α} (h : s.remove? k = some (s', a)) : Clears s s' :=
  ⟨[freed k], (Steps.refl s).remove h, List.forall_mem_singleton.mpr rfl⟩

end Clears

namespace Fills

theorem refl (s : Slots α) : Fills s s :=
  ⟨[], .refl s, List.forall_mem_nil _⟩

theorem trans (h : Fills s s') (h' : Fills s' s'') : Fills s s'' := by
  obtain ⟨events, hsteps, hevents⟩ := h
  obtain ⟨more, hsteps', hmore⟩ := h'
  exact ⟨events ++ more, hsteps.trans hsteps', List.forall_mem_append.mpr ⟨hevents, hmore⟩⟩

/-- Changing a value in place adds nothing. -/
theorem modify (s : Slots α) (k : SlotKey) (f : α → α) : Fills s (s.modify k f) :=
  ⟨[], (Steps.refl s).modify k f, List.forall_mem_nil _⟩

/-- Adding a value only adds something. -/
theorem insert (s : Slots α) (a : α) : Fills s (s.insert a).1 :=
  ⟨[issued (s.insert a).2], (Steps.refl s).insert a, List.forall_mem_singleton.mpr rfl⟩

end Fills

/-- Whether a slot holds a value. -/
def holdsAt (s : Slots α) (i : Nat) : Bool :=
  (s.slots[i]?.any fun slot => slot.value.isSome)

/-- A key stands for a value exactly if its slot holds one and is of its generation. -/
theorem isSome_get?_iff : (s.get? k).isSome ↔ s.holdsAt k.index = true ∧ s.generation k.index = k.generation := by
  rw [get?, holdsAt, generation]
  cases s.slots[k.index]? with
  | none => simp
  | some slot =>
    by_cases h : slot.generation = k.generation
    · simp [h]
    · simp [h]

/-- Changing a value leaves all generations, and the slots that hold a value. -/
theorem generation_modify (k : SlotKey) (f : α → α) (i : Nat) :
    (s.modify k f).generation i = s.generation i ∧ (s.modify k f).holdsAt i = s.holdsAt i := by
  unfold Slots.modify
  split
  · rename_i a hget
    have hslot := getElem?_of_get? hget
    have hlt := (Array.getElem?_eq_some_iff.mp hslot).1
    by_cases hi : i = k.index
    · subst hi
      rw [generation, generation, holdsAt, holdsAt, Array.getElem?_setIfInBounds_self_of_lt hlt, hslot]
      exact ⟨rfl, rfl⟩
    · rw [generation, generation, holdsAt, holdsAt, Array.getElem?_setIfInBounds_ne (Ne.symm hi)]
      exact ⟨rfl, rfl⟩
  · exact ⟨rfl, rfl⟩

/-- Storing a value leaves all generations, and the slots that hold a value. -/
theorem generation_insert (a : α) (i : Nat) :
    (s.insert a).1.generation i = s.generation i ∧ (s.holdsAt i = true → (s.insert a).1.holdsAt i = true) := by
  rw [generation, generation, holdsAt, holdsAt, Slots.insert]
  cases s.vacant with
  | nil =>
    simp only [Array.getElem?_push]
    split
    · rename_i hi
      rw [hi, Array.getElem?_eq_none (Nat.le_refl _)]
      exact ⟨rfl, fun _ => rfl⟩
    · exact ⟨rfl, id⟩
  | cons j vacant =>
    simp only [Array.getElem?_setIfInBounds]
    split
    · rename_i hj
      subst hj
      split
      · rename_i hlt
        rw [Array.getElem?_eq_getElem hlt]
        exact ⟨rfl, fun _ => rfl⟩
      · rename_i hge
        rw [Array.getElem?_eq_none (Nat.le_of_not_lt hge)]
        exact ⟨rfl, id⟩
    · exact ⟨rfl, id⟩

/-- Taking a value out leaves the other slots as they are. -/
theorem generation_remove_of_ne {a : α} (h : s.remove? k = some (s', a)) {i : Nat} (hi : i ≠ k.index) :
    s'.generation i = s.generation i ∧ s'.holdsAt i = s.holdsAt i := by
  unfold remove? at h
  split at h
  · cases h
    rw [generation, generation, holdsAt, holdsAt, Array.getElem?_setIfInBounds_ne (Ne.symm hi)]
    exact ⟨rfl, rfl⟩
  · cases h

/-- The slot of a value that is taken out takes up the next generation. -/
theorem generation_remove_self {a : α} (h : s.remove? k = some (s', a)) :
    s'.generation k.index = s.generation k.index + 1 ∧ s.holdsAt k.index = true ∧ s'.holdsAt k.index = false := by
  unfold remove? at h
  split at h
  · rename_i hget
    cases h
    have hslot := getElem?_of_get? hget
    have hlt := (Array.getElem?_eq_some_iff.mp hslot).1
    rw [generation, generation, holdsAt, holdsAt, Array.getElem?_setIfInBounds_self_of_lt hlt, hslot]
    exact ⟨rfl, rfl, rfl⟩
  · cases h

/-- Where values are only taken out, a slot stays as it is, or it held one, and takes up the next generation. -/
theorem Clears.generation (h : Clears s s') (i : Nat) :
    s'.generation i = s.generation i ∧ s'.holdsAt i = s.holdsAt i ∨
      s'.generation i = s.generation i + 1 ∧ s.holdsAt i = true ∧ s'.holdsAt i = false := by
  obtain ⟨events, hsteps, hevents⟩ := h
  induction hsteps with
  | refl => exact Or.inl ⟨rfl, rfl⟩
  | insert _ a ih =>
    have hlast := hevents _ (List.mem_append_right _ List.mem_cons_self)
    cases hlast
  | modify _ k f ih =>
    obtain ⟨hgeneration, hholds⟩ := generation_modify (s := _) k f i
    rw [hgeneration, hholds]
    exact ih hevents
  | @remove s₁ s₂ _ k a before removed ih =>
    have hbefore := ih fun e he => hevents e (List.mem_append_left _ he)
    by_cases hi : i = k.index
    · subst hi
      obtain ⟨hnext, hheld, hempty⟩ := generation_remove_self removed
      rcases hbefore with ⟨hsame, hholds⟩ | ⟨_, _, hvacant⟩
      · rw [hnext, hsame]
        exact Or.inr ⟨rfl, hholds.symm.trans hheld, hempty⟩
      · rw [hvacant] at hheld
        cases hheld
    · obtain ⟨hsame, hholds⟩ := generation_remove_of_ne removed hi
      rw [hsame, hholds]
      exact hbefore

/-- Where values are only stored, generations stay. -/
theorem Fills.generation (h : Fills s s') (i : Nat) :
    s'.generation i = s.generation i ∧ (s.holdsAt i = true → s'.holdsAt i = true) := by
  obtain ⟨events, hsteps, hevents⟩ := h
  induction hsteps with
  | refl => exact ⟨rfl, id⟩
  | insert before a ih =>
    obtain ⟨hgeneration, hholds⟩ := ih fun e he => hevents e (List.mem_append_left _ he)
    obtain ⟨hgeneration', hholds'⟩ := generation_insert (s := _) a i
    exact ⟨hgeneration'.trans hgeneration, hholds' ∘ hholds⟩
  | modify before k f ih =>
    obtain ⟨hgeneration, hholds⟩ := generation_modify (s := _) k f i
    rw [hgeneration, hholds]
    exact ih hevents
  | remove before removed ih =>
    have hlast := hevents _ (List.mem_append_right _ List.mem_cons_self)
    cases hlast

/-- Values are taken out first, and then others are stored. -/
def Turns (s s' : Slots α) : Prop :=
  ∃ m, Clears s m ∧ Fills m s'

namespace Turns

/-- Whatever is taken out and added, it has been some events. -/
theorem steps (h : Turns s s') : ∃ events, Steps s events s' := by
  obtain ⟨m, ⟨events, hsteps, _⟩, more, hsteps', _⟩ := h
  exact ⟨events ++ more, hsteps.trans hsteps'⟩

/-- A slot keeps its generation and goes on holding a value, or its value goes and it takes up the next generation. -/
theorem generation (h : Turns s s') (i : Nat) :
    s'.generation i = s.generation i ∧ (s.holdsAt i = true → s'.holdsAt i = true) ∨
      s'.generation i = s.generation i + 1 ∧ s.holdsAt i = true := by
  obtain ⟨m, hclears, hfills⟩ := h
  obtain ⟨hgeneration, hholds⟩ := hfills.generation i
  rcases hclears.generation i with ⟨hsame, hheld⟩ | ⟨hnext, hheld, _⟩
  · refine Or.inl ⟨hgeneration.trans hsame, ?_⟩
    intro hi
    exact hholds (hheld.trans hi)
  · exact Or.inr ⟨hgeneration.trans hnext, hheld⟩

/-- The slot of a key that stands for nothing any more takes up the next generation. -/
theorem generation_succ (h : Turns s s') (hlive : (s.get? k).isSome) (hdead : s'.get? k = none) :
    s'.generation k.index = k.generation + 1 := by
  obtain ⟨hheld, hgeneration⟩ := isSome_get?_iff.mp hlive
  rcases h.generation k.index with ⟨hsame, hholds⟩ | ⟨hnext, _⟩
  · have hstill : (s'.get? k).isSome := isSome_get?_iff.mpr ⟨hholds hheld, hsame.trans hgeneration⟩
    rw [hdead] at hstill
    cases hstill
  · rw [hnext, hgeneration]

end Turns

end Slots

end LiveMarkup
