import LiveMarkup.Store.Handle

/-!
# Slots

Values are kept in numbered slots. A slot that is vacated takes up its next generation and is used again before any slot
that was vacated earlier, so which slot a value gets depends only on the insertions and removals so far. A key fits a slot
while the slot holds a value of the key's generation; generations are counted in 32 bits and start over after the last.
-/

namespace LiveMarkup

/-- One slot: its current generation, and the value it holds if it is occupied. -/
structure Slot (α : Type) where
  generation : UInt32
  value : Option α
deriving DecidableEq, Repr

/-- Numbered slots, the vacant ones among them in the order in which they are used again, and the number of the others. -/
structure Slots (α : Type) where
  slots : Array (Slot α)
  vacant : List Nat
  count : Nat
deriving DecidableEq, Repr

namespace Slots

variable {α : Type}

/-- No slots. -/
def empty : Slots α := ⟨#[], [], 0⟩

/-- The value that a key stands for. -/
def get? (s : Slots α) (k : SlotKey) : Option α :=
  match s.slots[k.index]? with
  | some slot => if slot.generation = k.generation then slot.value else none
  | none => none

/-- Stores a value in the slot vacated last, or else in a new one, and gives its key. -/
def insert (s : Slots α) (a : α) : Slots α × SlotKey :=
  match s.vacant with
  | i :: vacant =>
    let generation := (s.slots[i]?.map Slot.generation).getD 0
    (⟨s.slots.setIfInBounds i ⟨generation, some a⟩, vacant, s.count + 1⟩, ⟨i, generation⟩)
  | [] => (⟨s.slots.push ⟨0, some a⟩, [], s.count + 1⟩, ⟨s.slots.size, 0⟩)

/-- Changes the value that a key stands for, if it stands for one. -/
def modify (s : Slots α) (k : SlotKey) (f : α → α) : Slots α :=
  match s.get? k with
  | some a => { s with slots := s.slots.setIfInBounds k.index ⟨k.generation, some (f a)⟩ }
  | none => s

/-- Takes the value that a key stands for out of its slot, which becomes vacant. -/
def remove? (s : Slots α) (k : SlotKey) : Option (Slots α × α) :=
  match s.get? k with
  | some a =>
    some (⟨s.slots.setIfInBounds k.index ⟨k.generation + 1, none⟩, k.index :: s.vacant, s.count - 1⟩, a)
  | none => none

/-- The number of slots that hold a value. -/
def occupied (s : Slots α) : Nat :=
  s.slots.countP fun slot => slot.value.isSome

/-- Taking a value out leaves fewer slots that hold one. -/
theorem occupied_remove? {s s' : Slots α} {k : SlotKey} {a : α} (h : s.remove? k = some (s', a)) :
    s'.occupied < s.occupied := by
  unfold remove? get? at h
  split at h
  · rename_i found hg
    cases h
    split at hg
    · rename_i slot hs
      obtain ⟨hi, rfl⟩ := Array.getElem?_eq_some_iff.mp hs
      split at hg
      · have hsome : (s.slots[k.index]).value.isSome = true := by rw [hg]; rfl
        have hpos : 0 < s.slots.countP fun slot => slot.value.isSome :=
          Array.countP_pos_iff.mpr ⟨_, Array.getElem_mem hi, hsome⟩
        simp only [occupied, Array.setIfInBounds, dif_pos hi]
        rw [Array.countP_set, if_pos hsome, if_neg (by simp)]
        omega
      · simp at hg
    · simp at hg
  · simp at h

end Slots

end LiveMarkup
