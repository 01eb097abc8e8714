import Mathlib.Data.List.Basic
import Mathlib.Data.List.Rotate

/-! Rings of slots that are overwritten one after another, and what they hold of a sequence. -/

set_option autoImplicit false

namespace SbFuzz.Systems.RingBuffer

/-- The slot at the cursor is the oldest one. -/
structure RingBuf (Slot : Type) where
  slots : List Slot
  cursor : Nat
  inside : cursor < slots.length

section

variable {Slot : Type}

def RingBuf.push (ring : RingBuf Slot) (slot : Slot) : RingBuf Slot where
  slots := ring.slots.set ring.cursor slot
  cursor := if ring.slots.length ≤ ring.cursor + 1 then 0 else ring.cursor + 1
  inside := by
    have inside := ring.inside
    rw [List.length_set]
    split <;> omega

def RingBuf.newest (ring : RingBuf Slot) : Nat :=
  if ring.cursor = 0 then ring.slots.length - 1 else ring.cursor - 1

theorem RingBuf.newest_lt (ring : RingBuf Slot) : ring.newest < ring.slots.length := by
  have inside := ring.inside
  unfold RingBuf.newest
  split <;> omega

/-- All slots but the newest one are cleared. -/
def RingBuf.keepNewest (ring : RingBuf Slot) (clear : Slot → Slot) : RingBuf Slot where
  slots := (ring.slots.map clear).set ring.newest (ring.slots.get ⟨ring.newest, ring.newest_lt⟩)
  cursor := ring.cursor
  inside := by
    rw [List.length_set, List.length_map]
    exact ring.inside

def RingBuf.oldestFirst (ring : RingBuf Slot) : List Slot :=
  (List.range ring.slots.length).filterMap fun i =>
    ring.slots[(i + ring.cursor) % ring.slots.length]?

variable {ring : RingBuf Slot}

theorem RingBuf.push_slots (slot : Slot) :
    (ring.push slot).slots = ring.slots.set ring.cursor slot := rfl

theorem RingBuf.push_cursor (slot : Slot) : (ring.push slot).cursor =
    if ring.slots.length ≤ ring.cursor + 1 then 0 else ring.cursor + 1 := rfl

theorem RingBuf.keepNewest_slots {clear : Slot → Slot} {last : Slot}
    (found : ring.slots[ring.newest]? = some last) :
    (ring.keepNewest clear).slots = (ring.slots.map clear).set ring.newest last := by
  obtain ⟨_, rfl⟩ := List.getElem?_eq_some_iff.mp found
  rfl

theorem RingBuf.keepNewest_cursor {clear : Slot → Slot} :
    (ring.keepNewest clear).cursor = ring.cursor := rfl

theorem RingBuf.oldestFirst_eq : ring.oldestFirst =
    ring.slots.drop ring.cursor ++ ring.slots.take ring.cursor := by
  rw [← List.rotate_eq_drop_append_take (Nat.le_of_lt ring.inside), RingBuf.oldestFirst]
  have size : ring.slots.length = (ring.slots.rotate ring.cursor).length :=
    (List.length_rotate _ _).symm
  have each : ∀ i ∈ List.range ring.slots.length,
      ring.slots[(i + ring.cursor) % ring.slots.length]? = (ring.slots.rotate ring.cursor)[i]? :=
    fun i inside => (List.getElem?_rotate (List.mem_range.mp inside)).symm
  rw [List.filterMap_congr each, size]
  generalize ring.slots.rotate ring.cursor = turned
  induction turned with
  | nil => rfl
  | cons slot rest ih =>
      rw [List.length_cons, List.range_succ_eq_map, List.filterMap_cons, List.filterMap_map]
      exact congrArg (slot :: ·) ih

theorem RingBuf.oldestFirst_of {before after : List Slot} (slots : ring.slots = before ++ after)
    (cursor : ring.cursor = before.length) : ring.oldestFirst = after ++ before := by
  rw [RingBuf.oldestFirst_eq, slots, cursor, List.drop_left, List.take_left]

theorem RingBuf.split (ring : RingBuf Slot) : ∃ before old after,
    ring.slots = before ++ old :: after ∧ ring.cursor = before.length := by
  refine ⟨ring.slots.take ring.cursor, ring.slots.get ⟨ring.cursor, ring.inside⟩,
    ring.slots.drop (ring.cursor + 1), ?_, ?_⟩
  · rw [List.get_eq_getElem, ← List.drop_eq_getElem_cons ring.inside, List.take_append_drop]
  · rw [List.length_take_of_le (Nat.le_of_lt ring.inside)]

theorem RingBuf.length_oldestFirst : ring.oldestFirst.length = ring.slots.length := by
  obtain ⟨before, old, after, slots, cursor⟩ := ring.split
  rw [RingBuf.oldestFirst_of slots cursor, slots, List.length_append, List.length_append, Nat.add_comm]

theorem RingBuf.oldestFirst_push (slot : Slot) :
    (ring.push slot).oldestFirst = ring.oldestFirst.tail ++ [slot] := by
  obtain ⟨before, old, after, slots, cursor⟩ := ring.split
  have written : (ring.push slot).slots = before ++ slot :: after := by
    rw [RingBuf.push_slots, slots, cursor, List.set_append_right _ _ (Nat.le_refl _), Nat.sub_self]
    rfl
  rw [RingBuf.oldestFirst_of slots cursor]
  cases after with
  | nil =>
      have wrapped : (ring.push slot).cursor = ([] : List Slot).length := by
        rw [RingBuf.push_cursor, slots, cursor]
        simp
      rw [← List.nil_append (before ++ [slot])] at written
      rw [RingBuf.oldestFirst_of written wrapped, List.append_nil]
      rfl
  | cons next rest =>
      have advanced : (ring.push slot).cursor = (before ++ [slot]).length := by
        rw [RingBuf.push_cursor, slots, cursor]
        simp
      rw [List.append_cons] at written
      rw [RingBuf.oldestFirst_of written advanced, ← List.append_assoc]
      rfl

theorem RingBuf.oldestFirst_keepNewest {older : List Slot} {last : Slot} (clear : Slot → Slot)
    (order : ring.oldestFirst = older ++ [last]) :
    (ring.keepNewest clear).oldestFirst = older.map clear ++ [last] := by
  obtain ⟨before, old, after, slots, cursor⟩ := ring.split
  rw [RingBuf.oldestFirst_of slots cursor] at order
  cases before using List.reverseRecOn with
  | nil =>
      rw [List.append_nil] at order
      have index : ring.newest = older.length := by
        rw [RingBuf.newest, cursor, if_pos List.length_nil, slots, List.nil_append, order]
        simp
      have found : ring.slots[ring.newest]? = some last := by
        rw [index, slots, List.nil_append, order]
        simp
      have kept : (ring.keepNewest clear).slots = [] ++ (older.map clear ++ [last]) := by
        rw [RingBuf.keepNewest_slots found, index, slots, List.nil_append, order]
        simp
      rw [RingBuf.oldestFirst_of kept cursor, List.append_nil]
  | append_singleton front newest =>
      rw [← List.append_assoc] at order
      obtain ⟨rfl, same⟩ := List.append_inj' order rfl
      obtain rfl := List.singleton_inj.mp same
      have index : ring.newest = front.length := by
        rw [RingBuf.newest, cursor]
        simp
      have found : ring.slots[ring.newest]? = some newest := by
        rw [index, slots]
        simp
      have kept : (ring.keepNewest clear).slots =
          (front.map clear ++ [newest]) ++ (old :: after).map clear := by
        rw [RingBuf.keepNewest_slots found, index, slots]
        simp
      have place : (ring.keepNewest clear).cursor = (front.map clear ++ [newest]).length := by
        rw [RingBuf.keepNewest_cursor, cursor]
        simp
      rw [RingBuf.oldestFirst_of kept place, List.map_append, List.append_assoc]

/-! ## The end of a sequence -/

variable {Item : Type}

/-- What is left of `base` and of the items that were pushed onto it. -/
def window (base : List (Option Item)) (items : List Item) : List (Option Item) :=
  (base ++ items.map some).drop items.length

theorem window_nil (base : List (Option Item)) : window base [] = base := by
  rw [window, List.map_nil, List.append_nil, List.length_nil, List.drop_zero]

theorem window_push {base : List (Option Item)} (room : base ≠ []) (items : List Item)
    (item : Item) : window base (items ++ [item]) = (window base items).tail ++ [some item] := by
  have positive := List.length_pos_of_ne_nil room
  have inside : items.length + 1 ≤ (base ++ items.map some).length := by
    rw [List.length_append, List.length_map]
    omega
  rw [window, window, List.tail_drop, List.length_append, List.length_singleton, List.map_append,
    ← List.append_assoc, List.drop_append_of_le_length inside]
  rfl

theorem window_singleton {base : List (Option Item)} (room : base ≠ []) (item : Item) :
    window base [item] = base.tail ++ [some item] := by
  have pushed := window_push room [] item
  rwa [window_nil] at pushed

/-- The last items, as many as fit. -/
theorem window_empty (size : Nat) (items : List Item) :
    (window (List.replicate size none) items).filterMap id =
      items.drop (items.length - size) := by
  rw [window, List.drop_append, List.drop_replicate, List.length_replicate, List.filterMap_append,
    ← List.map_drop, List.filterMap_map]
  have nothing : (List.replicate (size - items.length) (none : Option Item)).filterMap id = [] := by
    simp
  rw [nothing, List.nil_append]
  exact List.filterMap_some

theorem window_full {base : List (Option Item)} {items : List Item}
    (full : base.length ≤ items.length) : (window base items).filterMap id =
      items.drop (items.length - base.length) := by
  rw [window, List.drop_append, List.drop_of_length_le full, List.nil_append, ← List.map_drop,
    List.filterMap_map]
  exact List.filterMap_some

end

end SbFuzz.Systems.RingBuffer
