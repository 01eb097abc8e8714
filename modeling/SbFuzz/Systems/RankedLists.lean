import Mathlib.Data.List.Basic
import Mathlib.Data.List.Nodup
import Mathlib.Data.List.Pairwise

/-! Lists in the order of a rank, and first occurrences in them. -/

set_option autoImplicit false

namespace SbFuzz.Systems

variable {α : Type}

/-- The ranks do not decrease along the list. -/
def Ranked (rank : α → Nat) (items : List α) : Prop :=
  items.Pairwise fun earlier later => rank earlier ≤ rank later

section

variable {rank : α → Nat} {item : α} {items left right : List α}

theorem Ranked.sublist (ranked : Ranked rank right) (sub : left.Sublist right) :
    Ranked rank left := List.Pairwise.sublist sub ranked

theorem Ranked.tail (ranked : Ranked rank (item :: items)) : Ranked rank items :=
  (List.pairwise_cons.mp ranked).2

theorem Ranked.head_le (ranked : Ranked rank (item :: items)) {other : α}
    (member : other ∈ items) : rank item ≤ rank other :=
  (List.pairwise_cons.mp ranked).1 other member

/-- Behind an item of greater rank there is no copy of the one before. -/
theorem Ranked.not_mem_of_lt (ranked : Ranked rank (item :: items)) {other : α}
    (less : rank other < rank item) : other ∉ item :: items := by
  intro member
  rcases List.mem_cons.mp member with rfl | later
  · exact Nat.lt_irrefl _ less
  · exact absurd (ranked.head_le later) (Nat.not_le.mpr less)

end

section

variable [BEq α]

theorem eraseDups_sublist (items : List α) : items.eraseDups.Sublist items := by
  induction hn : items.length using Nat.strongRecOn generalizing items with
  | ind n ih =>
      cases items with
      | nil => simp
      | cons item rest =>
          rw [List.eraseDups_cons]
          apply List.Sublist.cons_cons
          have shorter : (rest.filter fun other => !other == item).length < n := by
            have bound := List.length_filter_le (fun other => !other == item) rest
            simp only [List.length_cons] at hn
            omega
          exact (ih _ shorter _ rfl).trans List.filter_sublist

theorem nodup_eraseDups [LawfulBEq α] (items : List α) : items.eraseDups.Nodup := by
  induction hn : items.length using Nat.strongRecOn generalizing items with
  | ind n ih =>
      cases items with
      | nil => simp
      | cons item rest =>
          rw [List.eraseDups_cons, List.nodup_cons]
          have shorter : (rest.filter fun other => !other == item).length < n := by
            have bound := List.length_filter_le (fun other => !other == item) rest
            simp only [List.length_cons] at hn
            omega
          refine ⟨fun member => ?_, ih _ shorter _ rfl⟩
          simp at member

end

end SbFuzz.Systems
