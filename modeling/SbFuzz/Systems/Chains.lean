import Mathlib.Data.Set.Insert
import Mathlib.Logic.Function.Basic

/-! Tables of chains: every key lives in the chain of its slot, so a search
that looks at one chain finds what the whole table holds. -/

set_option autoImplicit false

namespace SbFuzz.Systems

variable {Key Slot : Type}

/-- A table whose chains hold only keys of their own slot. -/
structure Chains (slot : Key → Slot) where
  chain : Slot → List Key
  placed : ∀ index, ∀ key ∈ chain index, slot key = index

namespace Chains

variable {slot : Key → Slot}

def contents (table : Chains slot) : Set Key := {key | ∃ index, key ∈ table.chain index}

theorem mem_contents (table : Chains slot) (key : Key) :
    key ∈ table.contents ↔ key ∈ table.chain (slot key) := by
  constructor
  · intro held
    obtain ⟨index, member⟩ := held
    have own := table.placed index key member
    rwa [own]
  · intro member
    exact ⟨slot key, member⟩

def empty : Chains slot where
  chain := fun _ => []
  placed := fun _ _ member => absurd member List.not_mem_nil

@[simp] theorem contents_empty : (empty : Chains slot).contents = ∅ := by
  ext key
  simp [mem_contents, empty]

section

variable [DecidableEq Slot]

/-- A new node at the head of its chain. -/
def push (table : Chains slot) (key : Key) : Chains slot where
  chain := Function.update table.chain (slot key) (key :: table.chain (slot key))
  placed := by
    intro index other member
    by_cases here : index = slot key
    · subst here
      rw [Function.update_self, List.mem_cons] at member
      rcases member with rfl | older
      · rfl
      · exact table.placed _ other older
    · rw [Function.update_of_ne here] at member
      exact table.placed index other member

@[simp] theorem contents_push (table : Chains slot) (key : Key) :
    (table.push key).contents = insert key table.contents := by
  ext other
  rw [Set.mem_insert_iff, mem_contents, mem_contents]
  simp only [push]
  by_cases same : slot other = slot key
  · simp only [same, Function.update_self, List.mem_cons]
  · rw [Function.update_of_ne same]
    have different : other ≠ key := fun equal => same (equal ▸ rfl)
    simp only [different, false_or]

end

variable [DecidableEq Key]

def search (table : Chains slot) (key : Key) : Bool := (table.chain (slot key)).contains key

theorem search_eq_true (table : Chains slot) (key : Key) :
    table.search key = true ↔ key ∈ table.contents := by
  rw [search, List.contains_iff_mem, mem_contents]

variable [DecidableEq Slot]

/-- Says whether the key was there, and adds it when it was not. -/
def visit (table : Chains slot) (key : Key) : Bool × Chains slot :=
  if table.search key then (true, table) else (false, table.push key)

theorem visit_found (table : Chains slot) (key : Key) :
    (table.visit key).1 = true ↔ key ∈ table.contents := by
  rw [← search_eq_true, visit]
  split <;> simp_all

theorem contents_visit (table : Chains slot) (key : Key) :
    (table.visit key).2.contents = insert key table.contents := by
  rw [visit]
  split
  · next found =>
    exact (Set.insert_eq_of_mem ((table.search_eq_true key).mp found)).symm
  · exact table.contents_push key

end Chains

end SbFuzz.Systems
