import Mathlib.Data.List.Basic

/-! Maximal stretches of a list on which a key is constant, and how they grow
when the list is read from left to right. -/

set_option autoImplicit false

namespace SbFuzz.Systems

variable {α κ : Type} {key : α → κ}

/-- All of `run` has the key `k`, and its neighbours have another. -/
structure Stretch (key : α → κ) (k : κ) (before run after : List α) : Prop where
  nonempty : run ≠ []
  same : ∀ item ∈ run, key item = k
  starts : ∀ item ∈ before.getLast?, key item ≠ k
  ends : ∀ item ∈ after.head?, key item ≠ k

/-- A stretch at the end of the list. -/
def OpenStretch (key : α → κ) (list : List α) (k : κ) (run : List α) : Prop :=
  ∃ before, list = before ++ run ∧ Stretch key k before run []

/-- A stretch that another item follows. -/
def ClosedStretch (key : α → κ) (list : List α) (k : κ) (run : List α) : Prop :=
  ∃ before after, list = before ++ run ++ after ∧ after ≠ [] ∧ Stretch key k before run after

theorem Stretch.getLast?_key {k : κ} {before run after : List α} (stretch : Stretch key k before run after) :
    ∀ item ∈ (before ++ run).getLast?, key item = k := by
  intro item last
  rw [List.getLast?_append_of_ne_nil before stretch.nonempty] at last
  exact stretch.same item (List.mem_of_getLast? last)

theorem OpenStretch.getLast?_key {list run : List α} {k : κ} (opened : OpenStretch key list k run) :
    ∀ item ∈ list.getLast?, key item = k := by
  obtain ⟨before, rfl, stretch⟩ := opened
  exact stretch.getLast?_key

/-- No stretch begins inside another with the same end. -/
theorem not_starts_inside {k : κ} {before inner run after : List α} {first : List α}
    (outer : Stretch key k before (inner ++ run) after)
    (stretch : Stretch key k (first ++ inner) run after) : inner = [] := by
  by_contra nonempty
  obtain ⟨item, last⟩ := Option.isSome_iff_exists.mp (List.getLast?_isSome.mpr nonempty)
  have within : item ∈ (first ++ inner).getLast? := by
    rw [List.getLast?_append_of_ne_nil first nonempty]
    exact last
  exact stretch.starts item within
    (outer.same item (List.mem_append_left run (List.mem_of_getLast? last)))

/-- The stretch at the end is unique. -/
theorem OpenStretch.unique {list first second : List α} {k l : κ}
    (left : OpenStretch key list k first) (right : OpenStretch key list l second) :
    k = l ∧ first = second := by
  obtain ⟨before, rfl, stretch⟩ := left
  have known := right.getLast?_key
  obtain ⟨other, together, otherStretch⟩ := right
  have nonempty : before ++ first ≠ [] := List.append_ne_nil_of_right_ne_nil _ stretch.nonempty
  obtain ⟨item, last⟩ := Option.isSome_iff_exists.mp (List.getLast?_isSome.mpr nonempty)
  obtain rfl : k = l := (stretch.getLast?_key item last).symm.trans (known item last)
  refine ⟨rfl, ?_⟩
  rcases List.append_eq_append_iff.mp together with ⟨inner, rfl, rfl⟩ | ⟨inner, rfl, rfl⟩
  · rw [not_starts_inside stretch otherStretch, List.nil_append]
  · rw [not_starts_inside otherStretch stretch, List.nil_append]

/-! ## One more item -/

theorem OpenStretch.extend {list run : List α} {k : κ} {item : α}
    (opened : OpenStretch key list k run) (same : key item = k) :
    OpenStretch key (list ++ [item]) k (run ++ [item]) := by
  obtain ⟨before, rfl, stretch⟩ := opened
  refine ⟨before, List.append_assoc .., ?_, ?_, stretch.starts, stretch.ends⟩
  · exact List.append_ne_nil_of_right_ne_nil _ (List.cons_ne_nil item [])
  · intro other member
    rcases List.mem_append.mp member with previous | added
    · exact stretch.same other previous
    · rw [List.mem_singleton.mp added]
      exact same

theorem OpenStretch.singleton {list : List α} {item : α}
    (differs : ∀ last ∈ list.getLast?, key last ≠ key item) :
    OpenStretch key (list ++ [item]) (key item) [item] := by
  refine ⟨list, rfl, List.cons_ne_nil item [], ?_, differs, ?_⟩
  · intro other member
    rw [List.mem_singleton.mp member]
  · intro other member
    cases member

/-- A stretch is closed by an item with another key. -/
theorem closedStretch_concat {list run : List α} {k : κ} {item : α} :
    ClosedStretch key (list ++ [item]) k run ↔
      ClosedStretch key list k run ∨ OpenStretch key list k run ∧ key item ≠ k := by
  constructor
  · rintro ⟨before, after, together, nonempty, stretch⟩
    obtain ⟨rest, last, rfl⟩ : ∃ rest last, after = rest ++ [last] :=
      ⟨after.dropLast, after.getLast nonempty, (List.dropLast_append_getLast nonempty).symm⟩
    rw [← List.append_assoc] at together
    obtain ⟨rfl, same⟩ := List.append_inj' together rfl
    obtain rfl : item = last := List.singleton_inj.mp same
    cases rest with
    | nil =>
      rw [List.append_nil]
      exact .inr ⟨⟨before, rfl, stretch.nonempty, stretch.same, stretch.starts, by simp⟩,
        stretch.ends item rfl⟩
    | cons next rest =>
      exact .inl ⟨before, next :: rest, rfl, List.cons_ne_nil next rest, stretch.nonempty, stretch.same,
        stretch.starts, stretch.ends⟩
  · rintro (⟨before, after, rfl, nonempty, stretch⟩ | ⟨⟨before, rfl, stretch⟩, differs⟩)
    · refine ⟨before, after ++ [item], List.append_assoc .., ?_, stretch.nonempty, stretch.same,
        stretch.starts, ?_⟩
      · exact List.append_ne_nil_of_left_ne_nil nonempty _
      · rw [List.head?_append_of_ne_nil _ nonempty]
        exact stretch.ends
    · refine ⟨before, [item], rfl, List.cons_ne_nil item [], stretch.nonempty, stretch.same,
        stretch.starts, ?_⟩
      intro other member
      cases member
      exact differs

theorem not_closedStretch_nil {run : List α} {k : κ} : ¬ClosedStretch key [] k run := by
  rintro ⟨before, after, empty, nonempty, _⟩
  exact nonempty (List.append_eq_nil_iff.mp empty.symm).2

end SbFuzz.Systems
