import Mathlib.Data.List.Nodup
import Mathlib.Logic.Function.Basic

/-! Names that are numbered in turn, with one table for each direction. -/

set_option autoImplicit false

namespace SbFuzz.Systems

variable {Name : Type}

/-- What the tables hold after the names of a list were numbered from 0 on, some of them perhaps
more than once. A name that is not among them has the number 0. -/
structure Numbers (numberOf : Name → Nat) (nameOf : Nat → Name) (names : List Name) : Prop where
  nameOf_eq : ∀ k name, names[k]? = some name → nameOf k = name
  known : ∀ name ∈ names, names[numberOf name]? = some name
  unknown : ∀ name, name ∉ names → numberOf name = 0

namespace Numbers

variable {numberOf : Name → Nat} {nameOf : Nat → Name} {names : List Name}

theorem nil (nameOf : Nat → Name) : Numbers (fun _ => 0) nameOf [] :=
  ⟨fun _ _ found => by simp at found, fun _ member => by simp at member, fun _ _ => rfl⟩

/-- One more name is numbered. -/
theorem snoc [DecidableEq Name] (numbers : Numbers numberOf nameOf names) (name : Name) :
    Numbers (Function.update numberOf name names.length)
      (Function.update nameOf names.length name) (names ++ [name]) := by
  have last : (names ++ [name])[names.length]? = some name := by simp
  constructor
  · intro k other found
    by_cases same : k = names.length
    · subst same
      rw [last] at found
      cases found
      exact Function.update_self _ _ _
    · have inside := (List.getElem?_eq_some_iff.mp found).1
      rw [List.length_append, List.length_singleton] at inside
      rw [Function.update_of_ne same]
      rw [List.getElem?_append_left (by omega)] at found
      exact numbers.nameOf_eq k other found
  · intro other member
    by_cases same : other = name
    · subst same
      rw [Function.update_self]
      exact last
    · have before : other ∈ names := by
        rcases List.mem_append.mp member with before | new
        · exact before
        · exact absurd (List.mem_singleton.mp new) same
      have found := numbers.known other before
      rw [Function.update_of_ne same,
        List.getElem?_append_left (List.getElem?_eq_some_iff.mp found).1]
      exact found
  · intro other absent
    have different : other ≠ name := fun same => absent (by simp [same])
    rw [Function.update_of_ne different]
    exact numbers.unknown other fun member => absent (by simp [member])

/-- A number other than 0 is one of the name. -/
theorem getElem?_numberOf (numbers : Numbers numberOf nameOf names) {name : Name}
    (nonzero : numberOf name ≠ 0) : names[numberOf name]? = some name := by
  by_cases member : name ∈ names
  · exact numbers.known name member
  · exact absurd (numbers.unknown name member) nonzero

theorem getElem?_eq_nameOf (numbers : Numbers numberOf nameOf names) {k : Nat}
    (inside : k < names.length) : names[k]? = some (nameOf k) := by
  rw [numbers.nameOf_eq k names[k] (List.getElem?_eq_getElem inside)]
  exact List.getElem?_eq_getElem inside

theorem map_nameOf (numbers : Numbers numberOf nameOf names) {places : List Nat}
    {chosen : List Name} (found : places.map (names[·]?) = chosen.map some) :
    places.map nameOf = chosen := by
  induction places generalizing chosen with
  | nil =>
      cases chosen with
      | nil => rfl
      | cons => cases found
  | cons k places ih =>
      cases chosen with
      | nil => cases found
      | cons name chosen =>
          rw [List.map_cons, List.map_cons, List.cons.injEq] at found
          rw [List.map_cons, numbers.nameOf_eq k name found.1, ih found.2]

/-- Where no name was numbered twice, the number of a name is its place. -/
theorem numberOf_eq (numbers : Numbers numberOf nameOf names) (nodup : names.Nodup) {k : Nat}
    {name : Name} (found : names[k]? = some name) : numberOf name = k := by
  have again := numbers.known name (List.mem_of_getElem? found)
  obtain ⟨inside, isName⟩ := List.getElem?_eq_some_iff.mp found
  obtain ⟨insideAgain, isNameAgain⟩ := List.getElem?_eq_some_iff.mp again
  exact (nodup.getElem_inj_iff).mp (isNameAgain.trans isName.symm)

theorem numberOf_nameOf (numbers : Numbers numberOf nameOf names) (nodup : names.Nodup) {k : Nat}
    (inside : k < names.length) : numberOf (nameOf k) = k :=
  numbers.numberOf_eq nodup (numbers.getElem?_eq_nameOf inside)

theorem nameOf_injective (numbers : Numbers numberOf nameOf names) (nodup : names.Nodup)
    {j k : Nat} (insideJ : j < names.length) (insideK : k < names.length)
    (same : nameOf j = nameOf k) : j = k := by
  rw [← numbers.numberOf_nameOf nodup insideJ, same, numbers.numberOf_nameOf nodup insideK]

/-- Only the first name has the number 0 and is among the names. -/
theorem not_mem_of_zero (numbers : Numbers numberOf nameOf names) {first name : Name}
    (start : names[0]? = some first) (different : name ≠ first) (zero : numberOf name = 0) :
    name ∉ names := by
  intro member
  have found := numbers.known name member
  rw [zero, start] at found
  exact different (Option.some.inj found).symm

end Numbers

end SbFuzz.Systems
