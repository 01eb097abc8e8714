import Mathlib.Logic.Basic
import SbFuzz.Memory.Cells

/-! Regions of an address space. -/

set_option autoImplicit false

namespace SbFuzz.Memory

structure Region where
  start : Nat
  len : Nat
deriving DecidableEq, Repr

namespace Region

theorem start_mk (start len : Nat) : (mk start len).start = start := rfl

theorem mk_eta (region : Region) : ⟨region.start, region.len⟩ = region := rfl

/-- No address lies in both regions. -/
def Apart (region other : Region) : Prop :=
  region.start + region.len ≤ other.start ∨ other.start + other.len ≤ region.start

def Within (region other : Region) : Prop :=
  other.start ≤ region.start ∧ region.start + region.len ≤ other.start + other.len

instance (region other : Region) : Decidable (region.Apart other) :=
  inferInstanceAs (Decidable (_ ∨ _))

instance (region other : Region) : Decidable (region.Within other) :=
  inferInstanceAs (Decidable (_ ∧ _))

end Region

/-! Accesses to objects: a byte is read or written only inside the object of its pointer. Searches
for the first or the last position that has a property. -/

/-! ## Accesses -/

def Region.Has (object : Region) (address : Nat) : Prop :=
  object.start ≤ address ∧ address < object.start + object.len

instance (object : Region) (address : Nat) : Decidable (object.Has address) :=
  inferInstanceAs (Decidable (_ ∧ _))

def readByte (mem : Cells) (object : Region) (address : Nat) : Option UInt8 :=
  if object.Has address then some (mem address) else none

def writeByte (mem : Cells) (object : Region) (address : Nat) (byte : UInt8) : Option Cells :=
  if object.Has address then some (put mem address [byte]) else none

theorem readByte_inside {mem : Cells} {object : Region} {address : Nat} (inside : object.Has address) :
    readByte mem object address = some (mem address) := if_pos inside

theorem readByte_outside {mem : Cells} {object : Region} {address : Nat}
    (outside : ¬ object.Has address) : readByte mem object address = none := if_neg outside

/-! ## Positions -/

/-- The first of the positions below `n` that has the property. -/
def FirstOf (p : Nat → Prop) (n : Nat) : Option Nat → Prop
  | none => ∀ i < n, ¬ p i
  | some i => i < n ∧ p i ∧ ∀ j < i, ¬ p j

/-- The last of the positions below `n` that has the property. -/
def LastOf (p : Nat → Prop) (n : Nat) : Option Nat → Prop
  | none => ∀ i < n, ¬ p i
  | some i => i < n ∧ p i ∧ ∀ j, i < j → j < n → ¬ p j

section

variable {p : Nat → Prop} {n : Nat} {found : Option Nat}

theorem FirstOf.here (holds : p 0) : FirstOf p (n + 1) (some 0) :=
  ⟨Nat.succ_pos n, holds, fun _ less => absurd less (Nat.not_lt_zero _)⟩

/-- A search goes on behind a position that does not have the property. -/
theorem FirstOf.later (fails : ¬ p 0) (rest : FirstOf (fun i => p (i + 1)) n found) :
    FirstOf p (n + 1) (found.map (· + 1)) := by
  cases found with
  | none =>
      intro i less
      cases i with
      | zero => exact fails
      | succ i => exact rest i (Nat.lt_of_succ_lt_succ less)
  | some i =>
      obtain ⟨less, holds, first⟩ := rest
      refine ⟨Nat.succ_lt_succ less, holds, fun j before => ?_⟩
      cases j with
      | zero => exact fails
      | succ j => exact first j (Nat.lt_of_succ_lt_succ before)

theorem map_later (found : Option Nat) (base : Nat) :
    (found.map (· + 1)).map (base + ·) = found.map (base + 1 + ·) := by
  cases found with
  | none => rfl
  | some i => exact congrArg some (by dsimp only; omega)

theorem FirstOf.congr {q : Nat → Prop} (first : FirstOf p n found) (same : ∀ i < n, q i ↔ p i) :
    FirstOf q n found := by
  cases found with
  | none => exact fun i less holds => first i less ((same i less).mp holds)
  | some i =>
      obtain ⟨less, holds, none⟩ := first
      exact ⟨less, (same i less).mpr holds, fun j before holds =>
        none j before ((same j (Nat.lt_trans before less)).mp holds)⟩

/-- A search among fewer positions, where no others have the property. -/
theorem FirstOf.widen {q : Nat → Prop} {m : Nat} (first : FirstOf p m found) (le : m ≤ n)
    (same : ∀ i < n, q i ↔ i < m ∧ p i) : FirstOf q n found := by
  cases found with
  | none =>
      intro i less holds
      obtain ⟨below, isP⟩ := (same i less).mp holds
      exact first i below isP
  | some i =>
      obtain ⟨less, holds, none⟩ := first
      have below : i < n := Nat.lt_of_lt_of_le less le
      refine ⟨below, (same i below).mpr ⟨less, holds⟩, fun j before isQ => ?_⟩
      exact none j before ((same j (Nat.lt_trans before below)).mp isQ).2

theorem LastOf.congr {q : Nat → Prop} (last : LastOf p n found) (same : ∀ i < n, q i ↔ p i) :
    LastOf q n found := by
  cases found with
  | none => exact fun i less holds => last i less ((same i less).mp holds)
  | some i =>
      obtain ⟨less, holds, none⟩ := last
      exact ⟨less, (same i less).mpr holds, fun j behind below holds =>
        none j behind below ((same j below).mp holds)⟩

/-- The last position, where the first one is looked at by itself. -/
theorem LastOf.later [DecidablePred p] (rest : LastOf (fun i => p (i + 1)) n found) :
    LastOf p (n + 1) ((found.map (· + 1)).or (if p 0 then some 0 else none)) := by
  cases found with
  | some i =>
      obtain ⟨less, holds, last⟩ := rest
      refine ⟨Nat.succ_lt_succ less, holds, fun j behind below => ?_⟩
      cases j with
      | zero => exact absurd behind (Nat.not_lt_zero _)
      | succ j => exact last j (Nat.lt_of_succ_lt_succ behind) (Nat.lt_of_succ_lt_succ below)
  | none =>
      rw [Option.map_none, Option.none_or]
      have behind (j : Nat) (after : 0 < j) (below : j < n + 1) : ¬ p j := by
        cases j with
        | zero => exact absurd after (Nat.lt_irrefl 0)
        | succ j => exact rest j (Nat.lt_of_succ_lt_succ below)
      split
      · next holds => exact ⟨Nat.succ_pos n, holds, behind⟩
      · next fails =>
        intro j below
        cases j with
        | zero => exact fails
        | succ j => exact behind (j + 1) (Nat.succ_pos j) below

end

end SbFuzz.Memory
