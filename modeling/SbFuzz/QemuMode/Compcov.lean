import Mathlib.Data.List.Range
import Mathlib.Logic.Basic

/-! The compare-coverage library of QEMU mode: the wrappers of `strcmp`, `memcmp` and their
relatives, and the cells of the coverage map that they increment. -/

set_option autoImplicit false

namespace SbFuzz.QemuMode.Compcov

/-- What the pointers of the target point to. -/
abbrev Memory := UInt64 → UInt8

def maxCmpLength : Nat := 32

/-- `MAP_SIZE`, that is `1U << MAP_SIZE_POW2`. -/
def mapSize : UInt32 := (1 : UInt32) <<< 16

structure Mapping where
  st : UInt64
  en : UInt64

/-- What `__compcov_load` finds out. -/
structure Config where
  codeStart : UInt64
  codeEnd : UInt64
  level : UInt32
  ro : List Mapping

/-- The memory from `__compcov_afl_map` on (the map is its first `MAP_SIZE` bytes). `touched` is
history: the indices that were incremented. -/
structure AflMap where
  area : UInt64 → UInt8
  touched : List UInt64

def AflMap.increment (aflMap : AflMap) (index : UInt64) : AflMap where
  area := fun other => if other = index then aflMap.area index + 1 else aflMap.area other
  touched := aflMap.touched ++ [index]

def Config.isRo (config : Config) (ptr : UInt64) : Bool :=
  config.ro.any fun mapping => mapping.st ≤ ptr && ptr ≤ mapping.en

def Config.isInBound (config : Config) (ptr : UInt64) : Bool :=
  config.codeStart ≤ ptr && ptr < config.codeEnd

/-- `__strlen2`, on what is left of `max_length`. -/
def strlen2 (mem : Memory) (s1 s2 : UInt64) : Nat → Nat
  | 0 => 0
  | maxLength + 1 =>
      if mem s1 ≠ 0 ∧ mem s2 ≠ 0 then strlen2 mem (s1 + 1) (s2 + 1) maxLength + 1 else 0

/-- The loop of `__compcov_trace`, on what is left of `n`; `cell` is `cur_loc + i`. -/
def compcovTrace (mem : Memory) (aflMap : AflMap) (cell v0 v1 : UInt64) : Nat → AflMap
  | 0 => aflMap
  | n + 1 =>
      if mem v0 = mem v1 then
        compcovTrace mem (aflMap.increment cell) (cell + 1) (v0 + 1) (v1 + 1) n
      else aflMap

def curLoc (retaddr : UInt64) : UInt64 :=
  (retaddr >>> 4 ^^^ retaddr <<< 8) &&& (mapSize - 1).toUInt64

/-- The condition that all wrappers share. -/
def Config.observes (config : Config) (retaddr v0 v1 : UInt64) : Bool :=
  config.isInBound retaddr && !(config.level < 2 && !config.isRo v0 && !config.isRo v1)

/-- A wrapper up to the call of the real function; `n` is its length. -/
def wrapper (config : Config) (mem : Memory) (aflMap : AflMap) (retaddr v0 v1 : UInt64) (n : Nat) :
    AflMap :=
  if config.observes retaddr v0 v1 then
    if n ≤ maxCmpLength then compcovTrace mem aflMap (curLoc retaddr) v0 v1 n else aflMap
  else aflMap

section

variable (config : Config) (mem : Memory) (aflMap : AflMap) (retaddr str1 str2 : UInt64)

def strcmp : AflMap :=
  wrapper config mem aflMap retaddr str1 str2 (strlen2 mem str1 str2 (maxCmpLength + 1))

def strncmp (len : UInt64) : AflMap :=
  wrapper config mem aflMap retaddr str1 str2
    (min (strlen2 mem str1 str2 (maxCmpLength + 1)) len.toNat)

def strcasecmp : AflMap :=
  wrapper config mem aflMap retaddr str1 str2 (strlen2 mem str1 str2 (maxCmpLength + 1))

def strncasecmp (len : UInt64) : AflMap :=
  wrapper config mem aflMap retaddr str1 str2
    (min (strlen2 mem str1 str2 (maxCmpLength + 1)) len.toNat)

def memcmp (len : UInt64) : AflMap := wrapper config mem aflMap retaddr str1 str2 len.toNat

end

/-- A call of the target, and the memory it finds. -/
inductive Call where
  | strcmp (mem : Memory) (retaddr str1 str2 : UInt64)
  | strncmp (mem : Memory) (retaddr str1 str2 len : UInt64)
  | strcasecmp (mem : Memory) (retaddr str1 str2 : UInt64)
  | strncasecmp (mem : Memory) (retaddr str1 str2 len : UInt64)
  | memcmp (mem : Memory) (retaddr mem1 mem2 len : UInt64)

def AflMap.call (config : Config) (aflMap : AflMap) : Call → AflMap
  | .strcmp mem retaddr str1 str2 => Compcov.strcmp config mem aflMap retaddr str1 str2
  | .strncmp mem retaddr str1 str2 len => Compcov.strncmp config mem aflMap retaddr str1 str2 len
  | .strcasecmp mem retaddr str1 str2 => Compcov.strcasecmp config mem aflMap retaddr str1 str2
  | .strncasecmp mem retaddr str1 str2 len =>
      Compcov.strncasecmp config mem aflMap retaddr str1 str2 len
  | .memcmp mem retaddr mem1 mem2 len => Compcov.memcmp config mem aflMap retaddr mem1 mem2 len

/-- The calls of a run that starts with an empty map. -/
def runCalls (config : Config) (calls : List Call) : AflMap :=
  calls.foldl (AflMap.call config) ⟨fun _ => 0, []⟩

/-! ## The map -/

def AflMap.InBounds (aflMap : AflMap) : Prop := ∀ index ∈ aflMap.touched, index < mapSize.toUInt64

/-- How many bytes are the same at the start of the compared part. -/
def commonLength (mem : Memory) (v0 v1 : UInt64) : Nat → Nat
  | 0 => 0
  | n + 1 => if mem v0 = mem v1 then commonLength mem (v0 + 1) (v1 + 1) n + 1 else 0

/-- A comparison of `n` bytes is left out, or its common bytes have room behind its location. -/
def Fits (config : Config) (mem : Memory) (retaddr v0 v1 : UInt64) (n : Nat) : Prop :=
  config.observes retaddr v0 v1 = true → n ≤ maxCmpLength →
    (curLoc retaddr).toNat + commonLength mem v0 v1 n ≤ mapSize.toNat

def Call.Fits (config : Config) : Call → Prop
  | .strcmp mem retaddr str1 str2 | .strcasecmp mem retaddr str1 str2 =>
      Compcov.Fits config mem retaddr str1 str2 (strlen2 mem str1 str2 (maxCmpLength + 1))
  | .strncmp mem retaddr str1 str2 len | .strncasecmp mem retaddr str1 str2 len =>
      Compcov.Fits config mem retaddr str1 str2
        (min (strlen2 mem str1 str2 (maxCmpLength + 1)) len.toNat)
  | .memcmp mem retaddr mem1 mem2 len => Compcov.Fits config mem retaddr mem1 mem2 len.toNat

theorem curLoc_lt (retaddr : UInt64) : (curLoc retaddr).toNat < mapSize.toNat := by
  rw [curLoc, UInt64.toNat_and]
  exact Nat.lt_of_le_of_lt Nat.and_le_right (by decide)

theorem commonLength_le (mem : Memory) (v0 v1 : UInt64) (n : Nat) :
    commonLength mem v0 v1 n ≤ n := by
  induction n generalizing v0 v1 with
  | zero => exact Nat.le_refl 0
  | succ n ih =>
      rw [commonLength]
      split
      · exact Nat.succ_le_succ (ih _ _)
      · exact Nat.zero_le _

/-- One cell for each common byte, from the location on. -/
theorem touched_compcovTrace (mem : Memory) (aflMap : AflMap) (cell v0 v1 : UInt64) (n : Nat) :
    (compcovTrace mem aflMap cell v0 v1 n).touched =
      aflMap.touched ++
        (List.range (commonLength mem v0 v1 n)).map fun i => cell + UInt64.ofNat i := by
  induction n generalizing aflMap cell v0 v1 with
  | zero => exact (List.append_nil _).symm
  | succ n ih =>
      rw [compcovTrace, commonLength]
      split
      · have next (i : Nat) : cell + 1 + UInt64.ofNat i = cell + UInt64.ofNat (i + 1) := by
          rw [UInt64.ofNat_add, UInt64.add_assoc, UInt64.add_comm 1]
          rfl
        rw [ih, List.range_succ_eq_map, List.map_cons, List.map_map]
        simp [AflMap.increment, Function.comp_def, next]
      · exact (List.append_nil _).symm

theorem inBounds_compcovTrace_iff (mem : Memory) (aflMap : AflMap) (retaddr v0 v1 : UInt64) {n : Nat}
    (short : n ≤ maxCmpLength) :
    (compcovTrace mem aflMap (curLoc retaddr) v0 v1 n).InBounds ↔
      aflMap.InBounds ∧
        (curLoc retaddr).toNat + commonLength mem v0 v1 n ≤ mapSize.toNat := by
  have masked := curLoc_lt retaddr
  have common := commonLength_le mem v0 v1 n
  have size : mapSize.toNat = 65536 := rfl
  have limit : maxCmpLength = 32 := rfl
  have cell {i : Nat} (inside : i < commonLength mem v0 v1 n) :
      curLoc retaddr + UInt64.ofNat i < mapSize.toUInt64 ↔
        (curLoc retaddr).toNat + i < mapSize.toNat := by
    have small : (UInt64.ofNat i).toNat = i := UInt64.toNat_ofNat_of_lt' (by
      show i < 2 ^ 64
      omega)
    rw [UInt64.lt_iff_toNat_lt, UInt64.toNat_add, small, Nat.mod_eq_of_lt (by omega)]
    rfl
  unfold AflMap.InBounds
  rw [touched_compcovTrace, List.forall_mem_append]
  refine and_congr_right fun _ => ?_
  constructor
  · intro bounded
    by_contra beyond
    -- The last common byte is the one that is furthest behind.
    have last : commonLength mem v0 v1 n - 1 < commonLength mem v0 v1 n := by omega
    have reached := (cell last).mp (bounded _ (List.mem_map_of_mem (List.mem_range.mpr last)))
    omega
  · intro fits index member
    obtain ⟨i, inside, rfl⟩ := List.mem_map.mp member
    have common := List.mem_range.mp inside
    exact (cell common).mpr (by omega)

theorem inBounds_wrapper_iff (config : Config) (mem : Memory) (aflMap : AflMap)
    (retaddr v0 v1 : UInt64) (n : Nat) :
    (wrapper config mem aflMap retaddr v0 v1 n).InBounds ↔
      aflMap.InBounds ∧ Fits config mem retaddr v0 v1 n := by
  rw [wrapper, Fits]
  split
  · next observed =>
    split
    · next short =>
      rw [inBounds_compcovTrace_iff mem aflMap retaddr v0 v1 short]
      exact and_congr_right fun _ => ⟨fun fits _ _ => fits, fun fits => fits observed short⟩
    · next long => exact (and_iff_left fun _ short => absurd short long).symm
  · next other => exact (and_iff_left fun observed => absurd observed other).symm

theorem inBounds_call_iff (config : Config) (aflMap : AflMap) (call : Call) :
    (aflMap.call config call).InBounds ↔ aflMap.InBounds ∧ call.Fits config := by
  cases call with
  | strcmp mem retaddr str1 str2 => exact inBounds_wrapper_iff ..
  | strncmp mem retaddr str1 str2 len => exact inBounds_wrapper_iff ..
  | strcasecmp mem retaddr str1 str2 => exact inBounds_wrapper_iff ..
  | strncasecmp mem retaddr str1 str2 len => exact inBounds_wrapper_iff ..
  | memcmp mem retaddr mem1 mem2 len => exact inBounds_wrapper_iff ..

/-- The mask is applied to the location before the offset of a byte is added to it. -/
theorem runCalls_inBounds_iff (config : Config) (calls : List Call) :
    (runCalls config calls).InBounds ↔ ∀ call ∈ calls, call.Fits config := by
  have loop (aflMap : AflMap) : (calls.foldl (AflMap.call config) aflMap).InBounds ↔
      aflMap.InBounds ∧ ∀ call ∈ calls, call.Fits config := by
    induction calls generalizing aflMap with
    | nil => simp
    | cons call rest ih =>
        rw [List.foldl_cons, ih, inBounds_call_iff, and_assoc, List.forall_mem_cons]
  exact (loop _).trans (and_iff_right fun index member => absurd member List.not_mem_nil)

/-- Two equal strings of two letters, compared at an address whose location is the last one. -/
theorem runCalls_outOfBounds :
    ¬ ∀ (config : Config) (calls : List Call), (runCalls config calls).InBounds := by
  intro claim
  let text : Memory := fun ptr => if ptr = 2 ∨ ptr = 5 then 0 else 0x61
  have bounded := claim ⟨0x400000, 0x500000, 2, []⟩ [.strcmp text 0x40fff0 0 3] 65536
  exact absurd (bounded (by decide)) (by decide)

end SbFuzz.QemuMode.Compcov
