import SbFuzz.Fuzzer.Queue
import Mathlib.Algebra.BigOperators.Group.Finset.Basic
import Mathlib.Algebra.Order.Floor.Ring
import Mathlib.Algebra.Order.Floor.Semiring
import Mathlib.Data.Rat.Floor
import Mathlib.Tactic.NormNum

/-! The performance score of a queue entry, with exact rationals for `double`. -/

set_option autoImplicit false

namespace SbFuzz.Fuzzer

structure ScoredEntry extends QueueEntry where
  bitmapSize : UInt32
  handicap : UInt64
  depth : UInt64
  perfScore : ℚ
  weight : ℚ

/-- The part of `afl_state_t` that weighs the queue. -/
structure Scheduler where
  queueBuf : Nat → ScoredEntry
  queuedItems : Nat
  queuedDiscovered : Nat
  schedule : Schedule
  fixedSeed : Bool
  nFuzz : Nat → UInt32
  maxDepth : UInt32
  limitTimeSig : Bool
  totalCalUs : UInt64
  totalCalCycles : UInt64
  totalBitmapSize : UInt64
  totalBitmapEntries : UInt64
  totalExecs : UInt64

/-- The logarithms of `libm` on positive numbers. -/
structure Libm where
  log : Nat → ℚ
  log2 : Nat → ℚ
  log10 : Nat → ℚ
  log10_nonneg : ∀ x, 1 ≤ x → 0 ≤ log10 x

def Scheduler.hits (afl : Scheduler) (q : ScoredEntry) : UInt32 := afl.nFuzz q.nFuzzEntry.toNat

def Scheduler.enabled (afl : Scheduler) : Finset Nat :=
  (Finset.range afl.queuedItems).filter fun i => (afl.queueBuf i).disabled = false

def averageOf (total : UInt64) (count : UInt32) : UInt32 :=
  (total / (if count = 0 then 1 else count).toUInt64).toUInt32

/-- The score is a `u32`, so each product with a `double` is cut down. -/
def scale (perfScore : Nat) (factor : ℚ) : Nat := ⌊perfScore * factor⌋₊

/-- Adjustment for the execution speed. -/
def speedScore (afl : Scheduler) (q : ScoredEntry) : Nat :=
  let avgExecUs := averageOf afl.totalCalUs afl.totalCalCycles.toUInt32
  let execUs : ℚ := q.execUs.toNat
  if afl.schedule.number < Schedule.rare.number ∧ ¬ afl.fixedSeed then
    if execUs * 0.1 > avgExecUs.toNat then 10
    else if execUs * 0.25 > avgExecUs.toNat then 25
    else if execUs * 0.5 > avgExecUs.toNat then 50
    else if execUs * 0.75 > avgExecUs.toNat then 75
    else if q.execUs * 4 < avgExecUs.toUInt64 then 300
    else if q.execUs * 3 < avgExecUs.toUInt64 then 200
    else if q.execUs * 2 < avgExecUs.toUInt64 then 150
    else 100
  else 100

/-- Adjustment for the size of the bitmap. -/
def bitmapScore (afl : Scheduler) (q : ScoredEntry) (perfScore : Nat) : Nat :=
  let avgBitmapSize := averageOf afl.totalBitmapSize afl.totalBitmapEntries.toUInt32
  let bitmapSize : ℚ := q.bitmapSize.toNat
  if bitmapSize * 0.3 > avgBitmapSize.toNat then perfScore * 3
  else if bitmapSize * 0.5 > avgBitmapSize.toNat then perfScore * 2
  else if bitmapSize * 0.75 > avgBitmapSize.toNat then scale perfScore 1.5
  else if q.bitmapSize * 3 < avgBitmapSize then scale perfScore 0.25
  else if q.bitmapSize * 2 < avgBitmapSize then scale perfScore 0.5
  else if bitmapSize * 1.5 < avgBitmapSize.toNat then scale perfScore 0.75
  else perfScore

/-- Adjustment for entries found late, which uses up their handicap. -/
def handicapScore (q : ScoredEntry) (perfScore : Nat) : Nat × ScoredEntry :=
  if 4 ≤ q.handicap then (perfScore * 4, { q with handicap := q.handicap - 4 })
  else if q.handicap ≠ 0 then (perfScore * 2, { q with handicap := q.handicap - 1 })
  else (perfScore, q)

def depthScore (q : ScoredEntry) (perfScore : Nat) : Nat :=
  if q.depth ≤ 3 then perfScore
  else if q.depth ≤ 7 then perfScore * 2
  else if q.depth ≤ 13 then perfScore * 3
  else if q.depth ≤ 25 then perfScore * 4
  else perfScore * 5

/-- `log2(hits) > fuzz_mu`; the logarithm of zero is below all others. -/
def aboveMean (libm : Libm) (afl : Scheduler) (hits : Nat) : Bool :=
  if ∃ i ∈ afl.enabled, afl.hits (afl.queueBuf i) = 0 then hits ≠ 0
  else hits ≠ 0 ∧ libm.log2 hits >
    (∑ i ∈ afl.enabled, libm.log2 (afl.hits (afl.queueBuf i)).toNat) / afl.enabled.card

def fastFactor (q : ScoredEntry) (hits : Nat) : ℚ :=
  let level := Nat.log2 hits
  let factor : ℚ :=
    if level ≤ 1 then 4
    else if level ≤ 3 then 3
    else if level = 4 then 2
    else if level = 5 then 1
    else if q.favored then 1
    else if level = 6 then 0.8
    else if level = 7 then 0.6
    else 0.4
  if q.favored then factor * 1.15 else factor

/-- A division in `u32`, which traps when the divisor has wrapped around to 0. -/
def levelFactor (level hits : UInt32) : Option ℚ :=
  if hits + 1 = 0 then none else some (level / (hits + 1)).toNat

def scheduleFactor (libm : Libm) (afl : Scheduler) (q : ScoredEntry) : Option ℚ :=
  match afl.schedule with
  | .explore | .seek | .mmopt | .rare => some 1
  | .exploit => some 32
  | .coe =>
      if q.fuzzLevel = 0 then some 1
      else if aboveMean libm afl (afl.hits q).toNat then some (if q.favored then 1 else 0)
      else some (fastFactor q (afl.hits q).toNat)
  | .fast => if q.fuzzLevel = 0 then some 1 else some (fastFactor q (afl.hits q).toNat)
  | .lin => if q.fuzzLevel = 0 then some 1 else levelFactor q.fuzzLevel (afl.hits q)
  | .quad =>
      if q.fuzzLevel = 0 then some 1 else levelFactor (q.fuzzLevel * q.fuzzLevel) (afl.hits q)

/-- What the schedule does to the score itself. -/
def scheduleScore (afl : Scheduler) (q : ScoredEntry) (perfScore : Nat) : Nat :=
  match afl.schedule with
  | .mmopt => if afl.maxDepth.toUInt64 - q.depth < 5 then perfScore * 2 else perfScore
  | .rare =>
      scale ((perfScore + q.tcRef * 10) % 2 ^ 32)
        (1 - ((afl.hits q).toNat : ℚ) / afl.totalExecs.toNat)
  | _ => perfScore

def limitFactor (afl : Scheduler) (factor : ℚ) (perfScore : Nat) : Nat :=
  if Schedule.exploit.number ≤ afl.schedule.number ∧ afl.schedule.number ≤ Schedule.quad.number then
    scale perfScore (if 32 < factor then 32 else factor)
  else perfScore

/-- The MOpt mode, the lower bound and `havoc_max_mult * 100`. -/
def limitScore (afl : Scheduler) (q : ScoredEntry) (perfScore : Nat) : Nat :=
  min (64 * 100) <|
    if afl.limitTimeSig ∧ afl.maxDepth.toUInt64 - q.depth < 3 then perfScore * 2 % 2 ^ 32
    else if afl.schedule ≠ .coe ∧ perfScore < 1 then 1
    else perfScore

/-- `none` stands for a division by zero. -/
def calculateScore (libm : Libm) (afl : Scheduler) (q : ScoredEntry) :
    Option (Nat × ScoredEntry) :=
  let (perfScore, after) := handicapScore q (bitmapScore afl q (speedScore afl q))
  let perfScore := scheduleScore afl q (depthScore q perfScore)
  (scheduleFactor libm afl q).map fun factor =>
    (limitScore afl q (limitFactor afl factor perfScore), after)

/-! ## Bounds -/

section

variable (libm : Libm) (afl : Scheduler) (q : ScoredEntry)

theorem levelFactor_isSome_iff (level hits : UInt32) :
    (levelFactor level hits).isSome = true ↔ hits + 1 ≠ 0 := by
  unfold levelFactor
  split
  · next wrapped => simp [wrapped]
  · next fits => simp [fits]

/-- A score is missing only when `fuzz_level` is divided by a count that wraps. -/
theorem calculateScore_isSome_iff : (calculateScore libm afl q).isSome = true ↔
    (afl.schedule = .lin ∨ afl.schedule = .quad → q.fuzzLevel ≠ 0 → afl.hits q + 1 ≠ 0) := by
  simp only [calculateScore, Option.isSome_map]
  by_cases unfuzzed : q.fuzzLevel = 0
  · cases schedule : afl.schedule <;> simp [scheduleFactor, schedule, unfuzzed]
  · cases schedule : afl.schedule with
    | lin => simp [scheduleFactor, schedule, unfuzzed, levelFactor_isSome_iff]
    | quad => simp [scheduleFactor, schedule, unfuzzed, levelFactor_isSome_iff]
    | coe =>
        simp only [scheduleFactor, schedule, if_neg unfuzzed]
        split <;> simp
    | _ => simp [scheduleFactor, schedule, unfuzzed]

theorem bitmapScore_bounds : 25 ≤ bitmapScore afl q 100 ∧ bitmapScore afl q 100 ≤ 300 := by
  have threeHalves : scale 100 1.5 = 150 := by
    rw [scale, Nat.floor_eq_iff (by norm_num)]
    norm_num
  have quarter : scale 100 0.25 = 25 := by
    rw [scale, Nat.floor_eq_iff (by norm_num)]
    norm_num
  have half : scale 100 0.5 = 50 := by
    rw [scale, Nat.floor_eq_iff (by norm_num)]
    norm_num
  have threeQuarters : scale 100 0.75 = 75 := by
    rw [scale, Nat.floor_eq_iff (by norm_num)]
    norm_num
  simp only [bitmapScore, threeHalves, quarter, half, threeQuarters]
  repeat' split
  all_goals decide

theorem handicapScore_bounds (perfScore : Nat) : perfScore ≤ (handicapScore q perfScore).1 ∧
    (handicapScore q perfScore).1 ≤ perfScore * 4 := by
  unfold handicapScore
  split
  · exact ⟨Nat.le_mul_of_pos_right _ (by decide), Nat.le_refl _⟩
  · split
    · dsimp only
      omega
    · dsimp only
      omega

theorem depthScore_bounds (perfScore : Nat) :
    perfScore ≤ depthScore q perfScore ∧ depthScore q perfScore ≤ perfScore * 5 := by
  unfold depthScore
  repeat' split
  all_goals omega

theorem limitScore_pos {perfScore : Nat} (low : 0 < perfScore) (high : perfScore < 2 ^ 31) :
    0 < limitScore afl q perfScore := by
  unfold limitScore
  split
  · omega
  · split
    · decide
    · omega

/-- Under `SEEK` every entry keeps a score. -/
theorem calculateScore_seek (seek : afl.schedule = .seek) {score : Nat} {after : ScoredEntry}
    (scored : calculateScore libm afl q = some (score, after)) : 0 < score := by
  have speed : speedScore afl q = 100 := by simp [speedScore, seek, Schedule.number]
  have bitmap := bitmapScore_bounds afl q
  have handicap := handicapScore_bounds q (bitmapScore afl q 100)
  have depth := depthScore_bounds q (handicapScore q (bitmapScore afl q 100)).1
  simp only [calculateScore, speed, scheduleScore, scheduleFactor, limitFactor, seek,
    Schedule.number] at scored
  simp only [Nat.reduceLeDiff, and_false, if_false, Option.map_some, Option.some.injEq,
    Prod.mk.injEq] at scored
  obtain ⟨rfl, _⟩ := scored
  exact limitScore_pos afl q (by omega) (by omega)

theorem handicapScore_disabled (perfScore : Nat) :
    (handicapScore q perfScore).2.disabled = q.disabled := by
  unfold handicapScore
  split
  · rfl
  · split <;> rfl

theorem calculateScore_disabled {score : Nat} {after : ScoredEntry}
    (scored : calculateScore libm afl q = some (score, after)) :
    after.disabled = q.disabled := by
  obtain ⟨factor, _, same⟩ := Option.map_eq_some_iff.mp scored
  rw [← (Prod.mk.inj same).2]
  exact handicapScore_disabled q _

end

end SbFuzz.Fuzzer
