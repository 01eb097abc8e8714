import SbFuzz.Fuzzer.AliasWeights

/-! The factor of the schedules `LIN` and `QUAD`, over counters that stick and wrap around. -/

set_option autoImplicit false

namespace SbFuzz.Fuzzer

/-! ## The counter -/

/-- The saturated increment of `n_fuzz` in `save_if_interesting`. -/
def countHit (hits : UInt32) : UInt32 := if hits < 0xFFFFFFFF then hits + 1 else hits

theorem countHit_toNat (hits : UInt32) : (countHit hits).toNat = min (hits.toNat + 1) (2 ^ 32 - 1) := by
  have bound := hits.toNat_lt
  unfold countHit
  split
  · next below =>
    have small : hits.toNat < 2 ^ 32 - 1 := below
    rw [UInt32.toNat_add, UInt32.toNat_one, Nat.mod_eq_of_lt (by omega)]
    omega
  · next above =>
    have large : 2 ^ 32 - 1 ≤ hits.toNat := Nat.le_of_not_lt above
    omega

/-- The counter sticks at its largest value. -/
theorem countHit_iterate (hits : UInt32) (times : Nat) :
    (countHit^[times] hits).toNat = min (hits.toNat + times) (2 ^ 32 - 1) := by
  have bound := hits.toNat_lt
  induction times with
  | zero => exact (Nat.min_eq_left (Nat.le_pred_of_lt bound)).symm
  | succ times ih =>
    rw [Function.iterate_succ_apply', countHit_toNat, ih]
    omega

theorem countHit_sticks (hits : UInt32) {times : Nat} (many : 2 ^ 32 ≤ times) :
    countHit^[times] hits = 0xFFFFFFFF := by
  have largest : (0xFFFFFFFF : UInt32).toNat = 2 ^ 32 - 1 := rfl
  apply UInt32.toNat_inj.mp
  rw [countHit_iterate, largest]
  omega

/-! ## The factor -/

/-- The power of `fuzz_level` that is divided. -/
def Schedule.exponent : Schedule → Option Nat
  | .lin => some 1
  | .quad => some 2
  | _ => none

/-- A remainder has the quotients of the number exactly when it is the number. -/
theorem mod_div_eq_iff {number modulus divisor : Nat} (positive : 0 < divisor)
    (small : divisor < modulus) :
    number % modulus / divisor = number / divisor ↔ number < modulus := by
  constructor
  · intro same
    by_contra large
    have split := Nat.mod_add_div number modulus
    have wraps : modulus * 1 ≤ modulus * (number / modulus) :=
      Nat.mul_le_mul_left _ ((Nat.one_le_div_iff (by omega)).mpr (Nat.le_of_not_lt large))
    have above : (number % modulus + divisor) / divisor ≤ number / divisor :=
      Nat.div_le_div_right (by omega)
    rw [Nat.add_div_right _ positive, same] at above
    omega
  · intro below
    rw [Nat.mod_eq_of_lt below]

theorem levelFactor_eq_iff {level hits : UInt32} (power : Nat)
    (wrapped : level.toNat = power % 2 ^ 32) :
    levelFactor level hits = some ((power / (hits.toNat + 1) : Nat) : ℚ) ↔
      hits ≠ 0xFFFFFFFF ∧ power < 2 ^ 32 := by
  have bound := hits.toNat_lt
  unfold levelFactor
  by_cases sticks : hits = 0xFFFFFFFF
  · subst sticks
    exact iff_of_false (fun same => by cases same) fun both => both.1 rfl
  · have below : hits.toNat ≠ 2 ^ 32 - 1 := fun same => sticks (UInt32.toNat_inj.mp same)
    have next : (hits + 1).toNat = hits.toNat + 1 := by
      rw [UInt32.toNat_add, UInt32.toNat_one, Nat.mod_eq_of_lt (by omega)]
    have fits : hits + 1 ≠ 0 := fun zero => by
      have value := congrArg UInt32.toNat zero
      rw [next, UInt32.toNat_zero] at value
      omega
    rw [if_neg fits, Option.some.injEq, Nat.cast_inj, UInt32.toNat_div, next, wrapped,
      mod_div_eq_iff (Nat.succ_pos _) (by omega)]
    exact (and_iff_right sticks).symm

/-- The factor is the exact quotient unless the count sticks or the square wraps around. -/
theorem scheduleFactor_exact_iff (libm : Libm) (afl : Scheduler) (q : ScoredEntry) {k : Nat}
    (levelled : afl.schedule.exponent = some k) :
    (q.fuzzLevel ≠ 0 → scheduleFactor libm afl q =
        some ((q.fuzzLevel.toNat ^ k / ((afl.hits q).toNat + 1) : Nat) : ℚ)) ↔
      q.fuzzLevel = 0 ∨ afl.hits q ≠ 0xFFFFFFFF ∧ (k = 2 → q.fuzzLevel.toNat < 2 ^ 16) := by
  by_cases unfuzzed : q.fuzzLevel = 0
  · exact iff_of_true (fun fuzzed => absurd unfuzzed fuzzed) (.inl unfuzzed)
  · rw [or_iff_right unfuzzed, forall_prop_of_true unfuzzed]
    have bound := q.fuzzLevel.toNat_lt
    cases schedule : afl.schedule with
    | lin =>
      rw [schedule] at levelled
      cases levelled
      simp only [scheduleFactor, schedule, if_neg unfuzzed]
      rw [levelFactor_eq_iff _ (by rw [pow_one, Nat.mod_eq_of_lt bound]), pow_one]
      exact and_congr_right fun _ => iff_of_true bound fun one => by cases one
    | quad =>
      rw [schedule] at levelled
      cases levelled
      simp only [scheduleFactor, schedule, if_neg unfuzzed]
      rw [levelFactor_eq_iff _ (by rw [UInt32.toNat_mul, pow_two])]
      have square : q.fuzzLevel.toNat ^ 2 < (2 ^ 16) ^ 2 ↔ q.fuzzLevel.toNat < 2 ^ 16 :=
        Nat.pow_lt_pow_iff_left (by decide)
      exact and_congr_right fun _ => square.trans true_imp_iff.symm
    | explore => rw [schedule] at levelled; cases levelled
    | mmopt => rw [schedule] at levelled; cases levelled
    | exploit => rw [schedule] at levelled; cases levelled
    | coe => rw [schedule] at levelled; cases levelled
    | fast => rw [schedule] at levelled; cases levelled
    | rare => rw [schedule] at levelled; cases levelled
    | seek => rw [schedule] at levelled; cases levelled

def fuzzedEntry (level : UInt32) : ScoredEntry :=
  { (oneEntry .quad).queueBuf 0 with fuzzLevel := level }

theorem scheduleFactor_exact_iff_fuzzed :
    scheduleFactor wholeLogs (oneEntry .quad) (fuzzedEntry 3) = some ((3 ^ 2 / (1 + 1) : Nat) : ℚ) :=
  (scheduleFactor_exact_iff wholeLogs (oneEntry .quad) (fuzzedEntry 3) rfl).mpr
    (.inr ⟨by decide, fun _ => by decide⟩) (by decide)

/-- An entry that was fuzzed once and whose path has been seen in all executions. -/
theorem scheduleFactor_traps :
    scheduleFactor wholeLogs { oneEntry .lin with nFuzz := fun _ => countHit^[2 ^ 32] 0 }
      (fuzzedEntry 1) = none ∧
    calculateScore wholeLogs { oneEntry .lin with nFuzz := fun _ => countHit^[2 ^ 32] 0 }
      (fuzzedEntry 1) = none := by
  rw [countHit_sticks 0 (Nat.le_refl _)]
  exact ⟨rfl, rfl⟩

end SbFuzz.Fuzzer
