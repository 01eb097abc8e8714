import Mathlib.Data.Int.CardIntervalMod
import Mathlib.Data.Set.Card
import SbFuzz.Systems.Draws

/-! `rand_below` on a machine with words of 64 bits: it draws again what would make some numbers
more frequent than others. -/

set_option autoImplicit false

namespace SbFuzz.Fuzzer.RandBelow

open SbFuzz.Systems

def reseedRng : UInt64 := 2500000

/-- The words of `rand_seed` that the generator uses. -/
structure Seed where
  first : UInt64
  second : UInt64

structure Rand where
  randCnt : UInt32
  fixedSeed : Bool
  randSeed : Seed

def rotl (d lrot : UInt64) : UInt64 := d <<< lrot ||| d >>> (64 - lrot)

/-- `rand_next`, the generator RomuDuoJr. -/
def randNext (randSeed : Seed) : UInt64 × Seed :=
  let xp := randSeed.first
  (xp,
    { first := 15241094284759029579 * randSeed.second
      second := rotl (randSeed.second - xp) 27 })

/-- The counter is decremented by the test itself. -/
def countDown (urandom : Seed) (afl : Rand) : Rand :=
  if afl.randCnt = 0 ∧ afl.fixedSeed = false then
    { afl with
      randSeed := urandom
      randCnt := (reseedRng / 2 + urandom.second % reseedRng).toUInt32 }
  else { afl with randCnt := afl.randCnt - 1 }

/-- `UINT64_MAX - (UINT64_MAX % limit)`. -/
def bound (limit : UInt32) : UInt64 :=
  let uint64Max : UInt64 := 0xffffffffffffffff
  uint64Max - uint64Max % limit.toUInt64

/-- The rejection loop. Nothing stands for too little fuel. -/
def drawLoop (limit : UInt32) : Nat → Rand → Option (UInt64 × Rand)
  | 0, _ => none
  | fuel + 1, afl =>
      let (unbiasedRnd, randSeed) := randNext afl.randSeed
      if bound limit ≤ unbiasedRnd then drawLoop limit fuel { afl with randSeed := randSeed }
      else some (unbiasedRnd, { afl with randSeed := randSeed })

/-- `urandom` is what `/dev/urandom` holds next. -/
def randBelow (urandom : Seed) (fuel : Nat) (limit : UInt32) (afl : Rand) :
    Option (UInt32 × Rand) :=
  if limit ≤ 1 then some (0, afl)
  else do
    let (unbiasedRnd, afl) ← drawLoop limit fuel (countDown urandom afl)
    return ((unbiasedRnd % limit.toUInt64).toUInt32, afl)

/-! ## The draws -/

def Accepted (limit : UInt32) (draw : UInt64) : Prop := draw < bound limit

/-- The accepted draws that make a number. -/
def drawsFor (limit : UInt32) (number : Nat) : Set UInt64 :=
  {draw | Accepted limit draw ∧ draw.toNat % limit.toNat = number}

theorem drawLoop_accepted {limit : UInt32} {fuel : Nat} {afl after : Rand} {draw : UInt64}
    (drawn : drawLoop limit fuel afl = some (draw, after)) : Accepted limit draw := by
  induction fuel generalizing afl with
  | zero => cases drawn
  | succ fuel ih =>
      unfold drawLoop at drawn
      dsimp only at drawn
      split at drawn
      · exact ih drawn
      · next below =>
        cases drawn
        exact UInt64.not_le.mp below

theorem drawLoop_ends {limit : UInt32} {afl : Rand}
    (accepted : Accepted limit (randNext afl.randSeed).1) (fuel : Nat) :
    drawLoop limit (fuel + 1) afl =
      some ((randNext afl.randSeed).1, { afl with randSeed := (randNext afl.randSeed).2 }) := by
  unfold drawLoop
  exact if_neg (UInt64.not_le.mpr accepted)

theorem bound_toNat (limit : UInt32) :
    (bound limit).toNat = 0xffffffffffffffff - 0xffffffffffffffff % limit.toNat := by
  unfold bound
  rw [UInt64.toNat_sub_of_le]
  · simp
  · rw [UInt64.le_iff_toNat_le, UInt64.toNat_mod]
    exact Nat.mod_le _ _

/-- The bound is a multiple of the limit. -/
theorem bound_eq_mul (limit : UInt32) :
    (bound limit).toNat = limit.toNat * (0xffffffffffffffff / limit.toNat) := by
  have parts := Nat.div_add_mod 0xffffffffffffffff limit.toNat
  have whole := bound_toNat limit
  omega

theorem quotient_pos {limit : UInt32} (positive : 1 ≤ limit) :
    0 < 0xffffffffffffffff / limit.toNat := by
  have small := limit.toNat_lt
  have large : 1 ≤ limit.toNat := UInt32.le_iff_toNat_le.mp positive
  exact Nat.div_pos (by omega) large

theorem bound_pos {limit : UInt32} (positive : 1 ≤ limit) : 0 < (bound limit).toNat := by
  have large : 1 ≤ limit.toNat := UInt32.le_iff_toNat_le.mp positive
  rw [bound_eq_mul]
  exact Nat.mul_pos large (quotient_pos positive)

theorem image_drawsFor (limit : UInt32) (number : Nat) :
    UInt64.toNat '' drawsFor limit number =
      ((Finset.range (bound limit).toNat).filter (· % limit.toNat = number) : Finset Nat) := by
  ext n
  simp only [drawsFor, Accepted, Set.mem_image, Set.mem_ofPred_eq, Finset.coe_filter,
    Finset.mem_range, UInt64.lt_iff_toNat_lt]
  constructor
  · rintro ⟨draw, holds, rfl⟩
    exact holds
  · intro holds
    have word : n < 2 ^ 64 := Nat.lt_trans holds.1 (bound limit).toNat_lt
    refine ⟨UInt64.ofNat n, ?_, UInt64.toNat_ofNat_of_lt' word⟩
    rwa [UInt64.toNat_ofNat_of_lt' word]

/-- Each number is made by as many of the accepted draws. -/
theorem ncard_drawsFor {limit : UInt32} {number : Nat} (below : number < limit.toNat) :
    (drawsFor limit number).ncard = 0xffffffffffffffff / limit.toNat := by
  have positive : 0 < limit.toNat := by omega
  have residue : (Finset.range (bound limit).toNat).filter (· % limit.toNat = number) =
      (Finset.range (bound limit).toNat).filter (· ≡ number [MOD limit.toNat]) := by
    refine Finset.filter_congr fun n _ => ?_
    rw [Nat.ModEq, Nat.mod_eq_of_lt below]
  rw [← Set.ncard_image_of_injective _ (fun _ _ same => UInt64.toNat_inj.mp same), image_drawsFor,
    Set.ncard_coe_finset, residue, ← Nat.count_eq_card_filter_range,
    Nat.count_modEq_card _ positive, bound_eq_mul, Nat.mul_mod_right,
    Nat.mul_div_cancel_left _ positive]
  simp

/-! ## What is returned -/

theorem toNat_remainder (draw : UInt64) {limit : UInt32} (positive : 1 ≤ limit) :
    (draw % limit.toUInt64).toUInt32.toNat = draw.toNat % limit.toNat := by
  have large : 1 ≤ limit.toNat := UInt32.le_iff_toNat_le.mp positive
  have remainder := Nat.mod_lt draw.toNat large
  have small := limit.toNat_lt
  rw [UInt64.toNat_toUInt32, UInt64.toNat_mod, UInt32.toNat_toUInt64]
  exact Nat.mod_eq_of_lt (by omega)

theorem randBelow_remainder {urandom : Seed} {fuel : Nat} {limit value : UInt32}
    {afl after : Rand} (large : 1 < limit)
    (returned : randBelow urandom fuel limit afl = some (value, after)) :
    ∃ draw, Accepted limit draw ∧ value.toNat = draw.toNat % limit.toNat := by
  rw [randBelow, if_neg (UInt32.not_le.mpr large)] at returned
  cases drawn : drawLoop limit fuel (countDown urandom afl) with
  | none =>
      rw [drawn] at returned
      cases returned
  | some result =>
      rw [drawn] at returned
      cases returned
      exact ⟨result.1, drawLoop_accepted drawn, toNat_remainder _ (UInt32.le_of_lt large)⟩

theorem randBelow_lt {urandom : Seed} {fuel : Nat} {limit value : UInt32} {afl after : Rand}
    (positive : 1 ≤ limit) (returned : randBelow urandom fuel limit afl = some (value, after)) :
    value < limit := by
  rcases UInt32.lt_or_eq_of_le positive with large | rfl
  · obtain ⟨draw, -, same⟩ := randBelow_remainder large returned
    rw [UInt32.lt_iff_toNat_lt, same]
    exact Nat.mod_lt _ (UInt32.le_iff_toNat_le.mp positive)
  · cases returned
    decide

/-- Once a draw is accepted the loop has ended. -/
theorem randBelow_ends (urandom : Seed) (fuel : Nat) {limit : UInt32} {afl : Rand}
    (accepted : Accepted limit (randNext (countDown urandom afl).randSeed).1) :
    (randBelow urandom (fuel + 1) limit afl).isSome = true := by
  unfold randBelow
  split
  · rfl
  · rw [drawLoop_ends accepted fuel]
    rfl

/-- What is returned is below the limit, every number below it is made by as many of the accepted
draws, and there are accepted draws. -/
theorem randBelow_uniform {limit : UInt32} (positive : 1 ≤ limit) :
    (∀ urandom fuel afl value after, randBelow urandom fuel limit afl = some (value, after) →
      value < limit ∧
        (1 < limit → ∃ draw, Accepted limit draw ∧ value.toNat = draw.toNat % limit.toNat)) ∧
    (∀ number < limit.toNat, ∀ other < limit.toNat,
      (drawsFor limit number).ncard = (drawsFor limit other).ncard) ∧
    (∃ draw, Accepted limit draw) ∧
    (∀ urandom fuel afl, Accepted limit (randNext (countDown urandom afl).randSeed).1 →
      (randBelow urandom (fuel + 1) limit afl).isSome = true) := by
  refine ⟨?_, ?_, ⟨0, ?_⟩, ?_⟩
  · intro urandom fuel afl value after returned
    exact ⟨randBelow_lt positive returned, fun large => randBelow_remainder large returned⟩
  · intro number below other belowOther
    rw [ncard_drawsFor below, ncard_drawsFor belowOther]
  · exact UInt64.lt_iff_toNat_lt.mpr (bound_pos positive)
  · intro urandom fuel afl accepted
    exact randBelow_ends urandom fuel accepted

theorem randBelow_uniform_six :
    ∃ value after, randBelow ⟨0, 0⟩ 2 6 ⟨7, false, ⟨0xffffffffffffffff, 5⟩⟩ =
      some (value, after) ∧ value < 6 := by
  obtain ⟨⟨value, after⟩, returned⟩ := Option.isSome_iff_exists.mp
    (show (randBelow ⟨0, 0⟩ 2 6 ⟨7, false, ⟨0xffffffffffffffff, 5⟩⟩).isSome = true by decide)
  exact ⟨value, after, returned, ((randBelow_uniform (by decide)).1 _ _ _ _ _ returned).1⟩

theorem le_bound {limit : UInt32} (positive : 1 ≤ limit) :
    limit.toNat ≤ (bound limit).toNat := by
  rw [bound_eq_mul]
  exact Nat.le_mul_of_pos_right _ (quotient_pos positive)

theorem countDown_fixed (urandom : Seed) (afl : Rand) (fixed : afl.fixedSeed = true) :
    (countDown urandom afl).randSeed = afl.randSeed := by
  unfold countDown
  rw [if_neg (by simp [fixed])]

/-- Every number below the limit can be returned. -/
theorem randBelow_reaches {limit value : UInt32} (below : value < limit) :
    ∃ urandom fuel afl after, randBelow urandom fuel limit afl = some (value, after) := by
  have belowNat := UInt32.lt_iff_toNat_lt.mp below
  have positive : 1 ≤ limit := by
    rw [UInt32.le_iff_toNat_le]
    exact Nat.lt_of_le_of_lt (Nat.zero_le _) belowNat
  have accepted : Accepted limit value.toUInt64 := by
    rw [Accepted, UInt64.lt_iff_toNat_lt, UInt32.toNat_toUInt64]
    exact Nat.lt_of_lt_of_le belowNat (le_bound positive)
  rcases UInt32.lt_or_eq_of_le positive with large | rfl
  · -- A generator whose first word is the number returns it at once.
    have remainder : (value.toUInt64 % limit.toUInt64).toUInt32 = value := by
      rw [← UInt32.toNat_inj, toNat_remainder _ positive, UInt32.toNat_toUInt64]
      exact Nat.mod_eq_of_lt belowNat
    have kept := countDown_fixed ⟨0, 0⟩ ⟨1, true, ⟨value.toUInt64, 0⟩⟩ rfl
    refine ⟨⟨0, 0⟩, 1, ⟨1, true, ⟨value.toUInt64, 0⟩⟩, ?_⟩
    rw [randBelow, if_neg (UInt32.not_le.mpr large), drawLoop_ends (by rw [kept]; exact accepted),
      kept]
    exact ⟨_, congrArg (fun number => some (number, _)) remainder⟩
  · have zero : value = 0 := by
      rw [← UInt32.toNat_inj]
      exact Nat.lt_one_iff.mp belowNat
    rw [zero]
    exact ⟨⟨0, 0⟩, 0, ⟨0, true, ⟨0, 0⟩⟩, _, rfl⟩

/-- The numbers that `rand_below` can return are those that `Draws.below` draws. -/
theorem below_values (limit value : UInt32) :
    (∃ choice, Draws.below limit.toNat [choice] = .ok (value.toNat, [])) ↔
      ∃ urandom fuel afl after, randBelow urandom fuel limit afl = some (value, after) := by
  have belowOne : limit ≤ 1 ↔ limit.toNat ≤ 1 := UInt32.le_iff_toNat_le
  constructor
  · rintro ⟨choice, drawn⟩
    have same : (if limit.toNat ≤ 1 then 0 else choice % limit.toNat) = value.toNat :=
      congrArg Prod.fst (Except.ok.inj drawn)
    by_cases small : limit.toNat ≤ 1
    · have zero : value = 0 := by
        rw [← UInt32.toNat_inj, ← same, if_pos small]
        rfl
      rw [zero]
      exact ⟨⟨0, 0⟩, 0, ⟨0, true, ⟨0, 0⟩⟩, _, if_pos (belowOne.mpr small)⟩
    · apply randBelow_reaches
      rw [UInt32.lt_iff_toNat_lt, ← same, if_neg small]
      exact Nat.mod_lt _ (by omega)
  · rintro ⟨urandom, fuel, afl, after, returned⟩
    refine ⟨value.toNat, ?_⟩
    have drawn : (if limit.toNat ≤ 1 then 0 else value.toNat % limit.toNat) = value.toNat := by
      split
      · next small =>
        rw [randBelow, if_pos (belowOne.mpr small)] at returned
        cases returned
        rfl
      · next large =>
        have positive : 1 ≤ limit := by
          rw [UInt32.le_iff_toNat_le]
          exact Nat.le_of_lt (Nat.lt_of_not_le large)
        exact Nat.mod_eq_of_lt (UInt32.lt_iff_toNat_lt.mp (randBelow_lt positive returned))
    exact congrArg (fun number => Except.ok (number, [])) drawn

end SbFuzz.Fuzzer.RandBelow
