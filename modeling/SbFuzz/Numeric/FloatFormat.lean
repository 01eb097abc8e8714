import Mathlib.Algebra.Order.Ring.Int
import Mathlib.Order.Monotone.Basic
import Mathlib.Tactic.Ring

/-! Binary floating-point formats: the numbers that bit patterns stand for, and that
patterns order like numbers when the sign is taken care of. -/

set_option autoImplicit false

namespace SbFuzz.Numeric

/-- A sign bit above the exponent and the fraction. -/
structure FloatFormat where
  exponentBits : Nat
  fractionBits : Nat
  deriving DecidableEq

/-- Finite numbers as multiples of the least positive one, and the infinities. -/
inductive Number where
  | negInf
  | finite (multiple : ℤ)
  | posInf
  deriving DecidableEq

namespace Number

def less : Number → Number → Bool
  | .negInf, .negInf => false
  | .negInf, _ => true
  | .finite _, .negInf => false
  | .finite x, .finite y => x < y
  | .finite _, .posInf => true
  | .posInf, _ => false

instance : LT Number := ⟨fun x y => less x y = true⟩

instance : LE Number := ⟨fun x y => x < y ∨ x = y⟩

instance : DecidableLT Number := fun x y => inferInstanceAs (Decidable (less x y = true))

instance : DecidableLE Number := fun x y => inferInstanceAs (Decidable (x < y ∨ x = y))

theorem lt_irrefl (x : Number) : ¬ x < x := by
  cases x with
  | finite x => exact fun below => Int.lt_irrefl x (of_decide_eq_true below)
  | _ => exact Bool.false_ne_true

theorem lt_asymm {x y : Number} (below : x < y) : ¬ y < x := by
  cases x with
  | finite x =>
      cases y with
      | finite y =>
          exact fun above => absurd (of_decide_eq_true above)
            (Int.not_lt.mpr (Int.le_of_lt (of_decide_eq_true below)))
      | negInf => cases below
      | posInf => exact Bool.false_ne_true
  | negInf => cases y <;> exact Bool.false_ne_true
  | posInf => cases below

theorem le_iff_lt_or_eq {x y : Number} : x ≤ y ↔ x < y ∨ x = y := Iff.rfl

end Number

namespace FloatFormat

def half : FloatFormat := ⟨5, 10⟩

def float : FloatFormat := ⟨8, 23⟩

def double : FloatFormat := ⟨11, 52⟩

variable (format : FloatFormat)

abbrev width : Nat := 1 + format.exponentBits + format.fractionBits

section

variable (bits : Nat)

def fraction : Nat := bits % 2 ^ format.fractionBits

def exponent : Nat := bits / 2 ^ format.fractionBits % 2 ^ format.exponentBits

def negative : Bool := bits / 2 ^ (format.exponentBits + format.fractionBits) % 2 = 1

def isNaN : Bool :=
  format.exponent bits = 2 ^ format.exponentBits - 1 ∧ format.fraction bits ≠ 0

/-- The number without its sign, `none` for infinity. -/
def magnitude : Option ℕ :=
  if format.exponent bits = 2 ^ format.exponentBits - 1 then none
  else if format.exponent bits = 0 then some (format.fraction bits)
  else some ((2 ^ format.fractionBits + format.fraction bits) * 2 ^ (format.exponent bits - 1))

/-- The number, which is no NaN. -/
def value : Number :=
  match format.magnitude bits, format.negative bits with
  | none, true => .negInf
  | none, false => .posInf
  | some magnitude, true => .finite (-magnitude)
  | some magnitude, false => .finite magnitude

/-- The pattern without the sign bit. -/
def unsigned : Nat := bits % 2 ^ (format.exponentBits + format.fractionBits)

/-- The pattern as a number with a sign. -/
def rank : ℤ := if format.negative bits then -(format.unsigned bits : ℤ) else format.unsigned bits

end

/-! ## Patterns of finite numbers -/

/-- The multiple of the least positive number that an unsigned pattern stands for. -/
def multiple (fractionBits pattern : Nat) : Nat :=
  if pattern / 2 ^ fractionBits = 0 then pattern % 2 ^ fractionBits
  else (2 ^ fractionBits + pattern % 2 ^ fractionBits) * 2 ^ (pattern / 2 ^ fractionBits - 1)

theorem multiple_lt_of_exponent (fractionBits pattern : Nat) :
    multiple fractionBits pattern < 2 ^ fractionBits * 2 ^ (pattern / 2 ^ fractionBits) := by
  have below := Nat.mod_lt pattern (Nat.two_pow_pos fractionBits)
  unfold multiple
  split
  · next zero =>
    rw [zero, Nat.pow_zero, Nat.mul_one]
    exact below
  · next normal =>
    obtain ⟨exponent, same⟩ := Nat.exists_eq_succ_of_ne_zero normal
    rw [same, Nat.succ_sub_one, Nat.pow_succ', ← Nat.mul_assoc]
    apply Nat.mul_lt_mul_of_pos_right _ (Nat.two_pow_pos exponent)
    omega

theorem le_multiple_of_exponent {fractionBits pattern exponent : Nat}
    (below : exponent < pattern / 2 ^ fractionBits) :
    2 ^ fractionBits * 2 ^ exponent ≤ multiple fractionBits pattern := by
  rw [multiple, if_neg (Nat.ne_of_gt (Nat.lt_of_le_of_lt (Nat.zero_le _) below))]
  exact Nat.mul_le_mul (Nat.le_add_right _ _)
    (Nat.pow_le_pow_right (by decide) (Nat.le_sub_one_of_lt below))

theorem multiple_strictMono (fractionBits : Nat) : StrictMono (multiple fractionBits) := by
  intro a b less
  rcases Nat.lt_or_eq_of_le (Nat.div_le_div_right (c := 2 ^ fractionBits) (Nat.le_of_lt less)) with
    exponents | exponents
  · exact Nat.lt_of_lt_of_le (multiple_lt_of_exponent fractionBits a)
      (le_multiple_of_exponent exponents)
  · have fractions : a % 2 ^ fractionBits < b % 2 ^ fractionBits := by
      rw [← Nat.div_add_mod a (2 ^ fractionBits), ← Nat.div_add_mod b (2 ^ fractionBits),
        exponents] at less
      exact Nat.lt_of_add_lt_add_left less
    unfold multiple
    rw [exponents]
    split
    · exact fractions
    · exact Nat.mul_lt_mul_of_pos_right (Nat.add_lt_add_left fractions _) (Nat.two_pow_pos _)

def signedMultiple (fractionBits : Nat) (rank : ℤ) : ℤ :=
  if 0 ≤ rank then multiple fractionBits rank.toNat else -multiple fractionBits (-rank).toNat

theorem multiple_zero (fractionBits : Nat) : multiple fractionBits 0 = 0 := by
  simp [multiple]

theorem signedMultiple_lt (fractionBits : Nat) {a b : ℤ} (less : a < b) :
    signedMultiple fractionBits a < signedMultiple fractionBits b := by
  have mono := multiple_strictMono fractionBits
  have zero := multiple_zero fractionBits
  unfold signedMultiple
  split
  · next nonneg =>
    rw [if_pos (by omega)]
    exact Int.ofNat_lt.mpr (mono (by omega))
  · next neg =>
    have positive : 0 < multiple fractionBits (-a).toNat := by
      rw [← zero]
      exact mono (by omega)
    split
    · omega
    · have larger := mono (show (-b).toNat < (-a).toNat by omega)
      omega

theorem signedMultiple_natCast (fractionBits pattern : Nat) :
    signedMultiple fractionBits pattern = multiple fractionBits pattern := by
  rw [signedMultiple, if_pos (Int.natCast_nonneg pattern), Int.toNat_natCast]

theorem signedMultiple_neg (fractionBits pattern : Nat) :
    signedMultiple fractionBits (-pattern) = -multiple fractionBits pattern := by
  unfold signedMultiple
  split
  · next nonneg =>
    have zero : pattern = 0 := by omega
    simp [zero, multiple_zero]
  · rw [Int.neg_neg, Int.toNat_natCast]

/-! ## The order of numbers -/

/-- The pattern of infinity. -/
def infinity : Nat := (2 ^ format.exponentBits - 1) * 2 ^ format.fractionBits

/-- The number of a rank. -/
def valueOfRank (rank : ℤ) : Number :=
  if (format.infinity : ℤ) ≤ rank then .posInf
  else if rank ≤ -format.infinity then .negInf
  else .finite (signedMultiple format.fractionBits rank)

theorem valueOfRank_lt {a b : ℤ} (lowA : -(format.infinity : ℤ) ≤ a) (highB : b ≤ format.infinity)
    (less : a < b) : format.valueOfRank a < format.valueOfRank b := by
  unfold valueOfRank
  split
  · omega
  · split
    · split
      · rfl
      · rw [if_neg (by omega)]
        rfl
    · split
      · rfl
      · rw [if_neg (by omega)]
        exact decide_eq_true (signedMultiple_lt _ less)

variable {format} {bits : Nat}

theorem unsigned_div : format.unsigned bits / 2 ^ format.fractionBits = format.exponent bits := by
  rw [unsigned, exponent, Nat.add_comm, Nat.pow_add, Nat.mod_mul_right_div_self]

theorem unsigned_mod : format.unsigned bits % 2 ^ format.fractionBits = format.fraction bits := by
  rw [unsigned, fraction, Nat.add_comm, Nat.pow_add, Nat.mod_mul_right_mod]

theorem unsigned_eq : format.unsigned bits =
    format.exponent bits * 2 ^ format.fractionBits + format.fraction bits := by
  rw [← unsigned_div, ← unsigned_mod, Nat.mul_comm]
  exact (Nat.div_add_mod _ _).symm

theorem exponent_le : format.exponent bits ≤ 2 ^ format.exponentBits - 1 :=
  Nat.le_sub_one_of_lt (Nat.mod_lt _ (Nat.two_pow_pos _))

theorem unsigned_le (number : format.isNaN bits = false) :
    format.unsigned bits ≤ format.infinity ∧
      (format.unsigned bits = format.infinity ↔
        format.exponent bits = 2 ^ format.exponentBits - 1) := by
  have below := Nat.mod_lt bits (Nat.two_pow_pos format.fractionBits)
  have le := @exponent_le format bits
  rw [unsigned_eq, infinity]
  rcases Nat.lt_or_eq_of_le le with less | same
  · have row := Nat.mul_le_mul_right (2 ^ format.fractionBits) (Nat.succ_le_of_lt less)
    rw [Nat.succ_mul] at row
    have fraction : format.fraction bits < 2 ^ format.fractionBits := below
    constructor <;> [omega; constructor] <;> omega
  · have zero : format.fraction bits = 0 := by simpa [isNaN, same] using number
    rw [same, zero]
    simp

theorem isNaN_eq : format.isNaN bits = decide (format.infinity < format.unsigned bits) := by
  cases nan : format.isNaN bits with
  | false => exact (decide_eq_false (Nat.not_lt.mpr (unsigned_le nan).1)).symm
  | true =>
      obtain ⟨exponent, fraction⟩ := of_decide_eq_true nan
      refine (decide_eq_true ?_).symm
      rw [unsigned_eq, infinity, exponent]
      exact Nat.lt_add_of_pos_right (Nat.pos_of_ne_zero fraction)

theorem negative_eq (below : bits < 2 ^ (format.exponentBits + format.fractionBits + 1)) :
    format.negative bits = decide (2 ^ (format.exponentBits + format.fractionBits) ≤ bits) := by
  have double := Nat.pow_succ' (n := 2) (m := format.exponentBits + format.fractionBits)
  unfold negative
  rcases Nat.lt_or_ge bits (2 ^ (format.exponentBits + format.fractionBits)) with low | high
  · rw [Nat.div_eq_of_lt low]
    exact (decide_eq_false (Nat.not_le.mpr low)).symm
  · rw [Nat.div_eq_of_lt_le (k := 1) (by omega) (by omega)]
    exact (decide_eq_true high).symm

theorem infinity_pos (exponents : 0 < format.exponentBits) : 0 < format.infinity := by
  have more := Nat.one_lt_two_pow (Nat.ne_of_gt exponents)
  exact Nat.mul_pos (by omega) (Nat.two_pow_pos _)

theorem rank_mem (number : format.isNaN bits = false) :
    -(format.infinity : ℤ) ≤ format.rank bits ∧ format.rank bits ≤ format.infinity := by
  have bound := (unsigned_le number).1
  unfold rank
  constructor <;> split <;> omega

theorem value_eq (exponents : 0 < format.exponentBits) (number : format.isNaN bits = false) :
    format.value bits = format.valueOfRank (format.rank bits) := by
  obtain ⟨bound, top⟩ := unsigned_le number
  have positive := infinity_pos exponents
  by_cases infinite : format.exponent bits = 2 ^ format.exponentBits - 1
  · have same := top.mpr infinite
    cases negative : format.negative bits with
    | true =>
        rw [rank, negative, if_pos rfl, valueOfRank, if_neg (by omega), if_pos (by omega)]
        simp [value, magnitude, infinite, negative]
    | false =>
        rw [rank, negative, if_neg Bool.false_ne_true, valueOfRank, if_pos (by omega)]
        simp [value, magnitude, infinite, negative]
  · have less : format.unsigned bits < format.infinity :=
      Nat.lt_of_le_of_ne bound fun same => infinite (top.mp same)
    have finite : format.magnitude bits =
        some (multiple format.fractionBits (format.unsigned bits)) := by
      rw [magnitude, if_neg infinite, multiple, unsigned_div, unsigned_mod]
      split <;> rfl
    cases negative : format.negative bits with
    | true =>
        rw [rank, negative, if_pos rfl, valueOfRank, if_neg (by omega), if_neg (by omega),
          signedMultiple_neg, value, finite, negative]
    | false =>
        rw [rank, negative, if_neg Bool.false_ne_true, valueOfRank, if_neg (by omega),
          if_neg (by omega), signedMultiple_natCast, value, finite, negative]

/-- Numbers order as the ranks of their patterns. -/
theorem value_compare (exponents : 0 < format.exponentBits) {x y : Nat}
    (numberX : format.isNaN x = false) (numberY : format.isNaN y = false) :
    (format.value x < format.value y ↔ format.rank x < format.rank y) ∧
      (format.value x = format.value y ↔ format.rank x = format.rank y) := by
  rw [value_eq exponents numberX, value_eq exponents numberY]
  obtain ⟨lowX, highX⟩ := rank_mem numberX
  obtain ⟨lowY, highY⟩ := rank_mem numberY
  rcases Int.lt_trichotomy (format.rank x) (format.rank y) with less | same | more
  · have below := valueOfRank_lt format lowX highY less
    refine ⟨iff_of_true below less, iff_of_false (fun same => ?_) (Int.ne_of_lt less)⟩
    exact Number.lt_irrefl _ (same ▸ below)
  · rw [same]
    exact ⟨iff_of_false (Number.lt_irrefl _) (Int.lt_irrefl _), iff_of_true rfl rfl⟩
  · have above := valueOfRank_lt format lowY highX more
    refine ⟨iff_of_false (Number.lt_asymm above) (Int.not_lt.mpr (Int.le_of_lt more)),
      iff_of_false (fun same => ?_) (Int.ne_of_gt more)⟩
    exact Number.lt_irrefl _ (same ▸ above)

/-! ## Ranks by the parts of the pattern -/

/-- The pattern is not that of minus zero. -/
def NoMinusZero (format : FloatFormat) (bits : Nat) : Prop :=
  format.negative bits = true → 0 < format.unsigned bits

theorem unsigned_lt_iff {x y : Nat} : format.unsigned x < format.unsigned y ↔
    format.exponent x < format.exponent y ∨
      format.exponent x = format.exponent y ∧ format.fraction x < format.fraction y := by
  have belowX : format.fraction x < 2 ^ format.fractionBits := Nat.mod_lt _ (Nat.two_pow_pos _)
  have belowY : format.fraction y < 2 ^ format.fractionBits := Nat.mod_lt _ (Nat.two_pow_pos _)
  rw [unsigned_eq, unsigned_eq]
  rcases Nat.lt_trichotomy (format.exponent x) (format.exponent y) with less | same | more
  · have row := Nat.mul_le_mul_right (2 ^ format.fractionBits) (Nat.succ_le_of_lt less)
    rw [Nat.succ_mul] at row
    omega
  · rw [same]
    omega
  · have row := Nat.mul_le_mul_right (2 ^ format.fractionBits) (Nat.succ_le_of_lt more)
    rw [Nat.succ_mul] at row
    omega

theorem unsigned_eq_iff {x y : Nat} : format.unsigned x = format.unsigned y ↔
    format.exponent x = format.exponent y ∧ format.fraction x = format.fraction y := by
  constructor
  · intro same
    rw [← unsigned_div, ← unsigned_mod, ← unsigned_div, ← unsigned_mod, same]
    exact ⟨rfl, rfl⟩
  · rintro ⟨exponents, fractions⟩
    rw [unsigned_eq, unsigned_eq, exponents, fractions]

theorem rank_eq_iff {x y : Nat} (plainX : NoMinusZero format x) (plainY : NoMinusZero format y) :
    format.rank x = format.rank y ↔ format.negative x = format.negative y ∧
      format.exponent x = format.exponent y ∧ format.fraction x = format.fraction y := by
  rw [← unsigned_eq_iff]
  unfold NoMinusZero at plainX plainY
  unfold rank
  cases negX : format.negative x <;> cases negY : format.negative y <;>
    simp only [negX, negY, if_true, Bool.false_eq_true, if_false, false_implies, true_implies,
      reduceCtorEq, false_and, true_and, iff_false] at plainX plainY ⊢ <;> omega

theorem rank_lt_iff {x y : Nat} (plainX : NoMinusZero format x) (plainY : NoMinusZero format y) :
    format.rank x < format.rank y ↔
      if format.negative x = format.negative y then
        if format.exponent x = format.exponent y then
          if format.negative x then format.fraction y < format.fraction x
          else format.fraction x < format.fraction y
        else (decide (format.exponent x < format.exponent y) ^^ format.negative x) = true
      else format.negative x = true := by
  have less := @unsigned_lt_iff format x y
  have greater := @unsigned_lt_iff format y x
  unfold NoMinusZero at plainX plainY
  unfold rank
  cases negX : format.negative x with
  | false =>
      cases negY : format.negative y with
      | false =>
          simp only [if_true, Bool.false_eq_true, if_false, Bool.xor_false, decide_eq_true_eq]
          split <;> omega
      | true =>
          have positive := plainY negY
          simp only [if_true, Bool.false_eq_true, if_false, iff_false]
          omega
  | true =>
      have positive := plainX negX
      cases negY : format.negative y with
      | false =>
          simp only [if_true, Bool.false_eq_true, Bool.true_eq_false, if_false, iff_true]
          omega
      | true =>
          simp only [if_true, Bool.xor_true, Bool.not_eq_true', decide_eq_false_iff_not]
          split <;> omega

end FloatFormat

end SbFuzz.Numeric
